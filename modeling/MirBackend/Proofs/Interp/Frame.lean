/-
Frames with values assigned.

An assignment shows in the value it assigns and nowhere else. Of several
assignments, one after the other, the last one to a value shows; where the
values are distinct, each one does. The values that phis take on an edge are
such a list: one for each phi, read in the frame as it was (`phiLooks_spec`).
-/
import Mathlib
import MirBackend.Proofs.Interp.Exec

namespace MirBackend.Interp

-- ========================================================== one assignment

-- A frame after one of its values is set.
@[simp] theorem getElem?_insert_frame (fr : Frame) (d v : ValueId) (x : Value) :
    (fr.insert d x)[v]? = if d = v then some x else fr[v]? := by
  rw [Std.ExtTreeMap.getElem?_insert]
  by_cases h : d = v
  · simp [h]
  · simp [h]

/-- An assignment does not show in other operands. -/
theorem look_insert_of_ne {fr : Frame} {d : ValueId} {o : Operand} {x : Value}
    (h : o ≠ .value d) : look (fr.insert d x) o = look fr o := by
  cases o with
  | value v =>
      show (fr.insert d x)[v]? = fr[v]?
      rw [getElem?_insert_frame, if_neg fun heq => h (by rw [heq])]
  | _ => rfl

theorem look_insert_self (fr : Frame) (d : ValueId) (x : Value) :
    look (fr.insert d x) (.value d) = some x := by
  show (fr.insert d x)[d]? = _
  rw [getElem?_insert_frame, if_pos rfl]

-- ===================================================== several assignments

variable {fr fr' : Frame} {ps : List (ValueId × Value)} {v : ValueId}

/-- Values are set in order. -/
theorem insertAll_cons (fr : Frame) (p : ValueId × Value)
    (ps : List (ValueId × Value)) :
    insertAll fr (p :: ps) = insertAll (fr.insert p.1 p.2) ps := rfl

/-- A value that is not set is as it was. -/
theorem getElem?_insertAll_of_not_mem (h : v ∉ ps.map (·.1)) :
    (insertAll fr ps)[v]? = fr[v]? := by
  induction ps generalizing fr with
  | nil => rfl
  | cons p ps ih =>
      rw [List.map_cons, List.mem_cons, not_or] at h
      rw [insertAll_cons, ih h.2, getElem?_insert_frame, if_neg (Ne.symm h.1)]

/-- Where frames agree on what is not assigned, they agree after the
assignments. -/
theorem getElem?_insertAll_congr (h : v ∉ ps.map (·.1) → fr[v]? = fr'[v]?) :
    (insertAll fr ps)[v]? = (insertAll fr' ps)[v]? := by
  induction ps generalizing fr fr' with
  | nil => exact h List.not_mem_nil
  | cons p ps ih =>
      rw [insertAll_cons, insertAll_cons]
      refine ih fun hps => ?_
      rw [getElem?_insert_frame, getElem?_insert_frame]
      split
      · rfl
      · next hp =>
        refine h ?_
        rw [List.map_cons, List.mem_cons, not_or]
        exact ⟨Ne.symm hp, hps⟩

/-- A value that is set once is what it is set to. -/
theorem getElem?_insertAll_of_mem (hnd : (ps.map (·.1)).Nodup) {x : Value}
    (h : (v, x) ∈ ps) : (insertAll fr ps)[v]? = some x := by
  induction ps generalizing fr with
  | nil => cases h
  | cons p ps ih =>
      rw [List.map_cons, List.nodup_cons] at hnd
      rw [insertAll_cons]
      rcases List.mem_cons.mp h with rfl | h
      · rw [getElem?_insertAll_of_not_mem hnd.1,
          getElem?_insert_frame, if_pos rfl]
      · exact ih hnd.2 h

/-- A value is what it was assigned last. -/
theorem getElem?_insertAll_of_last {i : Nat} {x : Value}
    (hi : ps[i]? = some (v, x)) (hlast : v ∉ (ps.drop (i + 1)).map (·.1)) :
    (insertAll fr ps)[v]? = some x := by
  induction ps generalizing fr i with
  | nil => simp at hi
  | cons p ps ih =>
      rw [insertAll_cons]
      cases i with
      | zero =>
          cases hi
          have hnot : v ∉ ps.map (·.1) := hlast
          rw [getElem?_insertAll_of_not_mem hnot,
            getElem?_insert_frame, if_pos rfl]
      | succ i => exact ih hi hlast

/-- What shows after assignments was assigned or was there before. -/
theorem getElem?_insertAll_cases {x : Value}
    (h : (insertAll fr ps)[v]? = some x) :
    (v, x) ∈ ps ∨ (v ∉ ps.map (·.1) ∧ fr[v]? = some x) := by
  induction ps generalizing fr with
  | nil => exact Or.inr ⟨List.not_mem_nil, h⟩
  | cons p ps ih =>
      rw [insertAll_cons] at h
      rcases ih h with hm | ⟨hnot, hfr⟩
      · exact Or.inl (List.mem_cons_of_mem _ hm)
      · rw [getElem?_insert_frame] at hfr
        split at hfr
        · next hp =>
          obtain ⟨d, y⟩ := p
          cases hfr
          exact Or.inl (by rw [← hp]; exact List.mem_cons_self)
        · next hp =>
          refine Or.inr ⟨?_, hfr⟩
          rw [List.map_cons, List.mem_cons, not_or]
          exact ⟨Ne.symm hp, hnot⟩

/-- The destinations of an instruction are those that get its values. -/
theorem map_fst_zip_dests {ds : List ValueId} {xs : List Value}
    (h : ds = [] ∨ ds.length = xs.length) : (ds.zip xs).map (·.1) = ds := by
  refine List.map_fst_zip ?_
  rcases h with rfl | h
  · exact Nat.zero_le _
  · exact h.le

-- ===================================================================== phis

/-- What phis take on an edge: one value each, of the source that names the
block. -/
theorem phiLooks_spec {prev : BlockId} {is : List Instr}
    (hphi : ∀ i ∈ is, i.isPhi = true) (h : phiLooks fr prev is = some ps) :
    ps.map (·.1) = is.flatMap Instr.dests
    ∧ (∀ p ∈ ps, ∃ t ss s, .phi p.1 t ss ∈ is ∧ s ∈ ss ∧ s.block = prev
      ∧ look fr s.value = some p.2) := by
  induction is generalizing ps with
  | nil =>
      cases h
      exact ⟨rfl, by simp⟩
  | cons i is ih =>
      cases i with
      | phi d t ss =>
          rw [phiLooks_cons] at h
          obtain ⟨o, ho, h⟩ := Option.bind_eq_some_iff.mp h
          obtain ⟨s, hs, rfl⟩ := Option.map_eq_some_iff.mp ho
          obtain ⟨x, hx, h⟩ := Option.bind_eq_some_iff.mp h
          obtain ⟨qs, hqs, rfl⟩ := Option.map_eq_some_iff.mp h
          obtain ⟨hdests, hfrom⟩ :=
            ih (fun j hj => hphi j (List.mem_cons_of_mem _ hj)) hqs
          refine ⟨by rw [List.map_cons, hdests]; rfl, fun p hp => ?_⟩
          rcases List.mem_cons.mp hp with rfl | hp
          · exact ⟨t, ss, s, List.mem_cons_self, List.mem_of_find?_eq_some hs,
              by simpa using List.find?_some hs, hx⟩
          · obtain ⟨t', ss', s', hmem, hs'⟩ := hfrom p hp
            exact ⟨t', ss', s', List.mem_cons_of_mem _ hmem, hs'⟩
      | _ => cases hphi _ List.mem_cons_self

end MirBackend.Interp
