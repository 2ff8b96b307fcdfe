/-
Values that lend their slots.

An address that is taken of a value points into the slots of the value itself:
from there on they are memory, whatever is stored through the address. The value
has lent them (`Lent`), and it has them back when it is defined anew. It can
lend them to one address at a time, and not take them back while that address
can still be used (`LendsOnce`).

Which addresses have their slots is followed along the code (`LiveAt`): those
that are available have, and none has the slots of a value that was defined
since its address was taken. An instruction that defines a value ends what was
lent of it, one that makes an address takes over the slots of the value and ends
what was derived from the address before, and all others leave it as it is.
-/
import Mathlib
import MirBackend.Proofs.Asm.FrameAddresses

namespace MirBackend.Asm

open Generator (derivation)

variable {f : Func} {live : ValueId → Prop} {b c : BlockId} {blk : Block}
  {i : Instr} {j : Nat} {d r u v h : ValueId} {off : Int32} {k : Int64}

-- ================================================================= lending

/-- On some way to the place the address of a value was taken, and the value was
not defined since. -/
inductive Lent (f : Func) (d h : ValueId) : BlockId → Nat → Prop where
  | taken {b : BlockId} {blk : Block} {j : Nat} (block : f.block? b = some blk)
      (instr : blk.instrs[j]? = some (.addressOf d h)) : Lent f d h b (j + 1)
  | instr {b : BlockId} {blk : Block} {i : Instr} {j : Nat}
      (block : f.block? b = some blk)
      (instr : blk.instrs[j]? = some i) (keeps : h ∉ i.dests)
      (before : Lent f d h b j) :
      Lent f d h b (j + 1)
  | edge {b c : BlockId} {blk : Block} (block : f.block? b = some blk)
      (edge : f.HasEdge b c)
      (before : Lent f d h b blk.instrs.length) : Lent f d h c 0

/-- A value whose address is taken is no frame address. It lends its slots to
one address at a time, and it is not defined anew while the address is
available. -/
structure LendsOnce (f : Func) : Prop where
  value : ∀ d h, f.HasInstr (.addressOf d h) → ¬ FrameAddress f h
  alone : ∀ d d' h b j, f.HasInstr (.addressOf d h) →
    f.HasInstr (.addressOf d' h) →
    f.Reachable b → f.AvailableAt b j d → f.AvailableAt b j d' → d = d'
  ended : ∀ d h b j, f.HasInstr (.addressOf d h) → f.Reachable b →
    f.DefinedAt b j h →
    ¬ f.AvailableAt b (j + 1) d

/-- A function that takes no addresses of values lends nothing. -/
theorem LendsOnce.of_none
    (hnone : ∀ d h, ¬ f.HasInstr (.addressOf d h)) : LendsOnce f :=
  ⟨fun d h hi => (hnone d h hi).elim, fun d _ h _ _ hi => (hnone d h hi).elim,
    fun d h _ _ hi => (hnone d h hi).elim⟩

-- ==================================================================== homes

/-- The address of a place in the frame is derived from itself only. -/
theorem Derived.of_home (hd : Derived f r v k) (hf : Fixed f)
    (hh : Home f v h) : v = r ∧ k = 0 := by
  cases hd with
  | refl => exact ⟨rfl, rfl⟩
  | step hi hderives =>
      obtain ⟨i', hi', hhome⟩ := id hh
      obtain rfl :=
        hf.instr_unique (.home hh) hi' hi (by rw [dests_of_homeOf? hhome]; simp)
        (by rw [(dests_of_derivation hderives).1]; simp)
      cases i' <;> cases hhome <;> cases hderives

/-- A value that is no frame address has lent its slots if it is a home. -/
theorem Home.addressOf (hh : Home f r v) (hv : ¬ FrameAddress f v) :
    f.HasInstr (.addressOf r v) := by
  obtain ⟨rfl, t, ht⟩ | hi := hh.cases
  · exact absurd (.home hh) hv
  · exact hi

/-- A value that lends its slots is the home of no other kind. -/
theorem LendsOnce.home_eq (hl : LendsOnce f) (hh : Home f r h)
    (hv : FrameAddress f h) : h = r := by
  obtain ⟨rfl, -⟩ | hi := hh.cases
  · rfl
  · exact absurd hv (hl.value r h hi)

-- ===================================================================== live

/-- Among the addresses that are live at a place are those available there, and
the slots of none of them went back to the value that had lent them. -/
structure LiveAt (f : Func) (live : ValueId → Prop) (b : BlockId)
    (j : Nat) : Prop where
  available : ∀ v, FrameAddress f v → f.AvailableAt b j v → live v
  lent : ∀ r h, f.HasInstr (.addressOf r h) → live r → Lent f r h b j

/-- What is live once a value got its slots back. -/
def Reclaimed (f : Func) (live : ValueId → Prop)
    (d : ValueId) : ValueId → Prop :=
  fun v => live v ∧ ¬ Home f v d

/-- What is live once an address has the slots of its home. -/
def Occupied (f : Func) (live : ValueId → Prop)
    (d h : ValueId) : ValueId → Prop :=
  fun v => v = d ∨ (live v ∧ ¬ Home f v h ∧ ∀ k, ¬ Derived f d v k)

/-- A place that has its slots then is that of the address, or another one that
had them before. -/
theorem Occupied.split (hf : Fixed f) (hd : Home f d h) (hr : Home f r u)
    (hlr : Occupied f live d h r) : (r = d ∧ u = h)
      ∨ (r ≠ d ∧ live r ∧ u ≠ h) := by
  by_cases hrd : r = d
  · subst hrd
    exact Or.inl ⟨rfl, hf.home_unique hr hd⟩
  · obtain ⟨hlive, hnot, -⟩ := hlr.resolve_left hrd
    exact Or.inr ⟨hrd, hlive, fun heq => hnot (heq ▸ hr)⟩

/-- What is available behind an instruction was so before it, or the instruction
defines it. -/
theorem available_behind (hb : f.block? c = some blk)
    (hj : blk.instrs[j]? = some i) (hv : f.AvailableAt c (j + 1) v) :
    f.AvailableAt c j v ∨ v ∈ i.dests := by
  refine hv.before_instr.imp_right ?_
  rintro ⟨blk', i', hb', hj', hv⟩
  rw [hb, Option.some.injEq] at hb'
  subst hb'
  rw [hj, Option.some.injEq] at hj'
  exact hj' ▸ hv

namespace LiveAt

section

variable (hlive : LiveAt f live c j) (hb : f.block? c = some blk)
  (hj : blk.instrs[j]? = some i)
include hlive hb hj

/-- Where nothing is defined, nothing changes. -/
theorem pass (hdests : i.dests = []) : LiveAt f live c (j + 1) := by
  refine ⟨fun v hv hav => ?_,
    fun r h hi hlr => .instr hb hj ?_ (hlive.lent r h hi hlr)⟩
  · obtain hav | hmem := available_behind hb hj hav
    · exact hlive.available v hv hav
    · rw [hdests] at hmem
      cases hmem
  · rw [hdests]
    exact List.not_mem_nil

/-- A value that is defined has its slots back. -/
theorem define (hl : LendsOnce f) (hreach : f.Reachable c)
    (hdests : i.dests = [d]) (hd : ¬ FrameAddress f d) :
    LiveAt f (Reclaimed f live d) c (j + 1) := by
  have hmem : d ∈ i.dests := by rw [hdests]; exact List.mem_cons_self
  refine ⟨fun v hv hav => ⟨?_, fun hhome => ?_⟩, fun r h hi ⟨hlr, hnot⟩ => ?_⟩
  · obtain hbefore | hmem := available_behind hb hj hav
    · exact hlive.available v hv hbefore
    · rw [hdests, List.mem_singleton] at hmem
      exact absurd (hmem ▸ hv) hd
  · exact hl.ended v d c j (hhome.addressOf hd) hreach ⟨blk,
      i, hb, hj, hmem⟩ hav
  · refine .instr hb hj ?_ (hlive.lent r h hi hlr)
    rw [hdests, List.mem_singleton]
    rintro rfl
    exact hnot ⟨_, hi, rfl⟩

/-- An address that is derived from another has no slots of its own. -/
theorem derive (hf : Fixed f) (hl : LendsOnce f)
    (hderives : derivation i = some (d, u, off)) (hbase : FrameAddress f u) :
    LiveAt f (fun v => v = d ∨ live v) c (j + 1) := by
  obtain ⟨hdests, -⟩ := dests_of_derivation hderives
  have hi : f.HasInstr i := ⟨c, blk, hb, List.mem_of_getElem? hj⟩
  have hd : FrameAddress f d := .step hi hderives hbase
  have hmem : d ∈ i.dests := by rw [hdests]; exact List.mem_cons_self
  refine ⟨fun v hv hav => ?_, fun r h hi' hlr => ?_⟩
  · obtain hav | hmem := available_behind hb hj hav
    · exact Or.inr (hlive.available v hv hav)
    · rw [hdests, List.mem_singleton] at hmem
      exact Or.inl hmem
  · obtain rfl | hlr := hlr
    · obtain rfl := hf.instr_unique hd hi hi' hmem List.mem_cons_self
      cases hderives
    · refine .instr hb hj ?_ (hlive.lent r h hi' hlr)
      rw [hdests, List.mem_singleton]
      rintro rfl
      exact hl.value r h hi' hd

/-- An address that is made of a place has the slots there. -/
theorem settle (hf : Fixed f) (hl : LendsOnce f) (hreach : f.Reachable c)
    (hhome : homeOf? i = some (d, h)) :
    LiveAt f (Occupied f live d h) c (j + 1) := by
  have hdests := dests_of_homeOf? hhome
  have hmem : d ∈ i.dests := by rw [hdests]; exact List.mem_cons_self
  have hi : f.HasInstr i := ⟨c, blk, hb, List.mem_of_getElem? hj⟩
  have hhere : Home f d h := ⟨i, hi, hhome⟩
  have hd : FrameAddress f d := .home hhere
  have hdefined : f.DefinedAt c j d := ⟨blk, i, hb, hj, hmem⟩
  refine ⟨fun v hv hav => ?_, fun r h' hi' hlr => ?_⟩
  · refine or_iff_not_imp_left.mpr fun hne =>
      ⟨?_, fun hother => ?_, fun k hk => ?_⟩
    · obtain hbefore | hmem := available_behind hb hj hav
      · exact hlive.available v hv hbefore
      · rw [hdests, List.mem_singleton] at hmem
        exact absurd hmem hne
    · -- another address with the same home: the home lends its slots, and to one of them
      have hvalue : ¬ FrameAddress f h := fun hfa =>
        hne ((hl.home_eq hother hfa).symm.trans (hl.home_eq hhere hfa))
      refine hne (hl.alone v d h c (j + 1) (hother.addressOf hvalue)
        (hhere.addressOf hvalue) hreach
        hav (Or.inr ⟨c, j, hdefined, Or.inl ⟨rfl, Nat.lt_succ_self j⟩⟩))
    · exact hf.not_available_derived hd hk hne hreach hdefined hav
  · obtain rfl | ⟨hlr, -, -⟩ := hlr
    · obtain rfl := hf.instr_unique hd hi hi' hmem List.mem_cons_self
      exact .taken hb hj
    · refine .instr hb hj ?_ (hlive.lent r h' hi' hlr)
      rw [hdests, List.mem_singleton]
      rintro rfl
      exact hl.value r h' hi' hd

end

/-- Nothing changes from one block to another. -/
theorem edge (hlive : LiveAt f live b blk.instrs.length)
    (hb : f.block? b = some blk) (hedge : f.HasEdge b c)
    (hhere : f.hasBlock c = true) : LiveAt f live c 0 :=
  ⟨fun v hv hav => hlive.available v hv (hav.before_edge hb hedge hhere),
    fun r h hi hlr => .edge hb hedge (hlive.lent r h hi hlr)⟩

/-- At the entry no address is live. -/
theorem entry (hf : Fixed f) : LiveAt f (fun _ => False) f.entry 0 :=
  ⟨fun v hv hav => (hf.once v hv).2 hav.at_entry, fun _ _ _ h => h.elim⟩

end LiveAt

end MirBackend.Asm
