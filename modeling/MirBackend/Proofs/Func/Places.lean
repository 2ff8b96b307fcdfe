/-
The order of places in a function.

A place comes before another when control cannot be at the second without
having been at the first. On what control can reach this is an order, and a
value is available at a place when its definition comes before it. So where one
value can only be defined behind another (`Behind`), a new definition of the
other makes it unavailable: control has yet to pass its own definition again.
This is why values of different rounds of a loop are never available together.
-/
import Mathlib
import MirBackend.Proofs.Dominance.Sweeps
import MirBackend.Proofs.Func.Strict

namespace MirBackend.Func

variable {f : Func} {a b c : BlockId} {i j k : Nat} {u v w : ValueId}

-- =============================================================== dominance

/-- Domination is transitive. -/
theorem Dominates.trans (h : f.Dominates a b) (h' : f.Dominates b c) :
    f.Dominates a c := by
  intro trail hw
  obtain ⟨part, hpart, hsuf⟩ := hw.part_of_mem (h' trail hw)
  exact hsuf.subset (h part hpart)

/-- Of two blocks that can be reached, only one dominates the other. -/
theorem Dominates.antisymm (h : f.Dominates a b) (h' : f.Dominates b a)
    (hb : f.Reachable b) : a = b := by
  by_contra hne
  -- a walk to `b` passes `a`, and the part up to there has passed `b` before
  have hnone (n : Nat) : ∀ trail, trail.length = n → ¬ f.Walk b trail := by
    induction n using Nat.strong_induction_on with
    | _ n ih =>
        intro trail hlen hw
        have ha : a ∈ trail.tail := by
          cases hw with
          | start => exact absurd (List.mem_singleton.mp (h _ .start)) hne
          | step hw he hhere =>
            exact (List.mem_cons.mp (h _ (hw.step he hhere))).resolve_left hne
        cases hw with
        | start => cases ha
        | step hw he hhere =>
            obtain ⟨part, hpart, hsuf⟩ := hw.part_of_mem ha
            obtain ⟨part', hpart', hsuf'⟩ := hpart.part_of_mem (h' _ hpart)
            have := (hsuf'.trans hsuf).length_le
            rw [List.length_cons] at hlen
            exact ih part'.length (by omega) part' rfl hpart'
  obtain ⟨trail, hw⟩ := hb
  exact hnone _ trail rfl hw

-- ================================================================== places

/-- Control that is at the second place has been at the first: it is earlier in
the same block, or in another block, which dominates. -/
def Before (f : Func) (b : BlockId) (i : Nat) (c : BlockId) (j : Nat) : Prop :=
  (b = c ∧ i < j) ∨ (b ≠ c ∧ f.Dominates b c)

/-- What comes before a place that is reached is reached. -/
theorem Before.reachable (h : f.Before b i c j) (hc : f.Reachable c) :
    f.Reachable b := by
  rcases h with ⟨rfl, -⟩ | ⟨-, hdom⟩
  · exact hc
  · exact hdom.reachable hc

/-- Coming before is transitive between places that are reached. -/
theorem Before.trans (h : f.Before a i b j) (h' : f.Before b j c k)
    (hc : f.Reachable c) : f.Before a i c k := by
  rcases h with ⟨rfl, hij⟩ | ⟨hne, hdom⟩
  · exact h'.imp_left fun h' => ⟨h'.1, hij.trans h'.2⟩
  · rcases h' with ⟨rfl, -⟩ | ⟨-, hdom'⟩
    · exact Or.inr ⟨hne, hdom⟩
    · refine Or.inr ⟨?_, hdom.trans hdom'⟩
      rintro rfl
      exact hne (hdom.antisymm hdom' (hdom'.reachable hc))

/-- What comes behind a place does not come before the next one. -/
theorem Before.not_after (h : f.Before b i c j) (hc : f.Reachable c) :
    ¬ f.Before c j b (i + 1) := by
  rintro (⟨rfl, hlt⟩ | ⟨hne', hdom'⟩)
  · rcases h with ⟨-, hij⟩ | ⟨hne, -⟩
    · omega
    · exact hne rfl
  · rcases h with ⟨rfl, -⟩ | ⟨hne, hdom⟩
    · exact hne' rfl
    · exact hne (hdom.antisymm hdom' hc)

-- ============================================================ availability

/-- What is available stays so further on in the block. -/
theorem AvailableAt.mono (h : f.AvailableAt b i v) (hij : i ≤ j) :
    f.AvailableAt b j v := by
  rcases h with hp | ⟨c, k, hdef, ⟨rfl, hlt⟩ | hdom⟩
  · exact Or.inl hp
  · exact Or.inr ⟨c, k, hdef, Or.inl ⟨rfl, hlt.trans_le hij⟩⟩
  · exact Or.inr ⟨c, k, hdef, Or.inr hdom⟩

/-- What is available behind an instruction was so before it, or the instruction
defines it. -/
theorem AvailableAt.before_instr (h : f.AvailableAt b (j + 1) v) :
    f.AvailableAt b j v ∨ f.DefinedAt b j v := by
  rcases h with hp | ⟨c, i, hdef, ⟨rfl, hlt⟩ | hdom⟩
  · exact Or.inl (Or.inl hp)
  · rcases Nat.lt_succ_iff_lt_or_eq.mp hlt with hlt | rfl
    · exact Or.inl (Or.inr ⟨c, i, hdef, Or.inl ⟨rfl, hlt⟩⟩)
    · exact Or.inr hdef
  · exact Or.inl (Or.inr ⟨c, i, hdef, Or.inr hdom⟩)

/-- What is available behind the phis of a block was so at its start, or they
define it. -/
theorem AvailableAt.before_phis {blk : Block}
    (h : f.AvailableAt b blk.phiCount v) (hb : f.block? b = some blk) :
    v ∈ blk.leadingPhis.flatMap Instr.dests ∨ f.AvailableAt b 0 v := by
  rcases h with hp | ⟨c, i, hdef, ⟨rfl, hi⟩ | hdom⟩
  · exact Or.inr (Or.inl hp)
  · obtain ⟨blk', ins, hblk', hins, hd⟩ := hdef
    rw [hb, Option.some.injEq] at hblk'
    rw [← hblk', ← blk.leadingPhis_append_body,
      List.getElem?_append_left hi] at hins
    exact Or.inl (List.mem_flatMap.mpr ⟨ins, List.mem_of_getElem? hins, hd⟩)
  · exact Or.inr (Or.inr ⟨c, i, hdef, Or.inr hdom⟩)

/-- What is available at the start of a block is so at the end of every block
before it. -/
theorem AvailableAt.before_edge {blk : Block} (h : f.AvailableAt c 0 v)
    (hb : f.block? b = some blk) (hedge : f.HasEdge b c)
    (hhere : f.hasBlock c = true) : f.AvailableAt b blk.instrs.length v := by
  rcases h with hp | ⟨d, i, hdef, ⟨-, hlt⟩ | ⟨hne, hdom⟩⟩
  · exact Or.inl hp
  · omega
  · refine Or.inr ⟨d, i, hdef, ?_⟩
    by_cases hdb : d = b
    · subst hdb
      obtain ⟨blk', ins, hblk', hi, -⟩ := hdef
      rw [hb, Option.some.injEq] at hblk'
      subst hblk'
      exact Or.inl ⟨rfl, (List.getElem?_eq_some_iff.mp hi).1⟩
    · exact Or.inr ⟨hdb, Dominance.Tree.dominates_pred hdom hne hedge hhere⟩

/-- At the entry only parameters are available. -/
theorem AvailableAt.at_entry (h : f.AvailableAt f.entry 0 v) :
    v ∈ f.params := by
  rcases h with hp | ⟨c, i, -, ⟨-, hlt⟩ | ⟨hne, hdom⟩⟩
  · exact hp
  · omega
  · exact absurd (Dominance.Tree.dominates_entry hdom) hne

/-- A value with one definition has one place of definition. -/
theorem DefinedAt.unique (honce : f.definedValues.count v ≤ 1)
    (hb : f.DefinedAt b i v) (hc : f.DefinedAt c j v) : b = c ∧ i = j := by
  -- of the list of all definitions only those of `v` are looked at
  have hone {α : Type} {g : α → List ValueId} {as : List α}
      (h : (as.flatMap g).count v ≤ 1)
      {m n : Nat} {x y : α} (hm : as[m]? = some x)
      (hn : as[n]? = some y) (hx : v ∈ g x)
      (hy : v ∈ g y) : m = n := by
    refine getElem?_unique_of_nodup
      (g := fun x => (g x).filter (· == v)) ?_ hm hn
      (b := v) (List.mem_filter.mpr ⟨hx, beq_self_eq_true v⟩)
      (List.mem_filter.mpr ⟨hy, beq_self_eq_true v⟩)
    rw [← List.filter_flatMap, List.filter_beq, List.nodup_replicate]
    exact h
  obtain ⟨blk, ins, hblk, hi, hv⟩ := hb
  obtain ⟨blk', ins', hblk', hj, hv'⟩ := hc
  obtain ⟨m, rfl, hm⟩ := block?_eq_some_iff.mp hblk
  obtain ⟨n, rfl, hn⟩ := block?_eq_some_iff.mp hblk'
  have hmem : v ∈ destsOf (some blk) :=
    List.mem_flatMap.mpr ⟨ins, List.mem_of_getElem? hi, hv⟩
  have hmem' : v ∈ destsOf (some blk') :=
    List.mem_flatMap.mpr ⟨ins', List.mem_of_getElem? hj, hv'⟩
  obtain rfl : m = n := hone honce hm hn hmem hmem'
  rw [hm, Option.some.injEq, Option.some.injEq] at hn
  subst hn
  have hle : (blk.instrs.flatMap Instr.dests).count v
      ≤ f.definedValues.count v := by
    rw [definedValues, List.count_flatMap (l := f.blocks)]
    exact List.le_sum_of_mem (M := Nat)
      (List.mem_map_of_mem (f := List.count v ∘ destsOf)
      (List.mem_of_getElem? hm))
  exact ⟨rfl, hone (hle.trans honce) hi hj hv hv'⟩

/-- A value with one definition is defined by one instruction. -/
theorem instr_unique_of_count {ins ins' : Instr}
    (honce : f.definedValues.count v ≤ 1) (hi : f.HasInstr ins)
    (hi' : f.HasInstr ins') (hv : v ∈ ins.dests) (hv' : v ∈ ins'.dests) :
    ins = ins' := by
  obtain ⟨b, blk, hb, hmem⟩ := hi
  obtain ⟨c, blk', hc, hmem'⟩ := hi'
  obtain ⟨m, hm⟩ := List.mem_iff_getElem?.mp hmem
  obtain ⟨n, hn⟩ := List.mem_iff_getElem?.mp hmem'
  obtain ⟨rfl, rfl⟩ := DefinedAt.unique honce ⟨blk, ins, hb, hm, hv⟩ ⟨blk',
    ins', hc, hn, hv'⟩
  rw [hb, Option.some.injEq] at hc
  subst hc
  rw [hm, Option.some.injEq] at hn
  exact hn

/-- Where the second value is defined, the first is available. -/
def Behind (f : Func) (u v : ValueId) : Prop :=
  ∀ b j, f.Reachable b → f.DefinedAt b j v → f.AvailableAt b j u

/-- Wherever the second value is available, the first is. -/
theorem Behind.available (h : f.Behind u v) (hv : v ∉ f.params)
    (hc : f.Reachable c) (hk : f.AvailableAt c k v) : f.AvailableAt c k u := by
  obtain hp | ⟨b, j, hdef, hbefore⟩ := hk
  · exact absurd hp hv
  obtain hp | ⟨a, i, hdef', hbefore'⟩ :=
    h b j (Before.reachable hbefore hc) hdef
  · exact Or.inl hp
  · exact Or.inr ⟨a, i, hdef', Before.trans hbefore' hbefore hc⟩

/-- A value behind another is behind whatever that one is behind. -/
theorem Behind.trans (h : f.Behind u v) (h' : f.Behind v w)
    (hv : v ∉ f.params) : f.Behind u w :=
  fun c k hc hdef => h.available hv hc (h' c k hc hdef)

/-- Once a value is defined anew, what is only defined behind it is not
available. -/
theorem Behind.not_available (h : f.Behind u v) (hu : u ∉ f.params)
    (honce : f.definedValues.count u ≤ 1) (hv : v ∉ f.params)
    (hb : f.Reachable b) (hdef : f.DefinedAt b j u) :
    ¬ f.AvailableAt b (j + 1) v := by
  rintro (hp | ⟨c, k, hdefv, hbefore⟩)
  · exact hv hp
  have hc := Before.reachable hbefore hb
  obtain hp | ⟨b', j', hdef', hbefore'⟩ := h c k hc hdefv
  · exact hu hp
  obtain ⟨rfl, rfl⟩ := DefinedAt.unique honce hdef' hdef
  exact Before.not_after hbefore' hc hbefore

end MirBackend.Func
