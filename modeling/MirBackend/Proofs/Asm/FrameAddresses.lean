/-
Addresses that are known beforehand.

The address of a frame allocation or of a value, and every fixed step from one,
is a frame address (`FrameAddress`): it points into the slots of its *home*, the
allocation itself or the value whose address was taken. Which step leads from
one to the other the code says, not the run, as long as each of these values
has one definition that control passes before every use (`Fixed`).

Two things follow. The offsets that generation finds for such addresses are
those of their homes, advanced by the steps in between
(`Derived.staticAddress`). And no address outlives its home: when the home is
defined anew, everything derived from it is unavailable until it is derived
anew as well (`Fixed.not_available_derived`).
-/
import Mathlib
import MirBackend.Asm.Generator
import MirBackend.Proofs.Func.Places
import MirBackend.Proofs.Layout

namespace MirBackend.Asm

open Generator (derivation seed derive deriveAll staticAddresses)

variable {f : Func} {l : Layout} {b c : BlockId} {i i' : Instr} {j : Nat}
  {d r u v h : ValueId} {off : Int32} {k : Int64}

-- =========================================================== frame addresses

/-- The address that an instruction makes of a place in the frame, and the value
in whose slots the place is. -/
def homeOf? : Instr → Option (ValueId × ValueId)
  | .frameAlloc d _ => some (d, d)
  | .addressOf d v => some (d, v)
  | _ => none

/-- The first value is the address of the slots of the second. -/
def Home (f : Func) (d h : ValueId) : Prop :=
  ∃ i, f.HasInstr i ∧ homeOf? i = some (d, h)

/-- The value is an address that is known beforehand. -/
inductive FrameAddress (f : Func) : ValueId → Prop where
  | home {d h : ValueId} (home : Home f d h) : FrameAddress f d
  | step {i : Instr} {d b : ValueId} {off : Int32} (instr : f.HasInstr i)
      (derives : derivation i = some (d, b, off)) (base : FrameAddress f b) :
          FrameAddress f d

/-- The second value is the first address advanced by some slots, each step by a
number below the order of the field. -/
inductive Derived (f : Func) (r : ValueId) : ValueId → Int64 → Prop where
  | refl : Derived f r r 0
  | step {i : Instr} {d b : ValueId} {off : Int32} {k : Int64}
      (instr : f.HasInstr i)
      (derives : derivation i = some (d, b, off)) (canonical : 0 ≤ off
      ∧ off < 2147483647)
      (base : Derived f r b k) : Derived f r d (k + off.toInt64)

/-- Frame addresses have one definition, which control passes before every
use. -/
structure Fixed (f : Func) : Prop where
  once : ∀ v, FrameAddress f v → f.definedValues.count v ≤ 1 ∧ v ∉ f.params
  available : ∀ b blk j i, f.block? b = some blk → f.Reachable b →
    blk.instrs[j]? = some i →
    ∀ v ∈ i.uses, FrameAddress f v → f.AvailableAt b j v

/-- An instruction that derives an address defines that address and reads the
one it is derived from. -/
theorem dests_of_derivation (h : derivation i = some (d, u, off)) :
    i.dests = [d] ∧ u ∈ i.uses := by
  cases i with
  | assign d' v t =>
      cases v <;> cases h
      exact ⟨rfl, List.mem_cons_self⟩
  | cast d' v t t' =>
      cases v <;> cases h
      exact ⟨rfl, List.mem_cons_self⟩
  | elementPtr d' v o =>
      cases v with
      | value b =>
          obtain ⟨n, -, h⟩ := Option.map_eq_some_iff.mp h
          cases h
          exact ⟨rfl, List.mem_cons_self⟩
      | _ => cases h
  | _ => cases h

/-- An instruction that takes an address defines that address and nothing else.
-/
theorem dests_of_homeOf? (hh : homeOf? i = some (d, h)) : i.dests = [d] := by
  cases i <;> cases hh <;> rfl

/-- A frame address is that of an allocation, or it was taken of a value. -/
theorem Home.cases (hh : Home f d h) :
    (h = d ∧ ∃ t, f.HasInstr (.frameAlloc d t)) ∨ f.HasInstr
    (.addressOf d h) := by
  obtain ⟨i, hi, hhome⟩ := hh
  cases i <;> cases hhome
  · exact Or.inl ⟨rfl, _, hi⟩
  · exact Or.inr hi

/-- A frame address is defined by some instruction. -/
theorem FrameAddress.defined (h : FrameAddress f v) :
    ∃ i, f.HasInstr i ∧ v ∈ i.dests := by
  cases h with
  | home hhome =>
      obtain ⟨i, hi, hhome⟩ := hhome
      exact ⟨i, hi, by rw [dests_of_homeOf? hhome]; simp⟩
  | step hi hderives =>
    exact ⟨_, hi, by rw [(dests_of_derivation hderives).1]; simp⟩

/-- What is derived from a frame address is one. -/
theorem Derived.frameAddress (h : Derived f r v k) (hr : FrameAddress f r) :
    FrameAddress f v := by
  induction h with
  | refl => exact hr
  | step hi hderives _ _ ih => exact .step hi hderives ih

namespace Fixed

variable (hf : Fixed f)

include hf

/-- One instruction defines a frame address. -/
theorem instr_unique (hv : FrameAddress f v) (hi : f.HasInstr i)
    (hi' : f.HasInstr i') (hd : v ∈ i.dests) (hd' : v ∈ i'.dests) : i = i' :=
  Func.instr_unique_of_count (hf.once v hv).1 hi hi' hd hd'

/-- An address is that of one place only, since a value has one definition. -/
theorem home_unique {h h' : ValueId} (hh : Home f r h)
    (hh' : Home f r h') : h = h' := by
  obtain ⟨i, hi, hhome⟩ := id hh
  obtain ⟨i', hi', hhome'⟩ := hh'
  obtain rfl :=
    hf.instr_unique (.home hh) hi hi' (by rw [dests_of_homeOf? hhome]; simp)
    (by rw [dests_of_homeOf? hhome']; simp)
  rw [hhome, Option.some.injEq, Prod.mk.injEq] at hhome'
  exact hhome'.2

/-- What the instruction that defines a frame address reads is available
there. -/
theorem behind (hv : FrameAddress f v) (hi : f.HasInstr i)
    (hd : v ∈ i.dests) (hu : u ∈ i.uses) (haddr : FrameAddress f u) :
    f.Behind u v := by
  rintro c j hc ⟨blk, i', hblk, hj, hd'⟩
  obtain rfl := hf.instr_unique hv hi ⟨c, blk, hblk,
    List.mem_of_getElem? hj⟩ hd hd'
  exact hf.available c blk j i hblk hc hj u hu haddr

/-- What is derived from an address is defined behind it. -/
theorem behind_of_derived (hr : FrameAddress f r)
    (h : Derived f r v k) (hne : v ≠ r) : f.Behind r v := by
  induction h with
  | refl => exact absurd rfl hne
  | @step i d b off k hi hderives _ hbase ih =>
      obtain ⟨hdests, huses⟩ := dests_of_derivation hderives
      have hb := hbase.frameAddress hr
      have hlast : f.Behind b d :=
        hf.behind (.step hi hderives hb) hi (by rw [hdests]; simp) huses hb
      by_cases hbr : b = r
      · exact hbr ▸ hlast
      · exact (ih hbr).trans hlast (hf.once b hb).2

/-- Where what was derived from an address is available, the address is. -/
theorem available_root (hr : FrameAddress f r) (h : Derived f r v k)
    (hb : f.Reachable b) (hv : f.AvailableAt b j v) : f.AvailableAt b j r := by
  by_cases hne : v = r
  · exact hne ▸ hv
  · exact (hf.behind_of_derived hr h hne).available
      (hf.once v (h.frameAddress hr)).2 hb hv

/-- When an address is defined anew, what was derived from it is no longer
available. -/
theorem not_available_derived (hr : FrameAddress f r)
    (h : Derived f r v k) (hne : v ≠ r) (hb : f.Reachable b)
    (hdef : f.DefinedAt b j r) : ¬ f.AvailableAt b (j + 1) v :=
  (hf.behind_of_derived hr h hne).not_available
    (hf.once r hr).2 (hf.once r hr).1
    (hf.once v (h.frameAddress hr)).2 hb hdef

end Fixed

-- ========================================================= static addresses

/-- Addresses with their offsets, each for its reason: the offset of its home,
or that of another address and the step from there. -/
structure Explained (f : Func) (l : Layout)
    (static : Std.ExtTreeMap ValueId Int32) : Prop where
  known : ∀ v a, static[v]? = some a → FrameAddress f v
  reason : ∀ v a, static[v]? = some a → (∃ h, Home f v h ∧ l.offset h = .ok a)
    ∨ ∃ i b off a', f.HasInstr i ∧ derivation i = some (v, b, off)
      ∧ static[b]? = some a'
      ∧ a = a' + off

/-- The offset of an address is that of its last entry. -/
theorem getElem?_insert_static (static : Std.ExtTreeMap ValueId Int32)
    (d v : ValueId) (a : Int32) :
    (static.insert d a)[v]? = if d = v then some a else static[v]? := by
  rw [Std.ExtTreeMap.getElem?_insert]
  simp only [Std.compare_eq_iff_eq]

section

variable {static static' : Std.ExtTreeMap ValueId Int32} {is : List Instr}

/-- At the start, an instruction adds the address that it makes of a place in
the frame. -/
theorem seed_eq_ok (hs : seed l static i = .ok static') :
    homeOf? i = none ∧ static' = static
      ∨ ∃ d h a, homeOf? i = some (d, h) ∧ l.offset h = .ok a
      ∧ static' = static.insert d a := by
  have hput (d h : ValueId) (hhome : homeOf? i = some (d, h)) :
      ∃ d h a, homeOf? i = some (d, h) ∧ l.offset h = .ok a
        ∧ static' = static.insert d a := by
    cases ha : l.offset h with
    | error e => cases i <;> cases hhome
      <;> simp only [seed, ha] at hs <;> cases hs
    | ok a =>
        refine ⟨d, h, a, hhome, ha, ?_⟩
        cases i <;> cases hhome <;> simp only [seed, ha] at hs
          <;> cases hs <;> rfl
  cases i with
  | frameAlloc d t => exact Or.inr (hput d d rfl)
  | addressOf d v => exact Or.inr (hput d v rfl)
  | _ =>
      cases hs
      exact Or.inl ⟨rfl, rfl⟩

/-- One more address that is derived from one that is there has its reason. -/
theorem Explained.insert (he : Explained f l static) (hi : f.HasInstr i)
    (hderives : derivation i = some (d, u, off)) {a : Int32}
    (ha : static[u]? = some a) (hnew : d ∉ static) :
    Explained f l (static.insert d (a + off)) := by
  have hne {v : ValueId} {a : Int32} (hv : static[v]? = some a) : d ≠ v := by
    rintro rfl
    exact hnew (Std.ExtTreeMap.mem_iff_isSome_getElem?.mpr (by rw [hv]; rfl))
  constructor
  · intro v a' hv
    rw [getElem?_insert_static] at hv
    split at hv
    · rename_i hdv
      subst hdv
      exact .step hi hderives (he.known u a ha)
    · exact he.known v a' hv
  · intro v a' hv
    rw [getElem?_insert_static] at hv
    split at hv
    · rename_i hdv
      subst hdv
      cases hv
      exact Or.inr ⟨i, u, off, a, hi,
        hderives, by rw [getElem?_insert_static, if_neg (hne ha), ha], rfl⟩
    · refine (he.reason v a' hv).imp_right ?_
      rintro ⟨i', b, off', a'', hi', hderives', hb, rfl⟩
      exact ⟨i', b, off', a'', hi',
        hderives', by rw [getElem?_insert_static, if_neg (hne hb), hb], rfl⟩

/-- A sweep keeps the reasons, and the addresses that there are. -/
theorem derive_keeps {defs : List ValueId} {changed : Bool}
    (hall : ∀ i ∈ is, f.HasInstr i) (he : Explained f l static) :
    Explained f l (is.foldl (derive defs) (static, changed)).1
      ∧ ∀ v ∈ static, v ∈ (is.foldl (derive defs) (static, changed)).1 := by
  induction is generalizing static changed with
  | nil => exact ⟨he, fun _ hv => hv⟩
  | cons i is ih =>
      rw [List.foldl_cons]
      have hrest := fun i hi => hall i (List.mem_cons_of_mem _ hi)
      have hstep : derive defs (static, changed) i = (static, changed)
          ∨ ∃ d u off a, derivation i = some (d, u, off)
            ∧ static[u]? = some a ∧ d ∉ static
            ∧ derive defs (static, changed) i
            = (static.insert d (a + off), true) := by
        rw [derive]
        cases hderives : derivation i with
        | none => exact Or.inl rfl
        | some x =>
            obtain ⟨d, u, off⟩ := x
            cases ha : static[u]? with
            | none => exact Or.inl (by simp [ha])
            | some a =>
                by_cases hnew : (defs.count d = 1 && !static.contains d) = true
                · refine Or.inr ⟨d, u, off, a, rfl, ha,
                    ?_, by simp only [ha]; rw [if_pos hnew]⟩
                  simp only [Bool.and_eq_true, Bool.not_eq_true',
                    ← Bool.not_eq_true, Std.ExtTreeMap.contains_iff_mem] at hnew
                  exact hnew.2
                · exact Or.inl (by simp only [ha]; rw [if_neg hnew])
      obtain hsame | ⟨d, u, off, a, hderives, ha, hnew, hadd⟩ := hstep
      · rw [hsame]
        exact ih hrest he
      · rw [hadd]
        obtain ⟨he', hkept⟩ := ih hrest
          (he.insert (hall i List.mem_cons_self) hderives ha hnew)
        exact ⟨he', fun v hv =>
          hkept v (Std.ExtTreeMap.mem_insert.mpr (Or.inr hv))⟩

/-- Sweeping over the instructions explains every offset that it adds, and drops
none. The induction is on the fuel, which stops with the first sweep that adds
nothing. -/
theorem deriveAll_keeps {defs : List ValueId} {fuel : Nat}
    (hall : ∀ i ∈ is, f.HasInstr i) (he : Explained f l static) :
    Explained f l (deriveAll defs is fuel static)
      ∧ ∀ v ∈ static, v ∈ deriveAll defs is fuel static := by
  induction fuel generalizing static with
  | zero => exact ⟨he, fun _ hv => hv⟩
  | succ fuel ih =>
      obtain ⟨he₁, hkept₁⟩ := derive_keeps hall he
      rw [deriveAll]
      dsimp only
      split
      · obtain ⟨he₂, hkept₂⟩ := ih he₁
        exact ⟨he₂, fun v hv => hkept₂ v (hkept₁ v hv)⟩
      · exact ⟨he₁, hkept₁⟩

/-- The addresses found are explained, and those of all homes are among them. -/
theorem staticAddresses_explained (hall : ∀ i, i ∈ is ↔ f.HasInstr i)
    (h : staticAddresses l is = .ok static) :
    Explained f l static ∧ ∀ d h, Home f d h → d ∈ static := by
  obtain ⟨start, hstart, h⟩ := bind_eq_ok.mp h
  cases h
  have hhomes : ∀ v a, start[v]? = some a →
      ∃ h, Home f v h ∧ l.offset h = .ok a := by
    refine foldlM_keeps_of_mem
      (P := fun static : Std.ExtTreeMap ValueId Int32 => ∀ v a,
      static[v]? = some a → ∃ h, Home f v h ∧ l.offset h = .ok a)
      (fun i hi s s' hs hseed v a hv => ?_) (fun v a hv => ?_) hstart
    · obtain ⟨-, rfl⟩ | ⟨d, h, a', hhome, ha', rfl⟩ := seed_eq_ok hseed
      · exact hs v a hv
      · rw [getElem?_insert_static] at hv
        split at hv
        · rename_i hdv
          cases hv
          exact ⟨h, ⟨i, (hall i).mp hi, hdv ▸ hhome⟩, ha'⟩
        · exact hs v a hv
    · rw [Std.ExtTreeMap.getElem?_empty] at hv
      cases hv
  have hthere : ∀ i ∈ is, ∀ d h, homeOf? i = some (d, h) → d ∈ start := by
    refine foldlM_reaches (P := fun i (static : Std.ExtTreeMap ValueId Int32) =>
      ∀ d h, homeOf? i = some (d, h) → d ∈ static) ?_ ?_ hstart
    · intro i i' s s' hs hseed d h hhome
      obtain ⟨-, rfl⟩ | ⟨d', h', a', -, -, rfl⟩ := seed_eq_ok hseed
      · exact hs d h hhome
      · exact Std.ExtTreeMap.mem_insert.mpr (Or.inr (hs d h hhome))
    · intro i s s' hseed d h hhome
      obtain ⟨hnone, -⟩ | ⟨d', h', a', hhome', -, rfl⟩ := seed_eq_ok hseed
      · rw [hnone] at hhome
        cases hhome
      · rw [hhome, Option.some.injEq, Prod.mk.injEq] at hhome'
        rw [← hhome'.1]
        exact Std.ExtTreeMap.mem_insert_self
  have hstartsOk : Explained f l start := by
    refine ⟨fun v a hv => ?_, fun v a hv => Or.inl (hhomes v a hv)⟩
    obtain ⟨h, hh, -⟩ := hhomes v a hv
    exact .home hh
  obtain ⟨he, hkept⟩ := deriveAll_keeps (fun i hi => (hall i).mp hi) hstartsOk
  refine ⟨he, ?_⟩
  rintro d h ⟨i, hi, hhome⟩
  exact hkept d (hthere i ((hall i).mpr hi) d h hhome)

/-- The offset of an address of a place in the frame is that of the place. -/
theorem Explained.home (he : Explained f l static) (hf : Fixed f)
    {a : Int32} (hh : Home f r h) (ha : static[r]? = some a) :
    l.offset h = .ok a := by
  obtain ⟨h', hh', hoff⟩ | ⟨i, b, off, a', hi, hderives, -⟩ := he.reason r a ha
  · rwa [hf.home_unique hh hh']
  · obtain ⟨i', hi', hhome⟩ := id hh
    obtain rfl := hf.instr_unique (.home hh) hi hi'
      (by rw [(dests_of_derivation hderives).1]; simp)
      (by rw [dests_of_homeOf? hhome]; simp)
    cases i <;> cases hhome <;> cases hderives

/-- The offset of an address is that of the one it is derived from and the
distance. -/
theorem Derived.staticAddress (hd : Derived f r v k)
    (he : Explained f l static) (hf : Fixed f)
    (hknown : ∀ v, FrameAddress f v → v ∈ static) {a : Int32}
    (hr : FrameAddress f r) (ha : static[r]? = some a) :
    static[v]? = some (a + k.toInt32) := by
  induction hd with
  | refl => rw [ha, show (0 : Int64).toInt32 = 0 from rfl, Int32.add_zero]
  | @step i d b off k hi hderives _ hbase ih =>
      have hd : FrameAddress f d := .step hi hderives (hbase.frameAddress hr)
      obtain ⟨a', ha'⟩ := Option.isSome_iff_exists.mp
        (Std.ExtTreeMap.mem_iff_isSome_getElem?.mp (hknown d hd))
      rw [ha', Int64.toInt32_add, Int32.toInt32_toInt64, ← Int32.add_assoc]
      obtain ⟨h', ⟨i', hi', hhome⟩, -⟩
          | ⟨i', b', off', a'', hi', hderives', hb', rfl⟩ :=
        he.reason d a' ha'
      · obtain rfl :=
          hf.instr_unique hd hi hi'
            (by rw [(dests_of_derivation hderives).1]; simp)
          (by rw [dests_of_homeOf? hhome]; simp)
        cases i <;> cases hhome <;> cases hderives
      · obtain rfl :=
          hf.instr_unique hd hi hi'
            (by rw [(dests_of_derivation hderives).1]; simp)
          (by rw [(dests_of_derivation hderives').1]; simp)
        rw [hderives, Option.some.injEq, Prod.mk.injEq,
          Prod.mk.injEq] at hderives'
        obtain ⟨-, rfl, rfl⟩ := hderives'
        rw [ih, Option.some.injEq] at hb'
        rw [hb']

end

end MirBackend.Asm
