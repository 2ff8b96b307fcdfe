/-
Label names: where fresh ones come from, and what becomes of them.

The names taken are one set for all functions of a module. A search for a free
name tries names that are pairwise different, so it ends after as many tries
as there are names taken, and it picks the first free one (`FirstFree`).

Labels live in two steps. `Claims` is the first: names that were free are
taken, and nothing is emitted. `Emits` is what emission comes to: the labels
that are defined are the `own` ones, claimed before, and fresh ones, claimed on
the way, each once; and every instruction names a label of the surroundings or
one defined here. What was claimed and then defined as its own counts as fresh
from outside (`Emits.adopt`), so labels of jumps inside one operation vanish
from the statement as soon as the operation is done, and block labels as soon
as the function is.
-/
import Mathlib
import MirBackend.Asm.Generator
import MirBackend.Proofs.Asm.Emission

namespace MirBackend.Asm

open Interp (bind_ok_iff)

variable {refs refs' : String → Prop} {own own' ns ns' : List String}
  {b b' b₁ b₂ : Builder}

/-- A set of label names. -/
abbrev Names := Std.ExtTreeSet String

-- ============================================================== free names

/-- Different numbers are written differently. -/
theorem toString_nat_injective :
    Function.Injective (toString : Nat → String) := by
  intro m n h
  have hdigits : Nat.toDigits 10 m = Nat.toDigits 10 n := by
    have := congrArg String.toList h
    rwa [Nat.toString_eq_repr, Nat.toString_eq_repr, Nat.toList_repr,
      Nat.toList_repr] at this
  rw [← Nat.ofDigitChars_ten_toDigits (n := m), hdigits,
    Nat.ofDigitChars_ten_toDigits]

/-- Of the candidates with ascending numbers, the `k`-th is the first that is
free. -/
structure FirstFree (names : Names) (candidate : Nat → String)
    (k : Nat) : Prop where
  free : candidate k ∉ names
  taken : ∀ j < k, candidate j ∈ names

/-- Among different candidates, one more than there are names taken, there is a
free one. -/
theorem exists_firstFree (names : Names) {candidate : Nat → String}
    (hdiff : Function.Injective candidate) :
    ∃ k ≤ names.size, FirstFree names candidate k := by
  have hfree : ∃ k, k ≤ names.size ∧ candidate k ∉ names := by
    by_contra hnone
    push Not at hnone
    have hnd : ((List.range (names.size + 1)).map candidate).Nodup :=
      List.nodup_range.map hdiff
    have hsub : (List.range (names.size + 1)).map candidate ⊆ names.toList := by
      intro n hn
      obtain ⟨k, hk, rfl⟩ := List.mem_map.mp hn
      have hk' := List.mem_range.mp hk
      exact Std.ExtTreeSet.mem_toList.mpr (hnone k (by omega))
    have hle := (hnd.subperm hsub).length_le
    rw [Std.ExtTreeSet.length_toList, List.length_map, List.length_range] at hle
    omega
  classical
  refine ⟨Nat.find hfree, (Nat.find_spec hfree).1,
    (Nat.find_spec hfree).2, fun j hj => ?_⟩
  by_contra hjfree
  have hle := (Nat.find_spec hfree).1
  exact Nat.find_min hfree hj ⟨by omega, hjfree⟩

namespace Builder

/-- A builder that has taken one more name. -/
def taking (b : Builder) (names : Names) (name : String) : Builder :=
  { b with taken := some (names.insert name) }

/-- A free name is taken. -/
theorem claim_free {names : Names} {name : String} (hb : b.taken = some names)
    (hfree : name ∉ names) : claim name b = .ok true (b.taking names name) := by
  rw [claim, hb]
  dsimp only
  rw [if_neg (by rwa [Std.ExtTreeSet.contains_iff_mem])]
  rfl

/-- A name that is taken stays so, and the builder is as it was. -/
theorem claim_taken {names : Names} {name : String} (hb : b.taken = some names)
    (htaken : name ∈ names) : claim name b = .ok false b := by
  rw [claim, hb]
  dsimp only
  rw [if_pos (by rwa [Std.ExtTreeSet.contains_iff_mem])]

/-- The fresh names of a function: a stem and a number that goes up from the
next one. -/
def candidate (b : Builder) (stem : String) (k : Nat) : String :=
  b.func ++ "." ++ stem ++ toString (b.counter + k)

/-- So the candidates of a stem are pairwise different. -/
theorem candidate_injective (b : Builder) (stem : String) :
    Function.Injective (b.candidate stem) := by
  intro j k h
  have := toString_nat_injective ((String.append_right_inj _).mp h)
  omega

/-- The search takes the first free name, and the counter goes past it. -/
theorem freshLabel_eq {names : Names} {stem : String} {k fuel : Nat}
    (hb : b.taken = some names) (hk : FirstFree names (b.candidate stem) k)
    (henough : k < fuel) : freshLabel stem fuel b
      = .ok (b.candidate stem k)
          { b with taken := some (names.insert (b.candidate stem k)),
                   counter := b.counter + k + 1 } := by
  induction fuel generalizing b k with
  | zero => omega
  | succ fuel ih =>
      obtain ⟨b₁, hb₁⟩ : ∃ b₁, b₁ = { b with counter := b.counter + 1 } :=
        ⟨_, rfl⟩
      have hshift (j : Nat) : b₁.candidate stem j
          = b.candidate stem (j + 1) := by
        rw [hb₁, candidate, candidate]
        congr 2
        show b.counter + 1 + j = b.counter + (j + 1)
        omega
      have hunfold : freshLabel stem (fuel + 1) b
          = (claim (b.candidate stem 0) >>= fun c =>
              if c then pure (b.candidate stem 0) else freshLabel stem fuel)
                b₁ := by
        rw [hb₁]
        rfl
      rw [hunfold]
      cases k with
      | zero =>
          have hclaim : claim (b.candidate stem 0) b₁
              = .ok true (b₁.taking names _) :=
            claim_free (hb₁ ▸ hb) hk.free
          rw [bind_of_ok hclaim, hb₁]
          rfl
      | succ k =>
          have hclaim : claim (b.candidate stem 0) b₁ = .ok false b₁ :=
            claim_taken (hb₁ ▸ hb) (hk.taken 0 (Nat.succ_pos k))
          have hrest := ih (b := b₁) (k := k) (hb₁ ▸ hb)
            ⟨by rw [hshift]; exact hk.free, fun j hj => by
              rw [hshift]; exact hk.taken (j + 1) (by omega)⟩ (by omega)
          rw [bind_of_ok hclaim]
          refine hrest.trans ?_
          rw [hshift, hb₁]
          have hcount : b.counter + 1 + k + 1
              = b.counter + (k + 1) + 1 := by omega
          dsimp only
          rw [hcount]

/-- A fresh label is always found, and it is the first that is free. -/
theorem newLabel_eq {names : Names} (stem : String)
    (hb : b.taken = some names) :
    ∃ k, FirstFree names (b.candidate stem) k ∧ newLabel stem b
      = .ok (b.candidate stem k)
          { b with taken := some (names.insert (b.candidate stem k)),
                   counter := b.counter + k + 1 } := by
  obtain ⟨k, hle, hk⟩ := exists_firstFree names (b.candidate_injective stem)
  refine ⟨k, hk, ?_⟩
  have hunfold : newLabel stem b = freshLabel stem (names.size + 1) b := by
    cases b
    dsimp only at hb
    subst hb
    rfl
  rw [hunfold]
  exact freshLabel_eq hb hk (by omega)

end Builder

namespace Generator

/-- The names for a block whose plain one is not free: with its number, and then
with a further number. -/
def numbered (base : String) : Nat → String
  | 0 => base
  | k + 1 => base ++ "_" ++ toString (k + 1)

/-- The labels of a name with a number behind it are pairwise different. -/
theorem numbered_injective (base : String) :
    Function.Injective (numbered base) := by
  have hlong (k : Nat) : base ≠ base ++ "_" ++ toString (k + 1) := by
    intro h
    have hlen := congrArg (fun s => s.toList.length) h
    simp only [String.toList_append, List.length_append] at hlen
    have : ("_" : String).toList.length = 1 := rfl
    omega
  intro j k h
  match j, k with
  | 0, 0 => rfl
  | 0, k + 1 => exact absurd h (hlong k)
  | j + 1, 0 => exact absurd h.symm (hlong j)
  | j + 1, k + 1 =>
    exact toString_nat_injective ((String.append_right_inj _).mp h)

/-- The search takes the first free name from a number on. -/
theorem numberedLabel_eq {names : Names} {base : String} {j k fuel : Nat}
    (hb : b.taken = some names)
    (hk : FirstFree names (numbered base) k) (hjk : j ≤ k)
    (henough : k < j + fuel) :
    numberedLabel base fuel j b = .ok (numbered base k)
      (b.taking names (numbered base k)) := by
  induction fuel generalizing j with
  | zero => omega
  | succ fuel ih =>
      have hname : (if j = 0 then base else base ++ "_" ++ toString j)
          = numbered base j := by
        cases j <;> rfl
      have hunfold : numberedLabel base (fuel + 1) j b
          = (Builder.claim (numbered base j) >>= fun c =>
              if c then pure (numbered base j) else numberedLabel base
                fuel (j + 1)) b := by
        rw [← hname]
        rfl
      rw [hunfold]
      by_cases heq : j = k
      · subst heq
        rw [bind_of_ok (Builder.claim_free hb hk.free)]
        rfl
      · rw [bind_of_ok (Builder.claim_taken hb (hk.taken j (by omega)))]
        exact ih (by omega) (by omega)

/-- The label of a block is always found: the plain one if the block has a name
and it is free, else the first free one of those with numbers. -/
theorem blockLabel_eq {names : Names} (f : Func) (blk : Block) (i : Nat)
    (hb : b.taken = some names) :
    ∃ name, blockLabel f blk i b = .ok name (b.taking names name) ∧ name ∉ names
      ∧ (name = f.name ++ "_" ++ blk.name ∧ blk.name.isEmpty = false
        ∨ ((blk.name.isEmpty = true ∨ f.name ++ "_" ++ blk.name ∈ names)
          ∧ ∃ k, FirstFree names
            (numbered (f.name ++ "_" ++ blk.name ++ "_" ++ toString i)) k
            ∧ name = numbered
            (f.name ++ "_" ++ blk.name ++ "_" ++ toString i) k)) := by
  obtain ⟨k, hle, hk⟩ := exists_firstFree names
    (numbered_injective (f.name ++ "_" ++ blk.name ++ "_" ++ toString i))
  have hnumbered := numberedLabel_eq (j := 0) hb hk (Nat.zero_le k)
    (by omega : k < 0 + (names.size + 1))
  have hunfold : blockLabel f blk i b = (if blk.name.isEmpty = true then
        numberedLabel (f.name ++ "_" ++ blk.name ++ "_" ++ toString i)
          (names.size + 1) 0 b
      else (Builder.claim (f.name ++ "_" ++ blk.name) >>= fun c =>
        if c then pure (f.name ++ "_" ++ blk.name) else
          numberedLabel (f.name ++ "_" ++ blk.name ++ "_" ++ toString i)
            (names.size + 1) 0) b) := by
    cases b
    dsimp only at hb
    subst hb
    cases hempty : blk.name.isEmpty <;> simp only [blockLabel, hempty] <;> rfl
  rw [hunfold]
  cases hempty : blk.name.isEmpty with
  | true =>
      rw [if_pos rfl]
      exact ⟨_, hnumbered, hk.free, Or.inr ⟨Or.inl rfl, k, hk, rfl⟩⟩
  | false =>
      rw [if_neg Bool.false_ne_true]
      by_cases htaken : f.name ++ "_" ++ blk.name ∈ names
      · rw [bind_of_ok (Builder.claim_taken hb htaken)]
        exact ⟨_, hnumbered, hk.free, Or.inr ⟨Or.inr htaken, k, hk, rfl⟩⟩
      · rw [bind_of_ok (Builder.claim_free hb htaken)]
        exact ⟨_, rfl, htaken, Or.inl ⟨rfl, rfl⟩⟩

end Generator

-- ================================================================== claims

/-- Free names were taken, and nothing else happened. -/
def Claims (ns : List String) (b b' : Builder) : Prop :=
  ∀ names, b.taken = some names → ∃ names', b'.taken = some names'
    ∧ b'.code = b.code ∧ b'.labels = b.labels
    ∧ (∀ n ∈ names, n ∈ names') ∧ ns.Nodup ∧ ∀ n ∈ ns, n ∉ names ∧ n ∈ names'

namespace Claims

-- Claims follow each other, and the names add up.
theorem refl (b : Builder) : Claims [] b b := fun names hb =>
  ⟨names, hb, rfl, rfl, fun _ h => h, List.nodup_nil, by simp⟩

theorem trans (h : Claims ns b b₁) (h' : Claims ns' b₁ b₂) :
    Claims (ns ++ ns') b b₂ := by
  intro names hb
  obtain ⟨names₁, hb₁, hcode₁, hlabels₁, hkept₁, hnd₁, hnew₁⟩ := h names hb
  obtain ⟨names₂, hb₂, hcode₂, hlabels₂, hkept₂, hnd₂, hnew₂⟩ := h' names₁ hb₁
  refine ⟨names₂, hb₂, hcode₂.trans hcode₁, hlabels₂.trans hlabels₁,
    fun n hn => hkept₂ n (hkept₁ n hn), ?_, fun n hn => ?_⟩
  · refine List.nodup_append.mpr ⟨hnd₁, hnd₂, fun m hm n hn hmn => ?_⟩
    exact (hnew₂ n hn).1 (hmn ▸ (hnew₁ m hm).2)
  · rcases List.mem_append.mp hn with hn | hn
    · exact ⟨(hnew₁ n hn).1, hkept₂ n (hnew₁ n hn).2⟩
    · exact ⟨fun hmem => (hnew₂ n hn).1 (hkept₁ n hmem), (hnew₂ n hn).2⟩

/-- A name that was free is taken; the counter does not matter. -/
theorem single {names : Names} {name : String} {c : Nat}
    (hb : b.taken = some names) (hfree : name ∉ names) :
    Claims [name] b
      { b with taken := some (names.insert name), counter := c } := by
  intro names' hb'
  rw [hb, Option.some.injEq] at hb'
  subst hb'
  refine ⟨_, rfl, rfl, rfl, fun n hn => ?_,
    List.nodup_singleton name, fun n hn => ?_⟩
  · exact Std.ExtTreeSet.mem_insert.mpr (Or.inr hn)
  · rw [List.mem_singleton.mp hn]
    exact ⟨hfree, Std.ExtTreeSet.mem_insert_self⟩

/-- A new label claims its name and no other. -/
theorem newLabel {stem name : String} {names : Names}
    (hb : b.taken = some names) (h : Builder.newLabel stem b = .ok name b') :
    Claims [name] b b' := by
  obtain ⟨k, hk, heq⟩ := Builder.newLabel_eq stem hb
  rw [h] at heq
  cases heq
  exact single hb hk.free

/-- So does the label of a block. -/
theorem blockLabel {f : Func} {blk : Block} {i : Nat}
    {name : String} {names : Names} (hb : b.taken = some names)
    (h : Generator.blockLabel f blk i b = .ok name b') :
    Claims [name] b b' := by
  obtain ⟨name', heq, hfree, -⟩ := Generator.blockLabel_eq f blk i hb
  rw [h] at heq
  cases heq
  exact single hb hfree

/-- The labels of blocks are all different. -/
theorem blockLabels {f : Func} {bs : List (Block × Nat)}
    {labels : List String} {names : Names} (hb : b.taken = some names)
    (h : (bs.mapM fun (blk, i) => Generator.blockLabel f blk i :
    Emit (List String)) b
      = .ok labels b') :
    Claims labels b b' := by
  induction bs generalizing b labels names with
  | nil =>
      rw [List.mapM_nil] at h
      cases h
      exact Claims.refl _
  | cons blk bs ih =>
      rw [List.mapM_cons] at h
      obtain ⟨name, b₁, hname, h⟩ := bind_ok_iff.mp h
      obtain ⟨rest, b₂, hrest, h⟩ := bind_ok_iff.mp h
      cases h
      have hfirst := blockLabel hb hname
      obtain ⟨names₁, hb₁, -⟩ := hfirst names hb
      exact hfirst.trans (ih hb₁ hrest)

end Claims

-- ================================================================ emission

/-- What emission comes to, by the names that were taken before. -/
structure Adds (refs : String → Prop) (own : List String) (names names' : Names)
    (code : List Insn) (defs : List String) : Prop where
  kept : ∀ n ∈ names, n ∈ names'
  /-- The labels defined: own ones, and fresh ones, each once. -/
  fresh : ∃ fresh : List String, defs.Perm (own ++ fresh) ∧ fresh.Nodup
    ∧ ∀ n ∈ fresh, n ∉ names ∧ n ∈ names'
  /-- The labels named: of the surroundings or defined here. -/
  named : ∀ x ∈ code, ∀ n, x.imm = .label n → refs n ∨ n ∈ defs

/-- Code was appended that adds up so. -/
def Emits (refs : String → Prop) (own : List String) (b b' : Builder) : Prop :=
  ∀ names, b.taken = some names → ∃ names' code defs, b'.taken = some names'
    ∧ b'.code = b.code ++ code ∧ b'.labels = b.labels ++ defs
    ∧ Adds refs own names names' code (defs.map (·.name))

namespace Emits

-- Emissions follow each other, with the references of both and the labels of
-- both.
theorem refl (refs : String → Prop) (b : Builder) :
    Emits refs [] b b := fun names hb =>
  ⟨names, [], [], hb, (List.append_nil _).symm, (List.append_nil _).symm,
    fun _ h => h, ⟨[], List.Perm.nil, List.nodup_nil, by simp⟩, by simp⟩

theorem trans (h : Emits refs own b b₁) (h' : Emits refs own' b₁ b₂) :
    Emits refs (own ++ own') b b₂ := by
  intro names hb
  obtain ⟨names₁, code₁, defs₁, hb₁, hcode₁, hlabels₁, hadds₁⟩ := h names hb
  obtain ⟨names₂, code₂, defs₂, hb₂, hcode₂, hlabels₂, hadds₂⟩ := h' names₁ hb₁
  obtain ⟨fresh₁, hperm₁, hnd₁, hnew₁⟩ := hadds₁.fresh
  obtain ⟨fresh₂, hperm₂, hnd₂, hnew₂⟩ := hadds₂.fresh
  refine ⟨names₂, code₁ ++ code₂, defs₁ ++ defs₂, hb₂, ?_, ?_,
    fun n hn => hadds₂.kept n (hadds₁.kept n hn),
    ⟨fresh₁ ++ fresh₂, ?_, ?_, fun n hn => ?_⟩, fun x hx n hn => ?_⟩
  · rw [hcode₂, hcode₁, List.append_assoc]
  · rw [hlabels₂, hlabels₁, List.append_assoc]
  · rw [List.map_append]
    refine (hperm₁.append hperm₂).trans ?_
    rw [List.append_assoc, List.append_assoc]
    refine List.Perm.append_left own ?_
    rw [← List.append_assoc, ← List.append_assoc]
    exact List.Perm.append_right fresh₂ List.perm_append_comm
  · refine List.nodup_append.mpr ⟨hnd₁, hnd₂, fun m hm n hn hmn => ?_⟩
    exact (hnew₂ n hn).1 (hmn ▸ (hnew₁ m hm).2)
  · rcases List.mem_append.mp hn with hn | hn
    · exact ⟨(hnew₁ n hn).1, hadds₂.kept n (hnew₁ n hn).2⟩
    · exact ⟨fun hmem => (hnew₂ n hn).1 (hadds₁.kept n hmem), (hnew₂ n hn).2⟩
  · rw [List.map_append, List.mem_append]
    rcases List.mem_append.mp hx with hx | hx
    · exact (hadds₁.named x hx n hn).imp_right Or.inl
    · exact (hadds₂.named x hx n hn).imp_right Or.inr

/-- More names may be referred to than are. -/
theorem mono (hrefs : ∀ n, refs n → refs' n) (h : Emits refs own b b') :
    Emits refs' own b b' := by
  intro names hb
  obtain ⟨names', code, defs, hb', hcode, hlabels, hadds⟩ := h names hb
  exact ⟨names', code, defs, hb', hcode, hlabels, hadds.kept, hadds.fresh,
    fun x hx n hn => (hadds.named x hx n hn).imp_left (hrefs n)⟩

/-- Something happened that has to do with neither code nor labels. -/
theorem aside (refs : String → Prop) (hcode : b'.code = b.code)
    (hlabels : b'.labels = b.labels) (htaken : b'.taken = b.taken) :
    Emits refs [] b b' := by
  intro names hb
  obtain ⟨names', code, defs, hb', hcode', hlabels', hadds⟩ :=
    refl refs b names hb
  exact ⟨names', code, defs, htaken.trans hb', hcode.trans hcode',
    hlabels.trans hlabels', hadds⟩

/-- An instruction refers to the label in it, if there is one. -/
theorem insn {x : Insn} (hx : ∀ n, x.imm = .label n → refs n) :
    Emits refs [] b { b with code := b.code ++ [x] } := fun names hb =>
  ⟨names, [x], [], hb, rfl, (List.append_nil _).symm, fun _ h => h,
    ⟨[], List.Perm.nil, List.nodup_nil, by simp⟩, fun y hy n hn =>
      Or.inl (hx n (List.mem_singleton.mp hy ▸ hn))⟩

/-- A label is defined. -/
theorem definition (refs : String → Prop) (b : Builder) (l : LabelDef) :
    Emits refs [l.name] b { b with labels := b.labels ++ [l] } :=
      fun names hb =>
  ⟨names, [], [l], hb, (List.append_nil _).symm, rfl, fun _ h => h,
    ⟨[], List.Perm.refl _, List.nodup_nil, by simp⟩, by simp⟩

/-- A label that is placed is one's own. -/
theorem label {name : String} {u : Unit} (h : Builder.label name b = .ok u b') :
    Emits refs [name] b b' := by
  cases h
  exact definition refs b _

/-- In which order labels are placed does not matter here. -/
theorem perm (h : Emits refs own b b') (hperm : own.Perm own') :
    Emits refs own' b b' := by
  intro names hb
  obtain ⟨names', code, defs, hb', hcode, hlabels, hadds⟩ := h names hb
  obtain ⟨fresh, hdefs, hfresh⟩ := hadds.fresh
  exact ⟨names', code, defs, hb', hcode, hlabels, hadds.kept,
    ⟨fresh, hdefs.trans (hperm.append_right fresh), hfresh⟩, hadds.named⟩

/-- Labels claimed before and then defined are fresh from outside. -/
theorem adopt (hclaims : Claims ns b b₁)
    (h : Emits (fun n => refs n ∨ n ∈ ns) (own ++ ns) b₁ b₂) :
    Emits refs own b b₂ := by
  intro names hb
  obtain ⟨names₁, hb₁, hcode₁, hlabels₁, hkept₁, hnd₁, hnew₁⟩ :=
    hclaims names hb
  obtain ⟨names₂, code, defs, hb₂, hcode, hlabels, hadds⟩ := h names₁ hb₁
  obtain ⟨fresh, hperm, hnd, hnew⟩ := hadds.fresh
  rw [List.append_assoc] at hperm
  refine ⟨names₂, code, defs,
    hb₂, by rw [hcode, hcode₁], by rw [hlabels, hlabels₁],
    fun n hn => hadds.kept n (hkept₁ n hn),
    ⟨ns ++ fresh, hperm, ?_, fun n hn => ?_⟩,
    fun x hx n hn => ?_⟩
  · refine List.nodup_append.mpr ⟨hnd₁, hnd, fun m hm n hn hmn => ?_⟩
    exact (hnew n hn).1 (hmn ▸ (hnew₁ m hm).2)
  · rcases List.mem_append.mp hn with hn | hn
    · exact ⟨(hnew₁ n hn).1, hadds.kept n (hnew₁ n hn).2⟩
    · exact ⟨fun hmem => (hnew n hn).1 (hkept₁ n hmem), (hnew n hn).2⟩
  · rcases hadds.named x hx n hn with (hn | hn) | hn
    · exact Or.inl hn
    · exact Or.inr (hperm.mem_iff.mpr (by simp [hn]))
    · exact Or.inr hn

/-- Code without labels of its own. -/
theorem roomy (refs : String → Prop) : Roomy refs (Emits refs []) where
  refl := refl refs
  trans _ _ _ h h' := h.trans h'
  emit _ _ hx := insn hx.named
  reserve _ _ _ _ := aside refs rfl rfl rfl

-- ================================================== pieces with own labels

/-- Two labels, and code that names and defines them. -/
theorem twoLabels {s₁ s₂ : String} {k : String → String → Emit Unit} {u : Unit}
    (h : (do let l₁ ← Builder.newLabel s₁; let l₂ ← Builder.newLabel s₂; k l₁ l₂) b = .ok u b')
    (hk : ∀ l₁ l₂ b u b', k l₁ l₂ b = .ok u b' →
      Emits (fun n => refs n ∨ n ∈ [l₁, l₂]) [l₁, l₂] b b') :
        Emits refs [] b b' := by
  intro names hb
  obtain ⟨l₁, b₁, h₁, h⟩ := bind_ok_iff.mp h
  obtain ⟨l₂, b₂, h₂, h⟩ := bind_ok_iff.mp h
  have hclaims₁ := Claims.newLabel hb h₁
  obtain ⟨names₁, hb₁, -⟩ := hclaims₁ names hb
  exact adopt (hclaims₁.trans (Claims.newLabel hb₁ h₂))
    (hk l₁ l₂ _ _ _ h) names hb

/-- Normalizing places the two labels it takes, and owns none of the ones before
it. -/
theorem normalize (refs : String → Prop) (x dst : Int32) (invert : Bool) :
    Emitting (Emits refs []) (Builder.normalize x dst invert) := by
  intro b u b' h
  refine twoLabels h fun nonzero done b u b' h => ?_
  obtain ⟨refs', hrefs'⟩ : ∃ refs' : String → Prop, refs' = fun n =>
    refs n ∨ n ∈ [nonzero, done] := ⟨_, rfl⟩
  have hR := roomy refs'
  rw [← hrefs']
  have hnz : refs' nonzero := by rw [hrefs']; exact Or.inr (by simp)
  have hdone : refs' done := by rw [hrefs']; exact Or.inr (by simp)
  obtain ⟨_, b₁, h₁, h⟩ := bind_ok_iff.mp h
  obtain ⟨_, b₂, h₂, h⟩ := bind_ok_iff.mp h
  obtain ⟨_, b₃, h₃, h⟩ := bind_ok_iff.mp h
  obtain ⟨_, b₄, h₄, h⟩ := bind_ok_iff.mp h
  obtain ⟨_, b₅, h₅, h⟩ := bind_ok_iff.mp h
  have hbefore : Emits refs' [] b b₃ :=
    ((hR.named _ _ _ _ hnz _ _ _ h₁).trans (hR.storeLit _ _ _ _ _ h₂)).trans
      (hR.named _ _ _ _ hdone _ _ _ h₃)
  exact ((hbefore.trans (label h₄)).trans (hR.storeLit _ _ _ _ _ h₅)).trans
    (label h)

/-- So does the test of several slots. -/
theorem anyNonzero (refs : String → Prop) (xs : List Int32) (dst : Int32) :
    Emitting (Emits refs []) (Builder.anyNonzero xs dst) := by
  intro b u b' h
  obtain ⟨ys, b₀, h₀, h⟩ := bind_ok_iff.mp h
  have hmoved : Emits refs [] b b₀ := by
    refine (roomy refs).mapM xs (fun x => ?_) _ _ _ h₀
    split
    · exact (roomy refs).toTemp x
    · exact (roomy refs).pure x
  refine hmoved.trans (twoLabels h fun yes done b u b' h => ?_)
  obtain ⟨refs', hrefs'⟩ : ∃ refs' : String → Prop, refs' = fun n =>
    refs n ∨ n ∈ [yes, done] := ⟨_, rfl⟩
  have hR := roomy refs'
  rw [← hrefs']
  have hyes : refs' yes := by rw [hrefs']; exact Or.inr (by simp)
  have hdone : refs' done := by rw [hrefs']; exact Or.inr (by simp)
  obtain ⟨_, b₁, h₁, h⟩ := bind_ok_iff.mp h
  obtain ⟨_, b₂, h₂, h⟩ := bind_ok_iff.mp h
  obtain ⟨_, b₃, h₃, h⟩ := bind_ok_iff.mp h
  obtain ⟨_, b₄, h₄, h⟩ := bind_ok_iff.mp h
  obtain ⟨_, b₅, h₅, h⟩ := bind_ok_iff.mp h
  have hjumps : Emitting (Emits refs' []) (ys.forM (Builder.jumpIf · yes)) :=
    hR.forM ys fun y => hR.named _ _ _ _ hyes
  have hbefore : Emits refs' [] b b₃ :=
    ((hR.storeLit _ _ _ _ _ h₁).trans (hjumps _ _ _ h₂)).trans
      (hR.named _ _ _ _ hdone _ _ _ h₃)
  exact ((hbefore.trans (label h₄)).trans (hR.storeLit _ _ _ _ _ h₅)).trans
    (label h)

/-- The words of an array, and a label in the data that the code names. -/
theorem makeArray (refs : String → Prop) (d : ValueId)
    (es : List Operand) (t : Ty) :
    Emitting (Emits refs []) (Scope.makeArray d es t) := by
  have hR := roomy refs
  have hwords (es : List (Operand × Nat)) :
      Emitting (Emits refs []) (Scope.arrayWords es) := by
    induction es with
    | nil => exact hR.pure []
    | cons e es ih =>
        obtain ⟨e, i⟩ := e
        unfold Scope.arrayWords
        split
        · exact Plain.fail _
        · exact hR.bind ih fun _ => hR.pure _
  have hoffset : Emitting (Emits refs []) (Scope.offset d) := by
    unfold Scope.offset
    refine Plain.get_bind fun s => Plain.need_bind fun l _ => ?_
    cases l.offset d with
    | ok off => exact hR.pure off
    | error e => exact Plain.fail _
  have hstored (words : List Int32) (dst : Int32) : Emitting (Emits refs []) (do
      let name ← Builder.newLabel "data"
      Builder.dataLabel name
      Builder.pushData words
      Builder.storeImm (.label name) dst "array") := by
    intro b u b' h names hb
    obtain ⟨name, b₁, h₁, h⟩ := bind_ok_iff.mp h
    obtain ⟨_, b₂, h₂, h⟩ := bind_ok_iff.mp h
    obtain ⟨_, b₃, h₃, h⟩ := bind_ok_iff.mp h
    cases h₂
    cases h₃
    have hrest := (roomy fun n => refs n ∨ n ∈ [name]).storesArray dst
      (Or.inr List.mem_cons_self) _ _ _ h
    have hall : Emits refs [] b b' := adopt (Claims.newLabel hb h₁)
      (((definition _ b₁ ⟨name, true, b₁.data.length⟩).trans
      (aside _ rfl rfl rfl)).trans hrest)
    exact hall names hb
  have hrest : Emitting (Emits refs []) (do
      let words ← Scope.arrayWords es.zipIdx
      let dst ← Scope.offset d
      let name ← Builder.newLabel "data"
      Builder.dataLabel name
      Builder.pushData words
      Builder.storeImm (.label name) dst "array") :=
    hR.bind (hwords _) fun words => hR.bind hoffset fun dst => hstored words dst
  unfold Scope.makeArray
  dsimp only
  split
  · exact Plain.need_bind fun n _ => Plain.guard hrest
  · exact hrest

/-- All that selection does. -/
theorem closed {m : Module} (hcalls : ∀ g ∈ m.functions, refs g.name) :
    Closed m refs (Emits refs []) :=
  (roomy refs).closed hcalls (normalize refs) (anyNonzero refs) (makeArray refs)

end Emits

end MirBackend.Asm
