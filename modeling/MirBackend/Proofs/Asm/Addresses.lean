/-
The addresses that linking gives.

The items of a program are the code of the listed builders, one behind the
other, and their data behind all code; a label has the number of the item in
front of which it was defined, and an instruction that named it has that number,
or the distance to it (`Linked`). Linking fails exactly if a label is defined
twice or one that is named is not defined.

Builders keep what was resolved. One that is listed again has no labels left in
its code, so its code comes as it is: with the distances from where it stood
first. What a pool holds after linking is therefore read off the first listings
(`resolveAll_places`), and what is listed again says nothing new.
-/
import Mathlib
import MirBackend.Proofs.Asm.Placement

namespace MirBackend.Asm

variable {pool pool' : List Builder} {order before behind : List Nat}
  {i pc : Nat} {b : Builder} {p : Program}

-- ================================================================= listing

/-- The labels of a builder are at positions of its code and its data, or at
their ends. -/
def Builder.Placed (b : Builder) : Prop :=
  ∀ l ∈ b.labels, l.position ≤ if l.inData then b.data.length else b.code.length

-- Whether labels lie in their builder is looked at label by label.
instance (b : Builder) : Decidable b.Placed := by
  unfold Builder.Placed; infer_instance

/-- The builders of a pool that are listed. -/
def listed (pool : List Builder) (order : List Nat) : List Builder :=
  order.filterMap (pool[·]?)

/-- The instructions of the builders that are listed. -/
def codeSize (pool : List Builder) (order : List Nat) : Nat :=
  ((listed pool order).map (·.code.length)).sum

/-- The data words of the builders that are listed. -/
def dataSize (pool : List Builder) (order : List Nat) : Nat :=
  ((listed pool order).map (·.data.length)).sum

/-- A builder is listed by its place in the pool, behind others. -/
def Listed (pool : List Builder) (order before : List Nat) (i : Nat)
    (b : Builder) : Prop :=
  pool[i]? = some b ∧ ∃ behind, order = before ++ i :: behind

-- The builders that a list of indices picks, with indices past the end left
-- out.
theorem listed_append (pool : List Builder) (is js : List Nat) :
    listed pool (is ++ js) = listed pool is ++ listed pool js :=
      List.filterMap_append

theorem listed_cons_some (hb : pool[i]? = some b) (is : List Nat) :
    listed pool (i :: is) = b :: listed pool is := by
  rw [listed, List.filterMap_cons, hb]
  rfl

theorem listed_cons_none (hi : pool[i]? = none) (is : List Nat) :
    listed pool (i :: is) = listed pool is := by
  rw [listed, List.filterMap_cons, hi]
  rfl

theorem codeSize_cons_some (hb : pool[i]? = some b) (is : List Nat) :
    codeSize pool (i :: is) = b.code.length + codeSize pool is := by
  rw [codeSize, listed_cons_some hb, List.map_cons, List.sum_cons, codeSize]

/-- What is listed is what is before some entry, that entry and the rest. -/
theorem Listed.split (h : Listed pool order before i b) : ∃ behind,
    listed pool order = listed pool before ++ b :: behind := by
  obtain ⟨hb, behind, rfl⟩ := h
  exact ⟨listed pool behind, by rw [listed_append, listed_cons_some hb]⟩

/-- What is listed is listed somewhere. -/
theorem exists_listed {pre post : List Builder}
    (h : listed pool order = pre ++ b :: post) :
    ∃ before i, Listed pool order before i b ∧ listed pool before = pre := by
  induction order generalizing pre with
  | nil => simp [listed] at h
  | cons i is ih =>
      cases hi : pool[i]? with
      | none =>
          rw [listed_cons_none hi] at h
          obtain ⟨before, j, ⟨hj, behind, rfl⟩, hpre⟩ := ih h
          exact ⟨i :: before, j,
            ⟨hj, behind, rfl⟩, by rw [listed_cons_none hi, hpre]⟩
      | some c =>
          rw [listed_cons_some hi] at h
          cases pre with
          | nil =>
              obtain ⟨rfl, -⟩ := List.cons.inj h
              exact ⟨[], i, ⟨hi, is, rfl⟩, rfl⟩
          | cons d pre =>
              rw [List.cons_append, List.cons.injEq] at h
              obtain ⟨rfl, h⟩ := h
              obtain ⟨before, j, ⟨hj, behind, rfl⟩, hpre⟩ := ih h
              exact ⟨i :: before, j,
                ⟨hj, behind, rfl⟩, by rw [listed_cons_some hi, hpre]⟩

theorem Listed.mem (h : Listed pool order before i b) :
    b ∈ listed pool order := by
  obtain ⟨behind, hsplit⟩ := h.split
  rw [hsplit]
  exact List.mem_append_right _ List.mem_cons_self

/-- What the listed builders of two pools agree on. -/
theorem map_listed {α : Type} {g : Builder → α}
    (h : ∀ i : Nat, (pool'[i]?).map g = (pool[i]?).map g) (is : List Nat) :
    (listed pool' is).map g = (listed pool is).map g := by
  rw [listed, listed, List.map_filterMap, List.map_filterMap]
  exact List.filterMap_congr fun i _ => h i

/-- What is listed is listed for a first time. -/
theorem exists_first (hi : i ∈ order) (hb : pool[i]? = some b) :
    Listed pool order (order.takeWhile (· ≠ i)) i b
        ∧ i ∉ order.takeWhile (· ≠ i) := by
  obtain ⟨before, behind, rfl, hfirst⟩ := List.eq_append_cons_of_mem hi
  have htake : (before ++ i :: behind).takeWhile (· ≠ i) = before := by
    rw [List.takeWhile_append_of_pos,
      List.takeWhile_cons_of_neg, List.append_nil]
    · simp
    · intro j hj
      simpa using fun heq : j = i => hfirst (heq ▸ hj)
  rw [htake]
  exact ⟨⟨hb, behind, rfl⟩, hfirst⟩

/-- A listing and the first one of the same builder. -/
theorem Listed.first (h : Listed pool order before i b) :
    Listed pool order (before.takeWhile (· ≠ i)) i b := by
  by_cases hi : i ∈ before
  · obtain ⟨⟨hb, behind, hsplit⟩, -⟩ := exists_first hi h.1
    obtain ⟨-, rest, rfl⟩ := h
    refine ⟨hb, behind ++ i :: rest, ?_⟩
    conv_lhs => rw [hsplit]
    rw [List.append_assoc, List.cons_append]
  · have htake : before.takeWhile (· ≠ i) = before := by
      rw [List.takeWhile_eq_self_iff]
      intro j hj
      simpa using fun heq : j = i => hi (heq ▸ hj)
    rwa [htake]

-- ============================================================== resolution

namespace Link

variable {t : Table} {x y : Insn} {xs ys : List Insn}

/-- An instruction without a label is left as it is, one with a label gets its
address or the distance to it. -/
theorem resolve_eq_ok : resolve t pc x = .ok y ↔ x.imm.isLabel = false ∧ y = x
    ∨ ∃ n a, x.imm = .label n ∧ t.addresses[n]? = some a
      ∧ y = { x with
        imm := .literal
          (if x.opcode.isRelative then a - Int32.ofNat pc else a) n } := by
  rw [resolve]
  cases himm : x.imm with
  | literal v n =>
      constructor
      · rintro ⟨⟩
        exact Or.inl ⟨rfl, rfl⟩
      · rintro (⟨-, rfl⟩ | ⟨n', a, heq, -⟩)
        · rfl
        · cases heq
  | label n =>
      dsimp only
      cases ha : t.addresses[n]? with
      | none =>
          constructor
          · intro h
            cases h
          · rintro (⟨heq, -⟩ | ⟨n', a, heq, ha', -⟩)
            · cases heq
            · cases heq
              rw [ha] at ha'
              cases ha'
      | some a =>
          constructor
          · rintro ⟨⟩
            exact Or.inr ⟨n, a, rfl, ha, rfl⟩
          · rintro (⟨heq, -⟩ | ⟨n', a', heq, ha', rfl⟩)
            · cases heq
            · cases heq
              rw [ha] at ha'
              cases ha'
              rfl

/-- No label is left. -/
theorem isLabel_of_resolve (h : resolve t pc x = .ok y) :
    y.imm.isLabel = false := by
  obtain ⟨hx, rfl⟩ | ⟨n, a, -, -, rfl⟩ := resolve_eq_ok.mp h
  · exact hx
  · rfl

/-- Resolving keeps the instructions in number. -/
theorem length_resolveCode (h : resolveCode t pc xs = (ys, none)) :
    ys.length = xs.length := by
  induction xs generalizing pc ys with
  | nil =>
      cases h
      rfl
  | cons x xs ih =>
      rw [resolveCode] at h
      split at h
      · cases h
      cases hrest : resolveCode t (pc + 1) xs with
      | mk zs e =>
          rw [hrest] at h
          cases h
          rw [List.length_cons, List.length_cons, ih hrest]

/-- No label is left once all are resolved. -/
theorem isLabel_of_resolveCode (h : resolveCode t pc xs = (ys, none)) :
    ∀ y ∈ ys, y.imm.isLabel = false := by
  intro y hy
  obtain ⟨j, hj, rfl⟩ := List.mem_iff_getElem.mp hy
  have hlt : j < xs.length := length_resolveCode h ▸ hj
  obtain ⟨z, hz, hres⟩ := resolveCode_getElem? h (List.getElem?_eq_getElem hlt)
  rw [List.getElem?_eq_getElem hj, Option.some.injEq] at hz
  rw [hz]
  exact isLabel_of_resolve hres

/-- Code without labels stays as it is. -/
theorem resolveCode_of_isLabel (h : ∀ x ∈ xs, x.imm.isLabel = false) :
    resolveCode t pc xs = (xs, none) := by
  induction xs generalizing pc with
  | nil => rfl
  | cons x xs ih =>
      have hx : resolve t pc x = .ok x :=
        resolve_eq_ok.mpr (Or.inl ⟨h x List.mem_cons_self, rfl⟩)
      rw [resolveCode, hx]
      dsimp only
      rw [ih fun y hy => h y (List.mem_cons_of_mem _ hy)]

/-- Every label that some code names has an address. -/
def Known (t : Table) (xs : List Insn) : Prop :=
  ∀ x ∈ xs, ∀ n, x.imm = .label n → ∃ a, t.addresses[n]? = some a

/-- Code is resolved without an error if all its labels are known. -/
theorem resolveCode_ok_iff : (∃ ys, resolveCode t pc xs = (ys, none))
    ↔ Known t xs := by
  constructor
  · rintro ⟨ys, hys⟩ x hx n hn
    obtain ⟨j, hj⟩ := List.mem_iff_getElem?.mp hx
    obtain ⟨y, -, hres⟩ := resolveCode_getElem? hys hj
    obtain ⟨hlit, -⟩ | ⟨n', a, hn', ha, -⟩ := resolve_eq_ok.mp hres
    · rw [hn] at hlit
      cases hlit
    · rw [hn] at hn'
      cases hn'
      exact ⟨a, ha⟩
  · intro h
    exact (resolveCode_spec h).imp fun _ => And.left

/-- An index past the end is passed over. -/
theorem resolveAll_cons_none (hi : pool[i]? = none) (is : List Nat) :
    resolveAll t pc (i :: is) pool = resolveAll t pc is pool := by
  have hlen : pool.length ≤ i := List.getElem?_eq_none_iff.mp hi
  rw [resolveAll, List.getD_eq_getElem?_getD, hi, Option.getD_none]
  show resolveAll t pc is (pool.set i _) = _
  rw [List.set_eq_of_length_le hlen]

/-- The code of the first builder is resolved, and then that of the others. -/
theorem resolveAll_cons_eq_ok (hb : pool[i]? = some b) {is : List Nat} :
    resolveAll t pc (i :: is) pool = (pool', none)
        ↔ ∃ code, resolveCode t pc b.code = (code, none)
      ∧ resolveAll t (pc + code.length) is (pool.set i { b with code })
      = (pool', none) := by
  rw [resolveAll, List.getD_eq_getElem?_getD, hb, Option.getD_some]
  rcases resolveCode t pc b.code with ⟨code, e | c⟩
  · simp
  · simp

theorem getElem?_set_self (hb : pool[i]? = some b) (c : Builder) :
    (pool.set i c)[i]? = some c := by
  rw [List.getElem?_set, if_pos rfl, if_pos (List.getElem?_eq_some_iff.mp hb).1]

/-- Code has the same size when it is resolved. -/
theorem codeSize_set (hb : pool[i]? = some b) {code : List Insn}
    (hlen : code.length = b.code.length) (is : List Nat) :
    codeSize (pool.set i { b with code }) is = codeSize pool is := by
  rw [codeSize, codeSize, map_listed fun j => ?_]
  by_cases hj : i = j
  · subst hj
    rw [getElem?_set_self hb, hb, Option.map_some, Option.map_some, hlen]
  · rw [List.getElem?_set_ne hj]

/-- Builders are resolved where they are listed first. -/
theorem resolveAll_places (h : resolveAll t pc order pool = (pool', none)) :
    (∀ i, (i ∈ order → pool[i]? = none) → pool'[i]? = pool[i]?)
      ∧ ∀ before i b, Listed pool order before i b → i ∉ before → ∃ code,
        pool'[i]? = some { b with code }
          ∧ resolveCode t (pc + codeSize pool before) b.code
          = (code, none) := by
  induction order generalizing pool pc with
  | nil =>
      cases h
      exact ⟨fun _ _ => rfl, fun before i b ⟨_, behind, h⟩ => by simp at h⟩
  | cons i is ih =>
      cases hi : pool[i]? with
      | none =>
          rw [resolveAll_cons_none hi] at h
          obtain ⟨hother, hthese⟩ := ih h
          refine ⟨fun j hj => hother j fun hmem =>
            hj (List.mem_cons_of_mem _ hmem),
            fun before j b ⟨hb, behind, hsplit⟩ hfirst => ?_⟩
          cases before with
          | nil =>
              obtain ⟨rfl, -⟩ := List.cons.inj hsplit
              rw [hi] at hb
              cases hb
          | cons k before =>
              rw [List.cons_append, List.cons.injEq] at hsplit
              obtain ⟨rfl, rfl⟩ := hsplit
              have := hthese before j b ⟨hb, behind,
                rfl⟩ (List.not_mem_of_not_mem_cons hfirst)
              rwa [codeSize, listed_cons_none hi]
      | some c =>
          obtain ⟨code, hcode, hrest⟩ := (resolveAll_cons_eq_ok hi).mp h
          obtain ⟨hother, hthese⟩ := ih hrest
          have hlen := length_resolveCode hcode
          refine ⟨fun j hj => ?_,
            fun before j b ⟨hb, behind, hsplit⟩ hfirst => ?_⟩
          · have hne : i ≠ j := by
              rintro rfl
              rw [hi] at hj
              cases hj List.mem_cons_self
            rw [hother j fun hmem => ?_, List.getElem?_set_ne hne]
            rw [List.getElem?_set_ne hne]
            exact hj (List.mem_cons_of_mem _ hmem)
          cases before with
          | nil =>
              obtain ⟨rfl, rfl⟩ := List.cons.inj hsplit
              rw [hi] at hb
              cases hb
              refine ⟨code, ?_, hcode⟩
              -- listed again or not, the resolved code is what stays
              by_cases hagain : i ∈ is
              · obtain ⟨before, behind, hsplit, hfirst⟩ :=
                  List.eq_append_cons_of_mem hagain
                obtain ⟨code', hget, hcode'⟩ := hthese before i _
                  ⟨getElem?_set_self hi _, behind, hsplit⟩ hfirst
                rw [resolveCode_of_isLabel
                  (isLabel_of_resolveCode hcode)] at hcode'
                cases hcode'
                exact hget
              · rw [hother i fun hmem => absurd hmem hagain,
                  getElem?_set_self hi]
          | cons k before =>
              rw [List.cons_append, List.cons.injEq] at hsplit
              obtain ⟨rfl, rfl⟩ := hsplit
              rw [List.mem_cons, not_or] at hfirst
              have :=
                hthese before j b
                  ⟨by rwa [List.getElem?_set_ne (Ne.symm hfirst.1)],
                behind, rfl⟩ hfirst.2
              rw [codeSize_set hi hlen, hlen, Nat.add_assoc] at this
              rwa [codeSize_cons_some hi]

/-- All code is resolved exactly if every label that one of the listed builders
names has an address. -/
theorem resolveAll_ok_iff :
    (∃ pool', resolveAll t pc order pool = (pool', none))
    ↔ ∀ b ∈ listed pool order, Known t b.code := by
  induction order generalizing pool pc with
  | nil => exact ⟨fun _ b hb => absurd hb List.not_mem_nil,
    fun _ => ⟨pool, rfl⟩⟩
  | cons i is ih =>
      cases hi : pool[i]? with
      | none => rw [resolveAll_cons_none hi, listed_cons_none hi, ih]
      | some b =>
          rw [listed_cons_some hi, List.forall_mem_cons]
          simp only [resolveAll_cons_eq_ok hi]
          constructor
          · rintro ⟨pool', code, hcode, hrest⟩
            have hb : Known t b.code := resolveCode_ok_iff.mp ⟨code, hcode⟩
            refine ⟨hb, fun c hc => ?_⟩
            obtain ⟨j, hj, hcj⟩ := List.mem_filterMap.mp hc
            by_cases hij : i = j
            · rw [← hij, hi, Option.some.injEq] at hcj
              rwa [← hcj]
            · refine ih.mp ⟨pool', hrest⟩ c (List.mem_filterMap.mpr ⟨j, hj, ?_⟩)
              rwa [List.getElem?_set_ne hij]
          · rintro ⟨hb, hrest⟩
            obtain ⟨code, hcode⟩ :
                ∃ code, resolveCode t pc b.code = (code, none) :=
              resolveCode_ok_iff.mpr hb
            have hknown : ∀ c ∈ listed (pool.set i { b with code }) is,
                Known t c.code := by
              intro c hc
              obtain ⟨j, hj, hcj⟩ := List.mem_filterMap.mp hc
              by_cases hij : i = j
              · rw [← hij, getElem?_set_self hi, Option.some.injEq] at hcj
                rw [← hcj]
                intro x hx n hn
                have := isLabel_of_resolveCode hcode x hx
                rw [hn] at this
                cases this
              · rw [List.getElem?_set_ne hij] at hcj
                exact hrest c (List.mem_filterMap.mpr ⟨j, hj, hcj⟩)
            obtain ⟨pool', hpool'⟩ := ih.mpr hknown
            exact ⟨pool', code, hcode, hpool'⟩

/-- A program finds the addresses of its table. -/
theorem Table.Sound.address?_assemble (h : t.Sound)
    (bs : List Builder) (name : String) :
    (assemble t bs).address? name = t.addresses[name]? := by
  refine Option.ext fun a => ?_
  rw [h.address]
  show (t.labels.find? _).map _ = _ ↔ _
  constructor
  · intro ha
    obtain ⟨l, hl, rfl⟩ := Option.map_eq_some_iff.mp ha
    have hname := List.find?_some hl
    rw [beq_iff_eq] at hname
    rw [← hname]
    exact List.mem_of_find?_eq_some hl
  · intro ha
    cases hl : t.labels.find? (·.name == name) with
    | none =>
        have := List.find?_eq_none.mp hl _ ha
        simp at this
    | some l =>
        have hname := List.find?_some hl
        rw [beq_iff_eq] at hname
        rw [List.inj_on_of_nodup_map h.nodup
          (List.mem_of_find?_eq_some hl) ha hname]
        rfl

end Link

-- ================================================================= programs

/-- The number of the item in front of which a label stands, by the builders
before its own and all builders. -/
def placeOf (pool : List Builder) (order before : List Nat)
    (l : LabelDef) : Nat :=
  if l.inData then codeSize pool order + dataSize pool before + l.position
  else codeSize pool before + l.position

/-- What an instruction is in a program: one that named a label has the address
of the label, or the distance from its own address to it. -/
def Settled (p : Program) (pc : Nat) (x y : Insn) : Prop :=
  match x.imm with
  | .literal .. => y = x
  | .label n => ∃ a v, p.address? n = some a
      ∧ y = { x with imm := .literal v n }
      ∧ v.toInt = if x.opcode.isRelative then a.toInt - pc else a.toInt

/-- Listed builders in a program: code, then data, each label at its item. -/
structure Linked (pool : List Builder) (order : List Nat)
    (p : Program) : Prop where
  items : p.items = p.code.map .insn
    ++ ((listed pool order).flatMap (·.data)).map .data
  length : p.code.length = codeSize pool order
  resolved : ∀ y ∈ p.code, y.imm.isLabel = false
  insn : ∀ before i b, Listed pool order before i b → i ∉ before →
    ∀ q x, b.code[q]? = some x →
    ∃ y, p.code[codeSize pool before + q]? = some y
      ∧ Settled p (codeSize pool before + q) x y
  /-- A builder that is listed again has the instructions of its first
  listing. -/
  again : ∀ before i b, Listed pool order before i b → ∀ q < b.code.length,
    p.code[codeSize pool before + q]?
      = p.code[codeSize pool (before.takeWhile (· ≠ i)) + q]?
  address : ∀ n a, p.address? n = some a ↔ ∃ before i b,
    Listed pool order before i b
    ∧ ∃ l ∈ b.labels, l.name = n ∧ a.toInt = placeOf pool order before l
  entry : ∀ b ∈ listed pool order, ∀ a, p.address? b.func = some a →
    ∃ e, p.entrypoints[b.func]? = some e ∧ e.pc = a
  entryOf : ∀ n e, p.entrypoints[n]? = some e → ∃ b ∈ listed pool order,
    b.func = n ∧ p.address? n = some e.pc ∧ e.args = b.args
      ∧ e.returns = b.returns

-- ================================================================== result

namespace Link

variable {t : Table}

/-- What is there after resolving was there before, with other code of the same
length. -/
theorem resolveAll_getElem?
    (h : resolveAll t pc order pool = (pool', none)) (i : Nat) :
    pool'[i]? = none ∧ pool[i]? = none
      ∨ ∃ b code, pool[i]? = some b ∧ code.length = b.code.length
        ∧ pool'[i]? = some { b with code }
        ∧ (i ∈ order → ∀ x ∈ code, x.imm.isLabel = false) := by
  obtain ⟨hother, hthese⟩ := resolveAll_places h
  cases hb : pool[i]? with
  | none => exact Or.inl ⟨(hother i fun _ => hb).trans hb, rfl⟩
  | some b =>
      right
      by_cases hi : i ∈ order
      · obtain ⟨hlisted, hfirst⟩ := exists_first hi hb
        obtain ⟨code, hget, hcode⟩ := hthese _ i b hlisted hfirst
        exact ⟨b, code, rfl, length_resolveCode hcode, hget,
          fun _ => isLabel_of_resolveCode hcode⟩
      · refine ⟨b, b.code, rfl, rfl, ?_, fun hmem => absurd hmem hi⟩
        rw [hother i fun hmem => absurd hmem hi, hb]

/-- A listed builder after resolving, and before. -/
theorem mem_listed_resolveAll
    (h : resolveAll t pc order pool = (pool', none)) {b' : Builder}
    (hb' : b' ∈ listed pool' order) : ∃ b ∈ listed pool order, ∃ code,
      b' = { b with code } ∧ ∀ x ∈ code, x.imm.isLabel = false := by
  obtain ⟨i, hi, hget⟩ := List.mem_filterMap.mp hb'
  obtain ⟨hnone, -⟩ | ⟨b, code, hb, -, hget', hlits⟩ := resolveAll_getElem? h i
  · rw [hnone] at hget
    cases hget
  · rw [hget', Option.some.injEq] at hget
    exact ⟨b, List.mem_filterMap.mpr ⟨i, hi, hb⟩, code, hget.symm, hlits hi⟩

/-- What does not depend on code but for its length is as it was. -/
theorem map_listed_resolveAll
    (h : resolveAll t pc order pool = (pool', none))
    {α : Type} {g : Builder → α}
    (hg : ∀ b code, code.length = b.code.length → g { b with code } = g b)
    (is : List Nat) : (listed pool' is).map g = (listed pool is).map g := by
  refine map_listed (fun i => ?_) is
  obtain ⟨hnone', hnone⟩ | ⟨b, code, hb, hlen, hb', -⟩ :=
    resolveAll_getElem? h i
  · rw [hnone', hnone]
  · rw [hb', hb, Option.map_some, Option.map_some, hg b code hlen]

/-- Linking succeeds if the table is filled and all the code is resolved, and
then assembles what was resolved. -/
theorem linkPool_eq_ok : (linkPool pool order).2 = .ok p ↔ ∃ t pool',
    tableOf (listed pool order) = .ok t
        ∧ resolveAll t 0 order pool = (pool', none)
      ∧ p = assemble t (listed pool' order) := by
  rw [linkPool]
  cases ht : tableOf (order.filterMap (pool[·]?)) with
  | error c => simp [listed, ht]
  | ok t =>
      rcases hall : resolveAll t 0 order pool with ⟨pool', c | c⟩
      · simp [listed, ht, hall, eq_comm]
      · simp [listed, ht, hall]

/-- A label is within its program. -/
theorem placeOf_le (h : Listed pool order before i b)
    (hb : b.Placed) {l : LabelDef} (hl : l ∈ b.labels) :
    placeOf pool order before l ≤ codeSize pool order
        + dataSize pool order := by
  obtain ⟨behind, hsplit⟩ := h.split
  have hplaced := hb l hl
  rw [placeOf, codeSize, dataSize, codeSize, dataSize, hsplit]
  simp only [List.map_append, List.map_cons, List.sum_append, List.sum_cons]
  split at hplaced <;> rename_i hin
  · rw [if_pos hin]
    omega
  · rw [if_neg hin]
    omega

/-- An address is the place of its label, if there are fewer than `2 ^ 31`
places. -/
theorem toInt_addressOf (h : Listed pool order before i b) (hb : b.Placed)
    (hroom : codeSize pool order + dataSize pool order < 2 ^ 31) {l : LabelDef}
    (hl : l ∈ b.labels) :
    (addressOf (listed pool before) (listed pool order) l).toInt
      = placeOf pool order before l := by
  have hle := placeOf_le h hb hl
  have heq : addressOf (listed pool before) (listed pool order) l
      = Int32.ofNat (placeOf pool order before l) := by
    rw [addressOf, placeOf, ← Int32.ofNat_add]
    cases l.inData <;> rfl
  rw [heq, Int32.toInt_ofNat_of_lt (by omega)]

/-- The labels of a table are where they were defined. -/
theorem addresses_eq_some_iff (ht : tableOf (listed pool order) = .ok t)
    (hplaced : ∀ b ∈ listed pool order, b.Placed)
    (hroom : codeSize pool order + dataSize pool order < 2 ^ 31)
    {n : String} {a : Int32} :
    t.addresses[n]? = some a ↔ ∃ before i b, Listed pool order before i b
      ∧ ∃ l ∈ b.labels, l.name = n ∧ a.toInt = placeOf pool order before l := by
  obtain ⟨hsound, hlabels⟩ := sound_of_tableOf ht
  rw [hsound.address, hlabels, mem_labelsOf]
  constructor
  · rintro ⟨pre, b, post, hsplit, l, hl, heq⟩
    obtain ⟨before, i, h, rfl⟩ := exists_listed hsplit
    obtain ⟨rfl, rfl⟩ := Label.mk.inj heq
    exact ⟨before, i, b, h, l, hl, rfl,
      toInt_addressOf h (hplaced b h.mem) hroom hl⟩
  · rintro ⟨before, i, b, h, l, hl, rfl, ha⟩
    obtain ⟨behind, hsplit⟩ := h.split
    refine ⟨listed pool before, b, behind, hsplit, l, hl, ?_⟩
    rw [Int32.toInt_inj.mp
      (ha.trans (toInt_addressOf h (hplaced b h.mem) hroom hl).symm)]

/-- A distance between addresses is exact. -/
theorem settled_of_resolve {x y : Insn} (hres : resolve t pc x = .ok y)
    (haddress : ∀ n, p.address? n = t.addresses[n]?)
    (hnonneg : ∀ (n : String) (a : Int32),
      t.addresses[n]? = some a → 0 ≤ a.toInt)
    (hpc : pc < 2 ^ 31) : Settled p pc x y := by
  rw [Settled]
  obtain ⟨hlit, rfl⟩ | ⟨n, a, hn, ha, rfl⟩ := resolve_eq_ok.mp hres
  · cases himm : y.imm with
    | literal v n => rfl
    | label n =>
        rw [himm] at hlit
        cases hlit
  · rw [hn]
    refine ⟨a, _, (haddress n).trans ha, rfl, ?_⟩
    split
    · have hle := a.toInt_lt
      have := hnonneg n a ha
      rw [Int32.toInt_sub, Int32.toInt_ofNat_of_lt hpc]
      exact Int.bmod_eq_of_le (by omega) (by omega)
    · rfl

/-- The instructions of a builder in the program. -/
theorem code_getElem? (hall : resolveAll t 0 order pool = (pool', none))
    (h : Listed pool order before i b) {b' : Builder}
    (hb' : pool'[i]? = some b') {q : Nat} (hq : q < b'.code.length) :
    (assemble t (listed pool' order)).code[codeSize pool before + q]?
      = b'.code[q]? := by
  have hsize : codeSize pool before = codeSize pool' before := by
    rw [codeSize, codeSize, map_listed_resolveAll hall fun b code hlen => hlen]
  obtain ⟨-, behind, hsplit⟩ := h
  obtain ⟨rest, hsplit'⟩ : ∃ rest, listed pool' order
      = listed pool' before ++ b' :: rest :=
    Listed.split ⟨hb', behind, hsplit⟩
  rw [hsize, code_assemble, hsplit']
  exact getElem?_flatMap_code hq

/-- A linked program has everything at its address. -/
theorem linked_of_ok (hplaced : ∀ b ∈ listed pool order, b.Placed)
    (hroom : codeSize pool order + dataSize pool order < 2 ^ 31)
    (hok : (linkPool pool order).2 = .ok p) : Linked pool order p := by
  obtain ⟨t, pool', ht, hall, rfl⟩ := linkPool_eq_ok.mp hok
  obtain ⟨hsound, -⟩ := sound_of_tableOf ht
  have haddress (n : String) : (assemble t (listed pool' order)).address? n
      = t.addresses[n]? :=
    hsound.address?_assemble _ n
  have hlabels {n : String} {a : Int32} :=
    addresses_eq_some_iff (n := n) (a := a) ht hplaced hroom
  refine ⟨?_, ?_, fun y hy => ?_, fun before i b h hfirst q x hx => ?_,
    fun before i b h q hq => ?_, fun n a => by
      rw [haddress, hlabels], fun b hb a ha => ?_,
    fun n e he => ?_⟩
  · have hdata : (listed pool' order).flatMap (·.data)
        = (listed pool order).flatMap (·.data) := by
      rw [List.flatMap_def, List.flatMap_def,
        map_listed_resolveAll hall fun b code _ => rfl]
    rw [code_assemble, ← hdata, List.map_flatMap, List.map_flatMap]
    rfl
  · rw [code_assemble, List.length_flatMap, codeSize,
      map_listed_resolveAll hall fun b code hlen => hlen]
  · rw [code_assemble] at hy
    obtain ⟨b', hb', hy⟩ := List.mem_flatMap.mp hy
    obtain ⟨b, -, code, rfl, hlits⟩ := mem_listed_resolveAll hall hb'
    exact hlits y hy
  · obtain ⟨code, hget, hcode⟩ := (resolveAll_places hall).2 before i b h hfirst
    obtain ⟨y, hy, hres⟩ := resolveCode_getElem? hcode hx
    have hq : q < code.length := (List.getElem?_eq_some_iff.mp hy).1
    have hlt : codeSize pool before + q < codeSize pool order := by
      obtain ⟨behind, hsplit⟩ := h.split
      have hlen := length_resolveCode hcode
      rw [codeSize, codeSize, hsplit]
      simp only [List.map_append, List.map_cons, List.sum_append, List.sum_cons]
      omega
    rw [Nat.zero_add] at hres
    refine ⟨y, (code_getElem? hall h hget hq).trans hy,
      settled_of_resolve hres haddress
      (fun n a ha => ?_) (by omega)⟩
    obtain ⟨_, _, _, _, _, _, _, hplace⟩ := hlabels.mp ha
    rw [hplace]
    exact Int.natCast_nonneg _
  · obtain ⟨-, hnone⟩ | ⟨b', code, hb', hlen, hget, -⟩ :=
      resolveAll_getElem? hall i
    · rw [h.1] at hnone
      cases hnone
    · rw [h.1, Option.some.injEq] at hb'
      subst hb'
      rw [code_getElem? hall h hget (hlen ▸ hq),
        code_getElem? hall h.first hget (hlen ▸ hq)]
  · rw [haddress] at ha
    obtain ⟨i, hi, hget⟩ := List.mem_filterMap.mp hb
    obtain ⟨-, hnone⟩ | ⟨c, code, hc, -, hget', -⟩ := resolveAll_getElem? hall i
    · rw [hget] at hnone
      cases hnone
    · rw [hget, Option.some.injEq] at hc
      subst hc
      have hmem : { b with code } ∈ listed pool' order :=
        List.mem_filterMap.mpr ⟨i, hi, hget'⟩
      obtain ⟨e, he⟩ := exists_entrypoints hmem ha
      obtain ⟨-, -, -, hpc, -⟩ := builder_of_entrypoints he
      exact ⟨e, he, Option.some.inj (hpc.symm.trans ha)⟩
  · obtain ⟨b', hb', hname, hpc, hargs, hreturns⟩ := builder_of_entrypoints he
    obtain ⟨b, hb, code, rfl, -⟩ := mem_listed_resolveAll hall hb'
    exact ⟨b, hb, hname, (haddress n).trans hpc, hargs, hreturns⟩

/-- Linking answers exactly if there is a table and it has every label that is
named. -/
theorem linkPool_ok_iff : (∃ p, (linkPool pool order).2 = .ok p)
    ↔ ((listed pool order).flatMap Builder.defs).Nodup
      ∧ ∀ b ∈ listed pool order, ∀ x ∈ b.code,
      ∀ n, x.imm = .label n → n ∈ (listed pool order).flatMap Builder.defs := by
  have hknown {t : Table} (ht : tableOf (listed pool order)
      = .ok t) (n : String) :
      (∃ a, t.addresses[n]? = some a)
      ↔ n ∈ (listed pool order).flatMap Builder.defs := by
    obtain ⟨hsound, hlabels⟩ := sound_of_tableOf ht
    rw [← Option.isSome_iff_exists,
      ← Std.ExtTreeMap.mem_iff_isSome_getElem?, hsound.mem_iff,
      hlabels, (map_name_labelsOf _).mem_iff]
  simp only [linkPool_eq_ok, ← tableOf_ok_iff]
  constructor
  · rintro ⟨p, t, pool', ht, hall, -⟩
    have := resolveAll_ok_iff.mp ⟨pool', hall⟩
    exact ⟨⟨t, ht⟩, fun b hb x hx n hn =>
      (hknown ht n).mp (this b hb x hx n hn)⟩
  · rintro ⟨⟨t, ht⟩, hnamed⟩
    obtain ⟨pool', hall⟩ : ∃ pool', resolveAll t 0 order pool = (pool', none) :=
      resolveAll_ok_iff.mpr fun b hb x hx n hn =>
        (hknown ht n).mpr (hnamed b hb x hx n hn)
    exact ⟨_, t, pool', ht, hall, rfl⟩

end Link

/-- Listed builders are linked in order, every label at its item and every
operand resolved to the address of its label or to the distance to it. It fails
exactly if a label is defined twice or a label that an instruction names is not
defined. -/
theorem linkPool_places (hplaced : ∀ b ∈ listed pool order, b.Placed)
    (hroom : codeSize pool order + dataSize pool order < 2 ^ 31) :
    (∀ p, (linkPool pool order).2 = .ok p → Linked pool order p)
      ∧ ((∃ e, (linkPool pool order).2 = .error e)
        ↔ ¬ ((listed pool order).flatMap Builder.defs).Nodup
          ∨ ∃ b ∈ listed pool order, ∃ x ∈ b.code, ∃ n, x.imm = .label n
            ∧ n ∉ (listed pool order).flatMap Builder.defs) := by
  refine ⟨fun p hp => Link.linked_of_ok hplaced hroom hp, ?_⟩
  have herror : (∃ e, (linkPool pool order).2 = .error e)
      ↔ ¬ ∃ p, (linkPool pool order).2 = .ok p := by
    cases (linkPool pool order).2 <;> simp
  rw [herror, Link.linkPool_ok_iff, not_and_or]
  simp only [not_forall, exists_prop]

/-- A builder with labels in its code and its data, and one that names both and
has none. -/
def shared : List Builder :=
  [{ func := "halt", code := [{ opcode := .ret }], data := [7, 8],
     labels := [⟨"halt", false, 0⟩, ⟨"eight", true, 1⟩] },
   { func := "spin", code := [{ opcode := .jnzFpImm, off0 := -3, imm := .label "halt" },
       { opcode := .storeImm, imm := .label "eight" }] }]

/-- The same builder listed twice: its instructions are linked once and stand
twice. -/
theorem linkPool_places_shared :
    (∀ b ∈ listed shared [1, 0, 1], b.Placed)
      ∧ codeSize shared [1, 0, 1] + dataSize shared [1, 0, 1] < 2 ^ 31
      ∧ ∃ p, (linkPool shared [1, 0, 1]).2 = .ok p
      ∧ Linked shared [1, 0, 1] p := by
  have hplaced : ∀ b ∈ listed shared [1, 0, 1], b.Placed := by decide
  have hroom : codeSize shared [1, 0, 1] + dataSize shared [1, 0, 1]
      < 2 ^ 31 := by decide
  obtain ⟨p, hp⟩ : ∃ p, (linkPool shared [1, 0, 1]).2 = .ok p := ⟨_, rfl⟩
  exact ⟨hplaced, hroom, p, hp, (linkPool_places hplaced hroom).1 p hp⟩

/-- A builder that is listed twice keeps the distances of its first place: the
jump at address 3 is resolved to 2 as the one at address 0, and its label is at
address 2. -/
theorem linkPool_repeats_distances :
    (∀ b ∈ listed shared [1, 0, 1], b.Placed)
      ∧ codeSize shared [1, 0, 1] + dataSize shared [1, 0, 1] < 2 ^ 31
      ∧ ∃ p b x y, (linkPool shared [1, 0, 1]).2 = .ok p ∧ Listed shared
        [1, 0, 1] [1, 0] 1 b
        ∧ b.code[0]? = some x ∧ codeSize shared
        [1, 0] + 0 = 3 ∧ p.code[3]? = some y
        ∧ ¬ Settled p 3 x y := by
  refine ⟨by decide, by decide, _, _, _, _, rfl, ⟨rfl, [], rfl⟩,
    rfl, rfl, rfl, ?_⟩
  rintro ⟨a, v, ha, hy, hv⟩
  obtain rfl : (2 : Int32) = a := Option.some.inj ha
  obtain rfl : (2 : Int32) = v := congrArg (fun y : Insn => y.imm.value) hy
  exact absurd hv (by decide)

end MirBackend.Asm
