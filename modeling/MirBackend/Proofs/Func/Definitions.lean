/-
Where values are defined.

`definedValues` lists what the instructions define, in order; a function is in
single-assignment form when no value occurs there twice and no parameter
occurs at all. The check collects the same list step by step, and a step
fails at the first repetition (`Records`), naming the value and the two places
(`Collects`); so it passes exactly on functions in single-assignment form that
read only what is defined (`validateSSA_eq_ok_iff`).

`DefinedAt` names the place of a definition. In single-assignment form a value
has at most one.
-/
import Mathlib
import MirBackend.Proofs.Func.Instrs

namespace MirBackend.Func

variable {f : Func}

-- ================================================================= places

/-- The values defined by the instructions of a place in the block list, in
order. -/
def destsOf (o : Option Block) : List ValueId :=
  o.elim [] fun b => b.instrs.flatMap Instr.dests

/-- The values defined by instructions, in order. -/
def definedValues (f : Func) : List ValueId := f.blocks.flatMap destsOf

/-- The instruction at a place defines the value. -/
def DefinedAt (f : Func) (b : BlockId) (i : Nat) (v : ValueId) : Prop :=
  ∃ blk ins, f.block? b = some blk ∧ blk.instrs[i]? = some ins ∧ v ∈ ins.dests

/-- The value is a parameter or is defined by an instruction. -/
def Defined (f : Func) (v : ValueId) : Prop :=
  v ∈ f.params ∨ v ∈ f.definedValues

/-- The value is defined in the block; parameters are defined in no block. -/
def DefinedIn (f : Func) (b : BlockId) (v : ValueId) : Prop :=
  (b = noBlock ∧ v ∈ f.params) ∨ ∃ i, f.DefinedAt b i v

/-- The defined values are those of the instructions. -/
theorem mem_definedValues {v : ValueId} :
    v ∈ f.definedValues ↔ ∃ b i, f.DefinedAt b i v := by
  simp only [definedValues, List.mem_flatMap, DefinedAt]
  constructor
  · rintro ⟨o, ho, hv⟩
    obtain ⟨b, hb⟩ := List.mem_iff_getElem?.mp ho
    cases o with
    | none => cases hv
    | some blk =>
        obtain ⟨ins, hins, hv⟩ := List.mem_flatMap.mp hv
        obtain ⟨i, hi⟩ := List.mem_iff_getElem?.mp hins
        exact ⟨b, i, blk, ins, block?_eq_some_iff.mpr ⟨b, rfl, hb⟩, hi, hv⟩
  · rintro ⟨b, i, blk, ins, hb, hi, hv⟩
    obtain ⟨j, rfl, hj⟩ := block?_eq_some_iff.mp hb
    exact ⟨some blk, List.mem_of_getElem? hj,
      List.mem_flatMap.mpr ⟨ins, List.mem_of_getElem? hi, hv⟩⟩

/-- An instruction that defines the value stands somewhere. -/
theorem mem_definedValues_iff_hasInstr {v : ValueId} :
    v ∈ f.definedValues ↔ ∃ i, f.HasInstr i ∧ v ∈ i.dests := by
  rw [mem_definedValues]
  constructor
  · rintro ⟨b, j, blk, ins, hb, hj, hv⟩
    exact ⟨ins, ⟨b, blk, hb, List.mem_of_getElem? hj⟩, hv⟩
  · rintro ⟨ins, ⟨b, blk, hb, hins⟩, hv⟩
    obtain ⟨j, hj⟩ := List.mem_iff_getElem?.mp hins
    exact ⟨b, j, blk, ins, hb, hj, hv⟩

/-- Every value is defined once; parameters count as defined. -/
structure SingleAssignment (f : Func) : Prop where
  nodup : f.definedValues.Nodup
  params : ∀ p ∈ f.params, p ∉ f.definedValues

/-- Whether every value has one definition. -/
def definesOnce (f : Func) : Bool :=
  decide f.definedValues.Nodup && f.params.all fun p =>
    !f.definedValues.contains p

/-- No value is listed twice if it has one definition. -/
theorem definesOnce_iff : f.definesOnce = true ↔ f.SingleAssignment := by
  simp only [definesOnce, Bool.and_eq_true, decide_eq_true_eq, List.all_eq_true,
    Bool.not_eq_true', List.contains_eq_mem, decide_eq_false_iff_not]
  exact ⟨fun h => ⟨h.1, h.2⟩, fun h => ⟨h.nodup, h.params⟩⟩

/-- In a list without repetitions made of parts, an element has one place. -/
theorem getElem?_unique_of_nodup {α β : Type} {g : α → List β} {as : List α}
    (hnd : (as.flatMap g).Nodup) {i j : Nat} {a a' : α} {b : β}
    (hi : as[i]? = some a) (hj : as[j]? = some a') (ha : b ∈ g a)
    (ha' : b ∈ g a') : i = j := by
  rw [List.nodup_flatMap] at hnd
  obtain ⟨hilt, rfl⟩ := List.getElem?_eq_some_iff.mp hi
  obtain ⟨hjlt, rfl⟩ := List.getElem?_eq_some_iff.mp hj
  have hpair := List.pairwise_iff_getElem.mp hnd.2
  rcases Nat.lt_trichotomy i j with hij | hij | hij
  · exact absurd ha' fun h => hpair i j hilt hjlt hij ha h
  · exact hij
  · exact absurd ha fun h => hpair j i hjlt hilt hij ha' h

/-- What the instructions of a block define is different. -/
theorem SingleAssignment.block_nodup (h : f.SingleAssignment)
    {b : BlockId} {blk : Block} (hb : f.block? b = some blk) :
    (blk.instrs.flatMap Instr.dests).Nodup := by
  obtain ⟨n, rfl, hn⟩ := block?_eq_some_iff.mp hb
  exact (List.nodup_flatMap.mp h.nodup).1 (some blk) (List.mem_of_getElem? hn)

/-- A value has one place of definition. -/
theorem SingleAssignment.unique (h : f.SingleAssignment) {b c : BlockId}
    {i j : Nat} {v : ValueId} (hb : f.DefinedAt b i v)
    (hc : f.DefinedAt c j v) : b = c ∧ i = j := by
  obtain ⟨blk, ins, hblk, hi, hv⟩ := hb
  obtain ⟨blk', ins', hblk', hj, hv'⟩ := hc
  obtain ⟨m, rfl, hm⟩ := block?_eq_some_iff.mp hblk
  obtain ⟨n, rfl, hn⟩ := block?_eq_some_iff.mp hblk'
  have hnd := h.nodup
  have hmem : v ∈ destsOf (some blk) :=
    List.mem_flatMap.mpr ⟨ins, List.mem_of_getElem? hi, hv⟩
  have hmem' : v ∈ destsOf (some blk') :=
    List.mem_flatMap.mpr ⟨ins', List.mem_of_getElem? hj, hv'⟩
  have hmn : m = n := getElem?_unique_of_nodup hnd hm hn hmem hmem'
  subst hmn
  rw [hm, Option.some.injEq, Option.some.injEq] at hn
  subst hn
  exact ⟨rfl, getElem?_unique_of_nodup (h.block_nodup hblk) hi hj hv hv'⟩

/-- A value has one instruction that defines it. -/
theorem SingleAssignment.instr_unique (h : f.SingleAssignment)
    {i j : Instr} {v : ValueId} (hi : f.HasInstr i) (hj : f.HasInstr j)
    (hvi : v ∈ i.dests) (hvj : v ∈ j.dests) : i = j := by
  obtain ⟨b, blk, hb, hmem⟩ := hi
  obtain ⟨c, blk', hc, hmem'⟩ := hj
  obtain ⟨k, hk⟩ := List.mem_iff_getElem?.mp hmem
  obtain ⟨l, hl⟩ := List.mem_iff_getElem?.mp hmem'
  obtain ⟨rfl, rfl⟩ := h.unique ⟨blk, i, hb, hk, hvi⟩ ⟨blk', j, hc, hl, hvj⟩
  rw [hb, Option.some.injEq] at hc
  subst hc
  rw [hk, Option.some.injEq] at hl
  exact hl

-- ============================================================== collection

/-- A step that records the definitions `ds`: it answers when they are new and
different, and then just they are added. -/
structure Records (defs : Definitions) (ds : List ValueId)
    (r : Except (Stop Invalid) Definitions) : Prop where
  sound : ∀ defs', r = .ok defs' → ds.Nodup ∧ (∀ d ∈ ds, d ∉ defs)
    ∧ ∀ v, v ∈ defs' ↔ v ∈ defs ∨ v ∈ ds
  complete : ds.Nodup → (∀ d ∈ ds, d ∉ defs) → ∃ defs', r = .ok defs'

/-- No instruction records nothing. -/
theorem Records.nil (defs : Definitions) : Records defs [] (.ok defs) := by
  refine ⟨fun defs' h => ?_, fun _ _ => ⟨defs, rfl⟩⟩
  cases h
  simp

/-- One step after the other records both lists. -/
theorem Records.bind {defs : Definitions} {ds es : List ValueId}
    {r : Except (Stop Invalid) Definitions}
    {k : Definitions → Except (Stop Invalid) Definitions}
    (hr : Records defs ds r) (hk : ∀ defs', Records defs' es (k defs')) :
    Records defs (ds ++ es) (r >>= k) := by
  refine ⟨fun defs'' h => ?_, fun hnd hnew => ?_⟩
  · obtain ⟨defs', hr', hk'⟩ := bind_eq_ok.mp h
    obtain ⟨hnd, hnew, hmem⟩ := hr.sound defs' hr'
    obtain ⟨hnd', hnew', hmem'⟩ := (hk defs').sound defs'' hk'
    refine ⟨List.nodup_append.mpr ⟨hnd, hnd', fun a ha b hb hab => ?_⟩,
      fun d hd => ?_, fun v => ?_⟩
    · subst hab
      exact hnew' a hb ((hmem a).mpr (Or.inr ha))
    · rcases List.mem_append.mp hd with hd | hd
      · exact hnew d hd
      · exact fun h => hnew' d hd ((hmem d).mpr (Or.inl h))
    · rw [hmem', hmem, List.mem_append, or_assoc]
  · obtain ⟨hnd₁, hnd₂, hdisj⟩ := List.nodup_append.mp hnd
    obtain ⟨defs', hr'⟩ := hr.complete hnd₁ fun d hd =>
      hnew d (List.mem_append_left _ hd)
    obtain ⟨-, -, hmem⟩ := hr.sound defs' hr'
    obtain ⟨defs'', hk'⟩ := (hk defs').complete hnd₂ fun d hd hin => by
      rcases (hmem d).mp hin with hin | hin
      · exact hnew d (List.mem_append_right _ hd) hin
      · exact hdisj d hin d hd rfl
    exact ⟨defs'', bind_eq_ok.mpr ⟨defs', hr', hk'⟩⟩

/-- An instruction that is there can be looked at. -/
theorem present_of_ne_missing {i : Instr} (h : i ≠ .missing) :
    i.present = .ok i := by
  cases i with
  | missing => exact absurd rfl h
  | _ => rfl

section Collection

variable {b : BlockId} {blk : Block} {v : ValueId}

/-- What is collected is where the values are defined. -/
def Locates (f : Func) (defs : Definitions) : Prop :=
  ∀ v b, defs[v]? = some b → f.DefinedIn b v

/-- A value that is collected a second time: the places are right, and the value
was there before or is twice among the new ones. -/
def Clashes (f : Func) (defs : Definitions) (ds : List ValueId)
    (s : Stop Invalid) : Prop :=
  ∃ v a b, s = .fail (.definedTwice v a b) ∧ f.DefinedIn a v
    ∧ (∃ i, f.DefinedAt b i v)
    ∧ ((v ∈ defs ∧ v ∈ ds) ∨ 1 < ds.count v)

/-- A step that collects the values `ds`, which are defined where it says they
are. -/
structure Collects (f : Func) (defs : Definitions) (ds : List ValueId)
    (r : Except (Stop Invalid) Definitions) : Prop where
  records : Records defs ds r
  locates : ∀ defs', r = .ok defs' → f.Locates defs → f.Locates defs'
  clashes : ∀ s, r = .error s → f.Locates defs → f.Clashes defs ds s

namespace Collects

/-- No definition is left to collect. -/
theorem nil (defs : Definitions) : f.Collects defs [] (.ok defs) :=
  ⟨.nil defs, fun _ h hloc => by (cases h; exact hloc), fun _ h => by (cases h)⟩

/-- One step after the other collects both lists. -/
theorem bind {defs : Definitions} {ds es : List ValueId}
    {r : Except (Stop Invalid) Definitions}
    {k : Definitions → Except (Stop Invalid) Definitions}
    (hr : f.Collects defs ds r) (hk : ∀ defs', f.Collects defs' es (k defs')) :
    f.Collects defs (ds ++ es) (r >>= k) := by
  refine ⟨hr.records.bind fun defs' => (hk defs').records,
    fun defs'' h hloc => ?_, fun s h hloc => ?_⟩
  · obtain ⟨defs', hr', hk'⟩ := bind_eq_ok.mp h
    exact (hk defs').locates defs'' hk' (hr.locates defs' hr' hloc)
  · rcases bind_eq_error.mp h with hr' | ⟨defs', hr', hk'⟩
    · obtain ⟨v, a, b, rfl, ha, hb, hv⟩ := hr.clashes s hr' hloc
      refine ⟨v, a, b, rfl, ha, hb,
        hv.imp (fun ⟨hin, hv⟩ => ⟨hin, List.mem_append_left _ hv⟩) fun hv => ?_⟩
      rw [List.count_append]
      omega
    · obtain ⟨v, a, b, rfl, ha, hb, hv⟩ :=
        (hk defs').clashes s hk' (hr.locates defs' hr' hloc)
      obtain ⟨-, -, hmem⟩ := hr.records.sound defs' hr'
      refine ⟨v, a, b, rfl, ha, hb, ?_⟩
      rw [List.count_append]
      rcases hv with ⟨hin, hv⟩ | hv
      · rcases (hmem v).mp hin with hin | hin
        · exact Or.inl ⟨hin, List.mem_append_right _ hv⟩
        · have h₁ := List.count_pos_iff.mpr hin
          have h₂ := List.count_pos_iff.mpr hv
          exact Or.inr (by omega)
      · exact Or.inr (by omega)

/-- A loop of steps that each collect something. -/
theorem foldlM {α : Type} {ds : α → List ValueId}
    {step : Definitions → α → Except (Stop Invalid) Definitions} (as : List α)
    (hstep : ∀ a ∈ as, ∀ defs, f.Collects defs (ds a) (step defs a))
    (defs : Definitions) :
    f.Collects defs (as.flatMap ds) (as.foldlM step defs) := by
  induction as generalizing defs with
  | nil => exact .nil defs
  | cons a as ih =>
      rw [List.flatMap_cons, List.foldlM_cons]
      exact (hstep a List.mem_cons_self defs).bind
        fun defs' => ih (fun b hb => hstep b (List.mem_cons_of_mem _ hb)) defs'

end Collects

-- A value that no block is recorded for is not defined yet.
theorem not_mem_of_getElem?_eq_none {defs : Definitions}
    (h : defs[v]? = none) : v ∉ defs := by
  intro hin
  rw [Std.ExtTreeMap.mem_iff_isSome_getElem?, h] at hin
  cases hin

theorem mem_of_getElem?_eq_some {defs : Definitions}
    (h : defs[v]? = some b) : v ∈ defs := by
  rw [Std.ExtTreeMap.mem_iff_isSome_getElem?, h]
  rfl

/-- The values of one instruction are collected in order. -/
theorem defineAll_collects {ds : List ValueId}
    (hds : ∀ d ∈ ds, ∃ i, f.DefinedAt b i d) (defs : Definitions) :
    f.Collects defs ds (defineAll b ds defs) := by
  induction ds generalizing defs with
  | nil => exact .nil defs
  | cons d ds ih =>
      obtain ⟨hd, hds⟩ := List.forall_mem_cons.mp hds
      rw [defineAll]
      cases hfirst : defs[d]? with
      | some first =>
          have hin := mem_of_getElem?_eq_some hfirst
          refine ⟨⟨fun _ h => by (cases h),
            fun _ hnew => absurd hin (hnew d List.mem_cons_self)⟩,
            fun _ h => by (cases h), fun s h hloc => ?_⟩
          cases h
          exact ⟨d, first, b, rfl, hloc d first hfirst, hd,
            Or.inl ⟨hin, List.mem_cons_self⟩⟩
      | none =>
          have hout := not_mem_of_getElem?_eq_none hfirst
          have hone : f.Collects defs [d] (.ok (defs.insert d b)) := by
            refine ⟨⟨fun defs' h => ?_, fun _ _ => ⟨_, rfl⟩⟩,
              fun defs' h hloc v c hv => ?_, fun _ h => by (cases h)⟩
            · cases h
              refine ⟨List.nodup_singleton d, fun e he => ?_, fun v => ?_⟩
              · rwa [List.mem_singleton.mp he]
              · rw [Std.ExtTreeMap.mem_insert, List.mem_singleton,
                  Std.compare_eq_iff_eq, or_comm, eq_comm]
            · cases h
              rw [Std.ExtTreeMap.getElem?_insert] at hv
              split at hv
              · next heq =>
                  cases hv
                  rw [← Std.compare_eq_iff_eq.mp heq]
                  exact Or.inr hd
              · exact hloc v c hv
          exact hone.bind (k := defineAll b ds) (ih hds)

/-- And so are those of one block. -/
theorem defineBlock_collects (hb : f.block? b = some blk)
    (h : Instr.missing ∉ blk.instrs) (defs : Definitions) :
    f.Collects defs (blk.instrs.flatMap Instr.dests)
      (defineBlock b blk defs) := by
  refine Collects.foldlM blk.instrs (fun ins hins defs => ?_) defs
  rw [present_of_ne_missing fun hm => h (hm ▸ hins), liftChecked_ok, ok_bind]
  obtain ⟨i, hi⟩ := List.mem_iff_getElem?.mp hins
  exact defineAll_collects (fun d hd => ⟨i, blk, ins, hb, hi, hd⟩) defs

/-- The parameters count as defined from the start. -/
theorem mem_params_definitions (ps : List ValueId)
    (defs : Definitions) (v : ValueId) :
    v ∈ ps.foldl (fun defs p => defs.insert p noBlock) defs
        ↔ v ∈ defs ∨ v ∈ ps := by
  induction ps generalizing defs with
  | nil => simp
  | cons p ps ih =>
      rw [List.foldl_cons, ih, Std.ExtTreeMap.mem_insert, List.mem_cons,
        Std.compare_eq_iff_eq]
      constructor
      · rintro ((rfl | h) | h)
        · exact Or.inr (Or.inl rfl)
        · exact Or.inl h
        · exact Or.inr (Or.inr h)
      · rintro (h | rfl | h)
        · exact Or.inl (Or.inr h)
        · exact Or.inl (Or.inl rfl)
        · exact Or.inr h

/-- The definitions before the first instruction. -/
def paramDefinitions (f : Func) : Definitions :=
  f.params.foldl (fun defs p => defs.insert p noBlock) ∅

/-- At the start the parameters are defined, and nothing else. -/
theorem mem_paramDefinitions : v ∈ f.paramDefinitions ↔ v ∈ f.params := by
  rw [paramDefinitions, mem_params_definitions]
  simp

/-- They are defined at the entry, which locates them rightly. -/
theorem locates_paramDefinitions : f.Locates f.paramDefinitions := by
  have hall (ps : List ValueId) (defs : Definitions)
      (hdefs : ∀ (v : ValueId) (b : BlockId), defs[v]? = some b →
      b = noBlock) (v : ValueId) (b : BlockId)
      (h : (ps.foldl (fun defs p => defs.insert p noBlock) defs)[v]? = some b) :
          b = noBlock := by
    induction ps generalizing defs with
    | nil => exact hdefs v b h
    | cons p ps ih =>
        refine ih (defs.insert p noBlock) (fun u c hu => ?_) h
        rw [Std.ExtTreeMap.getElem?_insert] at hu
        split at hu
        · cases hu
          rfl
        · exact hdefs u c hu
  intro v b hv
  exact Or.inl ⟨hall f.params ∅ (by simp) v b hv,
    mem_paramDefinitions.mp (mem_of_getElem?_eq_some hv)⟩

/-- All definitions of a function are collected behind the parameters. -/
theorem definitions_collects (h : f.WellFormed) :
    f.Collects f.paramDefinitions f.definedValues f.definitions := by
  have hflat : f.definedValues
      = f.blocks.zipIdx.flatMap fun x => destsOf x.1 := by
    rw [definedValues]
    conv_lhs => rw [← List.zipIdx_map_fst 0 f.blocks, List.flatMap_map]
  rw [hflat, definitions]
  refine Collects.foldlM f.blocks.zipIdx (fun x hx defs => ?_)
    f.paramDefinitions
  obtain ⟨o, i⟩ := x
  have hi : f.blocks[i]? = some o := List.mk_mem_zipIdx_iff_getElem?.mp hx
  obtain ⟨blk, rfl⟩ :=
    Option.isSome_iff_exists.mp (h.full o (List.mem_of_getElem? hi))
  have hb : f.block? i = some blk := block?_eq_some_iff.mpr ⟨i, rfl, hi⟩
  exact defineBlock_collects hb (h.blockOk i blk hb).noHole defs

end Collection

/-- The definitions of a function are collected when it is in single-assignment
form. -/
theorem definitions_spec (h : f.WellFormed) :
    (∀ defs, f.definitions = .ok defs → f.SingleAssignment
      ∧ ∀ v, v ∈ defs ↔ f.Defined v)
    ∧ (f.SingleAssignment → ∃ defs, f.definitions = .ok defs) := by
  have hrec := (definitions_collects h).records
  refine ⟨fun defs hdefs => ?_, fun hsa => ?_⟩
  · obtain ⟨hnd, hnew, hmem⟩ := hrec.sound defs hdefs
    refine ⟨⟨hnd, fun p hp hd => hnew p hd (mem_paramDefinitions.mpr hp)⟩,
      fun v => ?_⟩
    rw [hmem, mem_paramDefinitions]
    rfl
  · exact hrec.complete hsa.nodup fun d hd hin =>
      hsa.params d (mem_paramDefinitions.mp hin) hd

-- =================================================================== reads

/-- The reads of a place in the block list, checked against the definitions. -/
theorem checkReads_eq_ok {defs : Definitions} {blk : Block} {i : Nat}
    (h : Instr.missing ∉ blk.instrs) :
    checkReads defs (some blk, i) = .ok ()
      ↔ (∀ ins ∈ blk.instrs, ∀ u ∈ ins.uses, u ∈ defs)
      ∧ ∀ u ∈ usesOf blk.term, u ∈ defs := by
  rw [checkReads, seq_eq_ok, checkAll_eq_ok, checkAll_eq_ok]
  refine and_congr (forall₂_congr fun ins hins => ?_)
    (forall₂_congr fun u _ => ?_)
  · rw [present_of_ne_missing fun hm => h (hm ▸ hins), liftChecked_ok,
      ok_bind, checkAll_eq_ok]
    refine forall₂_congr fun u _ => ?_
    rw [require_eq_ok, Std.ExtTreeMap.contains_iff_mem]
  · rw [require_eq_ok, Std.ExtTreeMap.contains_iff_mem]

/-- The check passes on functions in single-assignment form that read only what
is defined. -/
theorem validateSSA_eq_ok_iff (h : f.WellFormed) :
    f.validateSSA = .ok () ↔ f.SingleAssignment
        ∧ ∀ v, f.Reads v → f.Defined v := by
  have hreads (defs : Definitions) :
      checkAll (checkReads defs) f.blocks.zipIdx = .ok ()
      ↔ ∀ v, f.Reads v → v ∈ defs := by
    rw [checkAll_eq_ok]
    constructor
    · rintro hall v ⟨b, blk, hb, hv⟩
      obtain ⟨i, rfl, hi⟩ := block?_eq_some_iff.mp hb
      have hblk := hall (some blk, i) (List.mk_mem_zipIdx_iff_getElem?.mpr hi)
      obtain ⟨hins, hterm⟩ :=
        (checkReads_eq_ok (h.blockOk i blk hb).noHole).mp hblk
      rcases hv with ⟨ins, hmem, hv⟩ | hv
      · exact hins ins hmem v hv
      · exact hterm v hv
    · rintro hall ⟨o, i⟩ hoi
      have hi : f.blocks[i]? = some o := List.mk_mem_zipIdx_iff_getElem?.mp hoi
      obtain ⟨blk, rfl⟩ :=
        Option.isSome_iff_exists.mp (h.full o (List.mem_of_getElem? hi))
      have hb : f.block? i = some blk := block?_eq_some_iff.mpr ⟨i, rfl, hi⟩
      refine (checkReads_eq_ok (h.blockOk i blk hb).noHole).mpr
        ⟨fun ins hins u hu => ?_, fun u hu => ?_⟩
      · exact hall u ⟨i, blk, hb, Or.inl ⟨ins, hins, hu⟩⟩
      · exact hall u ⟨i, blk, hb, Or.inr hu⟩
  obtain ⟨hsound, hcomplete⟩ := definitions_spec h
  rw [validateSSA, bind_eq_ok]
  constructor
  · rintro ⟨defs, hdefs, hall⟩
    obtain ⟨hsa, hmem⟩ := hsound defs hdefs
    exact ⟨hsa, fun v hv => (hmem v).mp ((hreads defs).mp hall v hv)⟩
  · rintro ⟨hsa, hall⟩
    obtain ⟨defs, hdefs⟩ := hcomplete hsa
    refine ⟨defs, hdefs, (hreads defs).mpr fun v hv => ?_⟩
    exact ((hsound defs hdefs).2 v).mpr (hall v hv)

end MirBackend.Func
