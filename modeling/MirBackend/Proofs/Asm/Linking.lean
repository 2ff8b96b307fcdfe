/-
Linking well-formed builders.

Two facts about the labels make builders link: no name is defined twice, and
every name that an instruction mentions is defined. Then each label gets the
address of its position (`tableOf_spec`), each instruction its number
(`resolveAll_spec`), and there is a program (`link_spec`).

The code generator gives both. A function defines its own name, the labels of
its blocks and fresh labels (`function_labels`); function names are different
and were taken before all others, and names taken stay taken from one function
to the next (`functions_labels`). What instructions name are blocks of the same
function, labels of the same operation, or functions of the module.
-/
import Mathlib
import MirBackend.Proofs.Asm.Labels
import MirBackend.Proofs.Func.Blocks
import MirBackend.Sample

namespace MirBackend.Asm

open Interp (bind_ok_iff)

-- =================================================================== table

/-- The names that a builder defines. -/
def Builder.defs (b : Builder) : List String := b.labels.map (·.name)

namespace Link

variable {t t' : Table} {bs bs' : List Builder}

/-- Every label is listed once, and found by its name. -/
structure Table.Sound (t : Table) : Prop where
  nodup : (t.labels.map (·.name)).Nodup
  address : ∀ n a, t.addresses[n]? = some a ↔ ⟨n, a⟩ ∈ t.labels

/-- No label is placed yet. -/
theorem Table.Sound.empty : Table.Sound {} := ⟨List.nodup_nil, by simp⟩

/-- The names of a sound table are those of its labels. -/
theorem Table.Sound.mem_iff (h : t.Sound) {name : String} :
    name ∈ t.addresses ↔ name ∈ t.labels.map (·.name) := by
  rw [Std.ExtTreeMap.mem_iff_isSome_getElem?,
    Option.isSome_iff_exists, List.mem_map]
  constructor
  · rintro ⟨a, ha⟩
    exact ⟨_, (h.address name a).mp ha, rfl⟩
  · rintro ⟨l, hl, rfl⟩
    exact ⟨l.address, (h.address l.name l.address).mpr hl⟩

/-- A new label is put at the end. -/
theorem Table.Sound.extend (h : t.Sound) {l : Label}
    (hnew : l.name ∉ t.labels.map (·.name)) :
    Table.Sound ⟨t.addresses.insert l.name l.address, t.labels ++ [l]⟩ := by
  refine ⟨?_, fun n a => ?_⟩
  · rw [List.map_append, List.nodup_append]
    refine ⟨h.nodup, List.nodup_singleton _, fun k hk n hn => ?_⟩
    obtain rfl : n = l.name := List.mem_singleton.mp hn
    rintro rfl
    exact hnew hk
  · rw [Std.ExtTreeMap.getElem?_insert, List.mem_append, List.mem_singleton]
    by_cases hn : l.name = n
    · have hnot : ⟨n, a⟩ ∉ t.labels :=
        fun hmem => hnew (hn ▸ List.mem_map_of_mem hmem)
      rw [if_pos (by simpa using hn), Option.some.injEq, or_iff_right hnot]
      constructor
      · rintro rfl
        rw [← hn]
      · intro heq
        rw [← heq]
    · rw [if_neg (by simpa using hn), h.address, or_iff_left]
      exact fun heq => hn (by rw [← heq])

/-- A label is defined if its name is new. -/
theorem Table.Sound.define_ok_iff (h : t.Sound) {l : Label} :
    t.define l.name l.address = .ok t'
    ↔ l.name ∉ t.labels.map (·.name)
      ∧ t' = ⟨t.addresses.insert l.name l.address, t.labels ++ [l]⟩ := by
  rw [Table.define, ← h.mem_iff, ← Std.ExtTreeMap.contains_iff_mem]
  split
  · rename_i hin
    exact ⟨nofun, fun hnot => absurd hin hnot.1⟩
  · rename_i hnot
    rw [Except.ok.injEq]
    exact ⟨fun heq => ⟨hnot, heq.symm⟩, fun heq => heq.2.symm⟩

/-- Labels are defined one after the other exactly if no name comes twice. -/
theorem Table.Sound.define_all (h : t.Sound) (ls : List Label) :
    (∀ t', ls.foldlM (fun t l => t.define l.name l.address) t = .ok t' →
        t'.Sound ∧ t'.labels = t.labels ++ ls)
      ∧ (((t.labels ++ ls).map (·.name)).Nodup →
        ∃ t', ls.foldlM (fun t l => t.define l.name l.address) t = .ok t') := by
  induction ls generalizing t with
  | nil =>
      refine ⟨fun t' ht' => ?_, fun _ => ⟨t, rfl⟩⟩
      cases ht'
      exact ⟨h, (List.append_nil _).symm⟩
  | cons l ls ih =>
      rw [List.foldlM_cons]
      refine ⟨fun t' ht' => ?_, fun hnd => ?_⟩
      · obtain ⟨t₁, ht₁, ht'⟩ := bind_eq_ok.mp ht'
        obtain ⟨hnew, rfl⟩ := h.define_ok_iff.mp ht₁
        obtain ⟨hsound, hlabels⟩ := (ih (h.extend hnew)).1 t' ht'
        exact ⟨hsound, by rw [hlabels, List.append_assoc, List.singleton_append]⟩
      · have hnew : l.name ∉ t.labels.map (·.name) := by
          rw [List.map_append, List.map_cons, List.nodup_middle,
            List.nodup_cons] at hnd
          exact fun hmem => hnd.1 (List.mem_append_left _ hmem)
        obtain ⟨t', ht'⟩ := (ih (h.extend hnew)).2 (by
          rwa [List.append_assoc, List.singleton_append])
        exact ⟨t', by rw [h.define_ok_iff.mpr ⟨hnew, rfl⟩, ok_bind, ht']⟩

/-- The labels that builders define in their code, or in their data, with their
addresses. -/
def labelsFrom (inData : Bool) (size : Builder → Nat) :
    Nat → List Builder → List Label
  | _, [] => []
  | base, b :: bs =>
      (b.labels.filter (·.inData == inData)).map
          (fun l => ⟨l.name, Int32.ofNat base + Int32.ofNat l.position⟩)
        ++ labelsFrom inData size (base + size b) bs

/-- The labels of builders in the order in which they are defined. -/
def labelsOf (bs : List Builder) : List Label :=
  labelsFrom false (·.code.length) 0 bs
    ++ labelsFrom true (·.data.length) (bs.map (·.code.length)).sum bs

/-- Placing builder by builder is placing their labels in one sequence. -/
theorem defineFrom_eq (inData : Bool) (size : Builder → Nat) (base : Nat)
    (bs : List Builder) (t : Table) : defineFrom inData size base bs t
      = (labelsFrom inData size base bs).foldlM
      (fun t l => t.define l.name l.address) t := by
  induction bs generalizing base t with
  | nil => rfl
  | cons b bs ih =>
      rw [defineFrom, labelsFrom, List.foldlM_append,
        List.foldlM_map, Table.defineAll]
      simp only [ih]

/-- The table is filled with the labels of code and data, in this order. -/
theorem tableOf_eq (bs : List Builder) :
    tableOf bs = (labelsOf bs).foldlM
      (fun t l => t.define l.name l.address) {} := by
  rw [tableOf, labelsOf, List.foldlM_append]
  simp only [defineFrom_eq]
  rfl

/-- A label is at its position behind the builders before its own. -/
theorem mem_labelsFrom {inData : Bool} {size : Builder → Nat}
    {base : Nat} {k : Label} :
    k ∈ labelsFrom inData size base bs ↔ ∃ before b behind,
      bs = before ++ b :: behind
      ∧ ∃ l ∈ b.labels, l.inData = inData ∧ k = ⟨l.name,
        Int32.ofNat (base + (before.map size).sum)
            + Int32.ofNat l.position⟩ := by
  induction bs generalizing base with
  | nil => simp [labelsFrom]
  | cons b bs ih =>
      rw [labelsFrom, List.mem_append, ih, List.mem_map]
      constructor
      · rintro (⟨l, hl, rfl⟩ | ⟨before, c, behind, rfl, l, hl, hin, rfl⟩)
        · obtain ⟨hl, hin⟩ := List.mem_filter.mp hl
          exact ⟨[], b, bs, rfl, l, hl, by simpa using hin, rfl⟩
        · refine ⟨b :: before, c, behind, rfl, l, hl, hin, ?_⟩
          rw [List.map_cons, List.sum_cons, Nat.add_assoc]
      · rintro ⟨before, c, behind, hsplit, l, hl, hin, rfl⟩
        cases before with
        | nil =>
            obtain ⟨rfl, rfl⟩ := List.cons.inj hsplit
            exact Or.inl ⟨l, List.mem_filter.mpr ⟨hl, by simpa using hin⟩, rfl⟩
        | cons c₀ before =>
            rw [List.cons_append, List.cons.injEq] at hsplit
            obtain ⟨rfl, hsplit⟩ := hsplit
            refine Or.inr ⟨before, c, behind, hsplit, l, hl, hin, ?_⟩
            rw [List.map_cons, List.sum_cons, Nat.add_assoc]

/-- Where a label of a builder comes to stand, by the builders before it and all
of them. -/
def addressOf (before bs : List Builder) (l : LabelDef) : Int32 :=
  Int32.ofNat (if l.inData
    then (bs.map (·.code.length)).sum + (before.map (·.data.length)).sum
    else (before.map (·.code.length)).sum) + Int32.ofNat l.position

/-- A label of the program is a label of one of the builders, with what stands
before that builder added. -/
theorem mem_labelsOf {k : Label} : k ∈ labelsOf bs
    ↔ ∃ before b behind, bs = before ++ b :: behind
    ∧ ∃ l ∈ b.labels, k = ⟨l.name, addressOf before bs l⟩ := by
  rw [labelsOf, List.mem_append, mem_labelsFrom, mem_labelsFrom]
  constructor
  · rintro (⟨before, b, behind, hsplit, l, hl, hin, rfl⟩
      | ⟨before, b, behind, hsplit, l, hl, hin, rfl⟩)
    · exact ⟨before, b, behind, hsplit, l, hl, by simp [addressOf, hin]⟩
    · exact ⟨before, b, behind, hsplit, l, hl, by simp [addressOf, hin]⟩
  · rintro ⟨before, b, behind, hsplit, l, hl, rfl⟩
    cases hin : l.inData with
    | false => exact Or.inl ⟨before, b, behind, hsplit, l, hl,
      hin, by simp [addressOf, hin]⟩
    | true => exact Or.inr ⟨before, b, behind, hsplit, l, hl,
      hin, by simp [addressOf, hin]⟩

/-- The names of all labels, those in code before those in data. -/
theorem map_name_labelsOf (bs : List Builder) :
    ((labelsOf bs).map (·.name)).Perm (bs.flatMap Builder.defs) := by
  have hnames (inData : Bool) (size : Builder →
      Nat) (base : Nat) (bs : List Builder) :
      (labelsFrom inData size base bs).map (·.name)
        = bs.flatMap fun b =>
        (b.labels.filter (·.inData == inData)).map (·.name) := by
    induction bs generalizing base with
    | nil => rfl
    | cons b bs ih =>
        rw [labelsFrom, List.map_append, ih, List.map_map, List.flatMap_cons]
        rfl
  rw [labelsOf, List.map_append, hnames, hnames]
  refine (List.flatMap_append_perm bs _ _).trans ?_
  refine List.Perm.flatMap_left _ fun b _ => ?_
  rw [← List.map_append]
  refine List.Perm.map _ (List.Perm.trans (List.Perm.of_eq ?_)
    (List.filter_append_perm (fun l : LabelDef => l.inData == false) b.labels))
  congr 1
  refine List.filter_congr fun l _ => ?_
  cases l.inData <;> rfl

/-- Labels have a table exactly if they are all different. -/
theorem tableOf_ok_iff : (∃ t, tableOf bs = .ok t)
    ↔ (bs.flatMap Builder.defs).Nodup := by
  obtain ⟨hthen, hall⟩ := Table.Sound.empty.define_all (labelsOf bs)
  rw [tableOf_eq, ← (map_name_labelsOf bs).nodup_iff]
  constructor
  · rintro ⟨t, ht⟩
    obtain ⟨hsound, hlabels⟩ := hthen t ht
    have := hsound.nodup
    rwa [hlabels, List.nil_append] at this
  · exact fun hnd => hall (by rwa [List.nil_append])

/-- A table has every label with its address, and no others. -/
theorem sound_of_tableOf (h : tableOf bs = .ok t) :
    t.Sound ∧ t.labels = labelsOf bs := by
  rw [tableOf_eq] at h
  exact (Table.Sound.empty.define_all (labelsOf bs)).1 t h

/-- Labels that are all different have a table with the address of every one. -/
theorem tableOf_spec (hnd : (bs.flatMap Builder.defs).Nodup) :
    ∃ t, tableOf bs = .ok t ∧ ∀ before b behind,
      bs = before ++ b :: behind → ∀ l ∈ b.labels,
      t.addresses[l.name]? = some (addressOf before bs l) := by
  obtain ⟨t, ht⟩ := tableOf_ok_iff.mpr hnd
  obtain ⟨hsound, hlabels⟩ := sound_of_tableOf ht
  refine ⟨t, ht, fun before b behind hsplit l hl => (hsound.address _ _).mpr ?_⟩
  rw [hlabels]
  exact mem_labelsOf.mpr ⟨before, b, behind, hsplit, l, hl, rfl⟩

-- ============================================================== resolution

/-- Code whose labels are all defined is resolved, instruction by
instruction. -/
theorem resolveCode_spec {xs : List Insn} {pc : Nat}
    (h : ∀ x ∈ xs, ∀ n, x.imm = .label n → ∃ a, t.addresses[n]? = some a) :
    ∃ ys, resolveCode t pc xs = (ys, none) ∧ ys.length = xs.length
      ∧ ∀ i x, xs[i]? = some x → ∃ y, ys[i]? = some y ∧ resolve t
      (pc + i) x = .ok y := by
  induction xs generalizing pc with
  | nil => exact ⟨[], rfl, rfl, by simp⟩
  | cons x xs ih =>
      obtain ⟨y, hy⟩ : ∃ y, resolve t pc x = .ok y := by
        rw [resolve]
        cases himm : x.imm with
        | literal n name => exact ⟨x, rfl⟩
        | label n =>
            obtain ⟨a, ha⟩ := h x List.mem_cons_self n himm
            dsimp only
            rw [ha]
            exact ⟨_, rfl⟩
      obtain ⟨ys, hys, hlen, hall⟩ := ih fun x hx =>
        h x (List.mem_cons_of_mem _ hx)
      refine ⟨y :: ys, ?_, by rw [List.length_cons, List.length_cons, hlen],
        fun i z hz => ?_⟩
      · rw [resolveCode, hy]
        dsimp only
        rw [hys]
      · cases i with
        | zero =>
            rw [List.getElem?_cons_zero, Option.some.injEq] at hz
            subst hz
            exact ⟨y, rfl, hy⟩
        | succ i =>
            obtain ⟨w, hw, hres⟩ := hall i z (by simpa using hz)
            refine ⟨w, by simpa using hw, ?_⟩
            rw [show pc + (i + 1) = pc + 1 + i by omega]
            exact hres

/-- Builders and what they are after resolution, the first at an address. -/
inductive Resolved (t : Table) : Nat → List Builder → List Builder → Prop where
  | done (pc : Nat) : Resolved t pc [] []
  | next {pc : Nat} {b : Builder} {code : List Insn} {bs bs' : List Builder}
      (here : resolveCode t pc b.code = (code, none))
      (same : code.length = b.code.length)
      (rest : Resolved t (pc + code.length) bs bs') :
      Resolved t pc (b :: bs) ({ b with code } :: bs')

/-- Resolving keeps the builders in number. -/
theorem Resolved.length_eq {pc : Nat} (h : Resolved t pc bs bs') :
    bs'.length = bs.length := by
  induction h with
  | done pc => rfl
  | next _ _ _ ih => rw [List.length_cons, List.length_cons, ih]

/-- Builders whose labels are all defined are resolved one after the other. -/
theorem resolveAll_spec (done : List Builder) {pc : Nat}
    (h : ∀ b ∈ bs, ∀ x ∈ b.code, ∀ n, x.imm = .label n →
      ∃ a, t.addresses[n]? = some a) :
    ∃ bs', resolveAll t pc (List.range' done.length bs.length)
      (done ++ bs) = (done ++ bs', none)
      ∧ Resolved t pc bs bs' := by
  induction bs generalizing done pc with
  | nil => exact ⟨[], rfl, .done pc⟩
  | cons b bs ih =>
      obtain ⟨code, hcode, hlen, -⟩ := resolveCode_spec (t := t)
        (h b List.mem_cons_self)
      obtain ⟨bs', hrest, hres⟩ := ih (done ++ [{ b with code }]) fun c hc =>
        h c (List.mem_cons_of_mem _ hc)
      refine ⟨{ b with code } :: bs', ?_, .next hcode hlen hres⟩
      have hget : (done ++ b :: bs).getD done.length default = b := by simp
      have hset : (done ++ b :: bs).set done.length { b with code }
          = (done ++ [{ b with code }]) ++ bs := by simp
      rw [List.length_cons, List.range'_succ, resolveAll, hget, hcode]
      dsimp only
      rw [hset]
      simpa using hrest

end Link

/-- Builders listed by their places. -/
theorem filterMap_range_getElem? (bs : List Builder) :
    (List.range bs.length).filterMap (bs[·]?) = bs := by
  refine List.ext_getElem? fun i => ?_
  have hall : (List.range bs.length).filterMap (bs[·]?)
      = (List.range bs.length).map
      fun i => bs.getD i default := by
    rw [← List.filterMap_eq_map]
    refine List.filterMap_congr fun i hi => ?_
    have := List.mem_range.mp hi
    simp [this]
  rw [hall, List.getElem?_map]
  by_cases hi : i < bs.length
  · simp [hi]
  · simp [hi]

/-- Builders that define no name twice and name only what one of them defines
are linked. -/
theorem link_spec {bs : List Builder} (hnd : (bs.flatMap Builder.defs).Nodup)
    (hnamed : ∀ b ∈ bs, ∀ x ∈ b.code, ∀ n, x.imm = .label n →
      n ∈ bs.flatMap Builder.defs) :
    ∃ t bs', Link.tableOf bs = .ok t ∧ Link.Resolved t 0 bs bs'
      ∧ link bs = .ok (Link.assemble t bs') := by
  obtain ⟨t, ht, haddress⟩ := Link.tableOf_spec hnd
  have hdefined : ∀ b ∈ bs, ∀ x ∈ b.code, ∀ n, x.imm = .label n →
      ∃ a, t.addresses[n]? = some a := by
    intro b hb x hx n hn
    obtain ⟨c, hc, hmem⟩ := List.mem_flatMap.mp (hnamed b hb x hx n hn)
    obtain ⟨l, hl, rfl⟩ := List.mem_map.mp hmem
    obtain ⟨before, behind, hsplit⟩ := List.append_of_mem hc
    exact ⟨_, haddress before c behind hsplit l hl⟩
  obtain ⟨bs', hall, hres⟩ := Link.resolveAll_spec [] hdefined
  refine ⟨t, bs', ht, hres, ?_⟩
  rw [List.length_nil, List.nil_append, List.nil_append,
    ← List.range_eq_range'] at hall
  rw [link, linkPool, filterMap_range_getElem?, ht]
  dsimp only
  rw [hall]
  dsimp only
  rw [← hres.length_eq, filterMap_range_getElem?]

-- =============================================================== functions

namespace Generator

variable {m : Module} {f : Func} {b b' : Builder} {u : Unit}
  {refs : String → Prop}

/-- A block defines its label, fresh ones, and names the labels it may. -/
theorem block_emits {x : Scope} (hcalls : ∀ g ∈ x.module.functions, refs g.name)
    (hlabels : ∀ n ∈ x.labels, refs n) {blk : Block} {name : String}
    (h : block x blk name b = .ok u b') : Emits refs [name] b b' := by
  obtain ⟨_, b₁, h₁, h⟩ := bind_ok_iff.mp h
  obtain ⟨_, b₂, h₂, h⟩ := bind_ok_iff.mp h
  have hR := Emits.closed hcalls
  exact ((Emits.label h₁).trans (hR.instrs x rfl _ _ _ _ h₂)).trans
    (hR.term x hlabels _ _ _ _ (under_ok_iff.mp h))

/-- Blocks define their labels. -/
theorem blocks_emits {x : Scope}
    (hcalls : ∀ g ∈ x.module.functions, refs g.name)
    (hlabels : ∀ n ∈ x.labels, refs n) {ids : List BlockId}
    (h : blocks x ids b = .ok u b') :
    Emits refs (ids.map fun id => x.labels.getD id.toNat "") b b'
      ∧ ∀ id ∈ ids, ∃ blk, x.func.block? id = some blk := by
  induction ids generalizing b with
  | nil =>
      cases h
      exact ⟨.refl refs _, by simp⟩
  | cons id ids ih =>
      obtain ⟨blk, b₁, h₁, h⟩ := bind_ok_iff.mp h
      obtain ⟨hblk, rfl⟩ := need_ok_iff.mp h₁
      obtain ⟨name, b₂, h₂, h⟩ := bind_ok_iff.mp h
      obtain ⟨hname, rfl⟩ := need_ok_iff.mp h₂
      obtain ⟨_, b₃, h₃, h⟩ := bind_ok_iff.mp h
      obtain ⟨hrest, hthere⟩ := ih h
      have hfirst : Emits refs [name] b b₃ :=
        block_emits (x := { x with next := ids.headD noBlock }) hcalls hlabels
          (under_ok_iff.mp h₃)
      refine ⟨?_, fun i hi => ?_⟩
      · have hget : x.labels.getD id.toNat "" = name := by
          rw [List.getD_eq_getElem?_getD, hname, Option.getD_some]
        rw [List.map_cons, hget]
        exact hfirst.trans hrest
      · rcases List.mem_cons.mp hi with rfl | hi
        · exact ⟨blk, hblk⟩
        · exact hthere i hi

/-- Every block comes once. -/
theorem blockOrder_perm (h : f.hasBlock f.entry = true) :
    (blockOrder f).Perm ((List.range f.blocks.length).map Int.ofNat) := by
  obtain ⟨e, he, hlt⟩ := Func.hasBlock_iff.mp h
  have hnd : ((List.range f.blocks.length).map Int.ofNat).Nodup :=
    List.nodup_range.map fun i j hij => Int.ofNat.inj hij
  have hmem : f.entry ∈ (List.range f.blocks.length).map Int.ofNat := by
    rw [he]
    exact List.mem_map_of_mem (List.mem_range.mpr hlt)
  rw [blockOrder]
  have herase :
      ((List.range f.blocks.length).map Int.ofNat).filter (· ≠ f.entry)
      = ((List.range f.blocks.length).map Int.ofNat).erase f.entry := by
    rw [hnd.erase_eq_filter]
    refine List.filter_congr fun i _ => ?_
    simp [bne, Bool.beq_eq_decide_eq]
  rw [herase]
  exact (List.perm_cons_erase hmem).symm

/-- A list is what its places hold. -/
theorem map_getD_range (names : List String) :
    (List.range names.length).map (fun i => names.getD i "") = names := by
  refine List.ext_getElem? fun i => ?_
  rw [List.getElem?_map]
  by_cases hi : i < names.length <;> simp [hi]

/-- The parts of a function that was generated. -/
structure Parts (m : Module) (f : Func) (b : Builder) (b' : Builder) where
  layout : Layout
  bs : List Block
  static : Std.ExtTreeMap ValueId Int32
  labels : List String
  /-- The builder in which the labels of the blocks are taken. -/
  labelled : Builder
  last : Layout
  hlayout : b.layout = some layout
  hbs : f.blocks.mapM id = some bs
  hstatic : staticAddresses layout (bs.flatMap (·.instrs)) = .ok static
  hlabels : (bs.zipIdx.mapM fun (blk, i) => blockLabel f blk i :
      Emit (List String)) b
    = .ok labels labelled
  hblocks : blocks { module := m, func := f, static, labels } (blockOrder f)
    { labelled with labels := labelled.labels ++ [⟨f.name, false, labelled.code.length⟩] }
      = .ok () b'
  hlast : b'.layout = some last
  fits : ¬ last.frameSize > Layout.maxFrame

/-- A function that is generated has its parts. -/
theorem body_parts (h : body m f b = .ok u b') : Nonempty (Parts m f b b') := by
  obtain ⟨_, b₁, h₁, h⟩ := bind_ok_iff.mp h
  cases h₁
  obtain ⟨l, b₂, h₂, h⟩ := bind_ok_iff.mp h
  obtain ⟨hl, rfl⟩ := need_ok_iff.mp h₂
  obtain ⟨bs, b₃, h₃, h⟩ := bind_ok_iff.mp h
  obtain ⟨hbs, rfl⟩ := need_ok_iff.mp h₃
  cases hstatic : staticAddresses l (bs.flatMap (·.instrs)) with
  | error c =>
    rw [hstatic] at h
    obtain ⟨_, b₄, h₄, h⟩ := bind_ok_iff.mp h
    exact absurd h₄ failWith_ne_ok
  | ok static =>
    rw [hstatic] at h
    obtain ⟨_, b₄, h₄, h⟩ := bind_ok_iff.mp h
    cases h₄
    obtain ⟨labels, b₅, h₅, h⟩ := bind_ok_iff.mp h
    obtain ⟨_, b₆, h₆, h⟩ := bind_ok_iff.mp h
    cases h₆
    obtain ⟨_, b₇, h₇, h⟩ := bind_ok_iff.mp h
    obtain ⟨_, b₈, h₈, h⟩ := bind_ok_iff.mp h
    cases h₈
    obtain ⟨l', b₉, h₉, h⟩ := bind_ok_iff.mp h
    obtain ⟨hl', rfl⟩ := need_ok_iff.mp h₉
    split at h
    · exact absurd h failWith_ne_ok
    · rename_i hfits
      cases h
      exact ⟨⟨l, bs, static, labels, b₅, l', hl, hbs, hstatic,
        h₅, h₇, hl', hfits⟩⟩

/-- No place is vacant. -/
theorem blocks_eq_map {bs : List Block} (h : f.blocks.mapM id = some bs) :
    f.blocks = bs.map some := by
  have hall : ∀ (os : List (Option Block)) (bs : List Block),
      os.mapM id = some bs →
      os = bs.map some := by
    intro os
    induction os with
    | nil =>
        intro bs h
        cases h
        rfl
    | cons o os ih =>
        intro bs h
        rw [List.mapM_cons] at h
        obtain ⟨b, hb, h⟩ := Option.bind_eq_some_iff.mp h
        obtain ⟨rest, hrest, h⟩ := Option.bind_eq_some_iff.mp h
        cases h
        rw [List.map_cons, ← ih rest hrest]
        exact congrArg (· :: os) hb
  exact hall _ _ h

/-- Each block has a label. -/
theorem Parts.length_labels (p : Parts m f b b') :
    p.labels.length = f.blocks.length := by
  have hlen := length_of_mapM p.hlabels
  rw [List.length_zipIdx] at hlen
  rw [hlen, blocks_eq_map p.hbs, List.length_map]

/-- The labels of the blocks in the order in which the blocks come are all of
them. -/
theorem Parts.labels_perm (p : Parts m f b b')
    (hentry : f.hasBlock f.entry = true) :
    ((blockOrder f).map fun id => p.labels.getD id.toNat "").Perm p.labels := by
  refine ((blockOrder_perm hentry).map _).trans (List.Perm.of_eq ?_)
  rw [List.map_map, ← p.length_labels]
  exact map_getD_range p.labels

/-- A function defines its own name and fresh labels, and names those and
functions. -/
theorem body_emits (hcalls : ∀ g ∈ m.functions, refs g.name)
    (h : body m f b = .ok u b') : Emits refs [f.name] b b' := by
  intro names hb
  obtain ⟨p⟩ := body_parts h
  obtain ⟨hblocks, hthere⟩ := blocks_emits
    (fun g hg => Or.inl (hcalls g hg)) (fun n hn => Or.inr hn) p.hblocks
  obtain ⟨blk, hentry⟩ := hthere f.entry List.mem_cons_self
  exact Emits.adopt (Claims.blockLabels hb p.hlabels)
    ((Emits.definition _ p.labelled _).trans
      (hblocks.perm (p.labels_perm (Func.hasBlock_of_block? hentry)))) names hb

-- ================================================================= modules

/-- Builders of functions, the names taken handed from one to the next. -/
inductive Generated (m : Module) : List Func → Names → List Builder → Prop where
  | done (names : Names) : Generated m [] names []
  | next {f : Func} {fs : List Func} {names : Names} {b : Builder}
      {bs : List Builder}
      (here : function m names f = .ok b) (rest :
          Generated m fs (b.taken.getD names) bs) :
      Generated m (f :: fs) names (b :: bs)

/-- Functions are generated in order, each with the names that those before it
left. -/
theorem functions_eq_ok {fs : List Func} {names : Names} {bs : List Builder} :
    functions m fs names = .ok bs ↔ Generated m fs names bs := by
  induction fs generalizing names bs with
  | nil =>
      constructor
      · intro h
        cases h
        exact .done names
      · intro h
        cases h
        rfl
  | cons f fs ih =>
      constructor
      · intro h
        obtain ⟨b, hb, h⟩ := bind_eq_ok.mp h
        obtain ⟨rest, hrest, h⟩ := bind_eq_ok.mp h
        cases h
        exact .next (mapError_eq_ok.mp hb) (ih.mp hrest)
      · intro h
        cases h with
        | next hb hrest =>
            rw [functions, mapError_eq_ok.mpr hb, ok_bind,
              ih.mpr hrest, ok_bind]
            rfl

/-- The builder of a function before anything is emitted. -/
def emptyBuilder (f : Func) (l : Layout) (names : Names) : Builder :=
  { func := f.name, layout := some l, taken := some names,
    args := slotCounts (f.params.map l.slots), returns :=
      slotCounts (f.returns.map Ty.slots) }

/-- How a function was generated. -/
theorem function_body {names : Names} (h : function m names f = .ok b) :
    ∃ l, Layout.compute f = .ok l ∧ body m f
      (emptyBuilder f l names) = .ok () b := by
  obtain ⟨phis, -, h⟩ := bind_eq_ok.mp h
  dsimp only at h
  split at h
  · cases h
  · obtain ⟨l, hl, h⟩ := bind_eq_ok.mp h
    split at h
    · rename_i hbody
      cases h
      exact ⟨l, mapError_eq_ok.mp hl, hbody⟩
    · cases h

/-- The labels of one function. -/
theorem function_labels {names : Names}
    (hcalls : ∀ g ∈ m.functions, refs g.name) (h : function m names f = .ok b) :
    ∃ names', b.taken = some names' ∧ Adds refs
      [f.name] names names' b.code b.defs := by
  obtain ⟨l, -, hbody⟩ := function_body h
  obtain ⟨names', code, defs, htaken, hcode, hlabels, hadds⟩ :=
    body_emits hcalls hbody names rfl
  refine ⟨names', htaken, ?_⟩
  rw [hcode, Builder.defs, hlabels]
  exact hadds

/-- The labels of functions one after the other: their names and fresh ones. -/
theorem functions_labels {fs : List Func} {names : Names} {bs : List Builder}
    (hcalls : ∀ g ∈ m.functions, refs g.name) (h : Generated m fs names bs) :
    (∃ fresh : List String,
      (bs.flatMap Builder.defs).Perm (fs.map (·.name) ++ fresh)
        ∧ fresh.Nodup ∧ ∀ n ∈ fresh, n ∉ names)
      ∧ ∀ b ∈ bs, ∀ x ∈ b.code, ∀ n, x.imm = .label n →
      refs n ∨ n ∈ bs.flatMap Builder.defs := by
  induction h with
  | done names => exact ⟨⟨[], List.Perm.nil, List.nodup_nil, by simp⟩, by simp⟩
  | @next f fs names b bs hb hrest ih =>
      obtain ⟨names', htaken, hadds⟩ := function_labels hcalls hb
      rw [htaken, Option.getD_some] at ih
      obtain ⟨fresh₁, hperm₁, hnd₁, hnew₁⟩ := hadds.fresh
      obtain ⟨⟨fresh₂, hperm₂, hnd₂, hnew₂⟩, hnamed⟩ := ih
      refine ⟨⟨fresh₁ ++ fresh₂, ?_, ?_, fun n hn => ?_⟩,
        fun c hc x hx n hn => ?_⟩
      · rw [List.flatMap_cons, List.map_cons]
        refine (hperm₁.append hperm₂).trans ?_
        rw [List.append_assoc, List.singleton_append, List.cons_append]
        refine List.Perm.cons _ ?_
        rw [← List.append_assoc, ← List.append_assoc]
        exact List.Perm.append_right _ List.perm_append_comm
      · refine List.nodup_append.mpr ⟨hnd₁, hnd₂, fun k hk n hn hkn => ?_⟩
        exact hnew₂ n hn (hkn ▸ (hnew₁ k hk).2)
      · rcases List.mem_append.mp hn with hn | hn
        · exact (hnew₁ n hn).1
        · exact fun hmem => hnew₂ n hn (hadds.kept n hmem)
      · rw [List.flatMap_cons, List.mem_append]
        rcases List.mem_cons.mp hc with rfl | hc
        · exact (hadds.named x hx n hn).imp_right Or.inl
        · exact (hnamed c hc x hx n hn).imp_right Or.inr

/-- The name of a function is taken from the start. -/
theorem mem_initialLabels {g : Func} (hg : g ∈ m.functions) :
    g.name ∈ initialLabels m := by
  have hgrow : ∀ (fs : List Func) (names : Names),
      (∀ n ∈ names, n ∈ fs.foldl (fun s f => s.insert f.name) names)
      ∧ ∀ f ∈ fs, f.name ∈ fs.foldl (fun s f => s.insert f.name) names := by
    intro fs
    induction fs with
    | nil => exact fun names => ⟨fun _ h => h, by simp⟩
    | cons f fs ih =>
        intro names
        rw [List.foldl_cons]
        obtain ⟨hkept, hthere⟩ := ih (names.insert f.name)
        refine ⟨fun n hn => hkept n (Std.ExtTreeSet.mem_insert.mpr (Or.inr hn)),
          fun k hk => ?_⟩
        rcases List.mem_cons.mp hk with rfl | hk
        · exact hkept _ Std.ExtTreeSet.mem_insert_self
        · exact hthere k hk
  exact (hgrow m.functions ∅).2 g hg

/-- Functions with different names define no label twice, and name only what is
defined. -/
theorem generated_links {bs : List Builder}
    (hnames : (m.functions.map (·.name)).Nodup)
    (h : Generated m m.functions (initialLabels m) bs) :
    (bs.flatMap Builder.defs).Nodup
      ∧ ∀ b ∈ bs, ∀ x ∈ b.code, ∀ n, x.imm = .label n →
      n ∈ bs.flatMap Builder.defs := by
  obtain ⟨⟨fresh, hperm, hnd, hnew⟩, hnamed⟩ := functions_labels
    (fun g hg => List.mem_map_of_mem hg) h
  refine ⟨?_, fun b hb x hx n hn => ?_⟩
  · rw [hperm.nodup_iff]
    refine List.nodup_append.mpr ⟨hnames, hnd, fun k hk n hn hkn => ?_⟩
    obtain ⟨g, hg, rfl⟩ := List.mem_map.mp hk
    exact hnew n hn (hkn ▸ mem_initialLabels hg)
  · rcases hnamed b hb x hx n hn with hfunc | hdef
    · exact hperm.mem_iff.mpr (List.mem_append_left _ hfunc)
    · exact hdef

end Generator

-- ================================================================== result

/-- A module whose functions have different names and are all generated is
linked. The searches for labels find the first free name and need no bound; no
label is defined twice, and every label that an instruction names is defined; so
there is a program. -/
theorem generate_links {m : Module} (hnames : (m.functions.map (·.name)).Nodup)
    {bs : List Builder}
    (hfirst : Generator.functions m m.functions (Generator.initialLabels m)
      = .ok bs)
    (metadata : Metadata) :
    (∀ (b : Builder) names, b.taken = some names →
      (∀ stem, ∃ k, FirstFree names (b.candidate stem) k
        ∧ Builder.newLabel stem b
        = .ok (b.candidate stem k)
            { b with taken := some (names.insert (b.candidate stem k)),
                     counter := b.counter + k + 1 })
      ∧ ∀ (f : Func) blk i, ∃ name,
        Generator.blockLabel f blk i b = .ok name
          (b.taking names name) ∧ name ∉ names
        ∧ (name = f.name ++ "_" ++ blk.name ∧ blk.name.isEmpty = false
          ∨ ((blk.name.isEmpty = true ∨ f.name ++ "_" ++ blk.name ∈ names)
            ∧ ∃ k, FirstFree names
                (Generator.numbered (f.name ++ "_" ++ blk.name
                  ++ "_" ++ toString i)) k
              ∧ name
                = Generator.numbered
                (f.name ++ "_" ++ blk.name ++ "_" ++ toString i) k)))
    ∧ (bs.flatMap Builder.defs).Nodup
    ∧ (∀ b ∈ bs, ∀ x ∈ b.code, ∀ n, x.imm = .label n →
      n ∈ bs.flatMap Builder.defs)
    ∧ ∃ p, generate m metadata = .ok p := by
  obtain ⟨hnd, hnamed⟩ :=
    Generator.generated_links hnames (Generator.functions_eq_ok.mp hfirst)
  obtain ⟨t, bs', -, -, hlink⟩ := link_spec hnd hnamed
  refine ⟨fun b names hb =>
    ⟨fun stem => Builder.newLabel_eq stem hb, fun f blk i =>
    Generator.blockLabel_eq f blk i hb⟩, hnd, hnamed,
      { Link.assemble t bs' with metadata }, ?_⟩
  rw [generate, hfirst, ok_bind, hlink]
  rfl

/-- A test of its argument, under some name. -/
def testNamed (name : String) : Func := Sample.build name [.felt] do
  let x ← Sample.param
  let y ← Draft.binary .eq (.value x) (.int 3)
  Draft.ret [.value y]

/-- Functions whose names are the labels that the first of them would like to
have. -/
def clashing : Module :=
  ⟨[testNamed "f", testNamed "f_entry", testNamed "f_entry_0",
  testNamed "f.nz0"]⟩

/-- A module made to clash: the label of a block has the name that a fresh label
would have had, and both functions have blocks of the same name. -/
theorem generate_links_clashing :
    (clashing.functions.map (·.name)).Nodup
    ∧ ∃ bs, Generator.functions clashing clashing.functions
        (Generator.initialLabels clashing)
        = .ok bs
      ∧ (bs.map Builder.defs).head? = some ["f", "f_entry_0_1",
        "f.nz1", "f.end2"]
      ∧ (bs.flatMap Builder.defs).Nodup ∧ ∃ p,
      generate clashing {} = .ok p := by
  have hnames : (clashing.functions.map (·.name)).Nodup := by decide
  have hrun : (Generator.functions clashing clashing.functions
      (Generator.initialLabels clashing)).toOption.map
        (fun bs => (bs.map Builder.defs).head?)
        = some (some ["f", "f_entry_0_1", "f.nz1", "f.end2"]) := by
          decide +kernel
  obtain ⟨bs, hbs, hhead⟩ := Option.map_eq_some_iff.mp hrun
  cases hfirst : Generator.functions clashing clashing.functions
      (Generator.initialLabels clashing) with
  | error e =>
      rw [hfirst] at hbs
      cases hbs
  | ok bs' =>
      rw [hfirst] at hbs
      cases hbs
      obtain ⟨-, hnd, -, hprogram⟩ := generate_links hnames hfirst {}
      exact ⟨hnames, bs, rfl, hhead, hnd, hprogram⟩

end MirBackend.Asm
