/-
Labels of generated programs in the order of their addresses.

A label is defined at the end of what was emitted so far, so a builder has the
labels of its code in the order of their positions, and so the labels of its
data; no position is past the end. Linking puts builders behind each other, and
all data behind all code, and defines the labels of code before those of data:
so labels are listed by their addresses (`labelsOf_pairwise`), and the listing
of a program has each of them where it belongs.

What emission keeps to is one fact about builders (`Tidy`). It says of names,
too, that those taken stay on one line if the name of the function does; labels
are among the names taken.
-/
import Mathlib
import MirBackend.Proofs.Asm.Addresses
import MirBackend.Proofs.Asm.Listing
import MirBackend.Sample

namespace MirBackend.Asm

open Interp (bind_ok_iff)

variable {α : Type} {b b' : Builder} {bs bs' : List Builder}
  {m : Module} {f : Func} {names : Names} {u : Unit} {p : Program}

-- ================================================================ builders

/-- The labels of a builder in its code, or in its data, as they were
defined. -/
def Builder.marks (b : Builder) (inData : Bool) : List LabelDef :=
  b.labels.filter (·.inData == inData)

/-- A builder as emission leaves it: positions of labels do not go back and are
not past the end, names taken stay on one line, and instructions are as
selection writes them. -/
structure Builder.Tidy (b : Builder) : Prop where
  ascending : ∀ inData, (b.marks inData).Pairwise fun k l =>
    k.position ≤ l.position
  placed : b.Placed
  func : OneLine b.func
  taken : ∀ names, b.taken = some names → ∀ n ∈ names, OneLine n
  code : ∀ x ∈ b.code, x.Selected fun _ => True

/-- The labels that a builder defines and those that its code names stay on one
line. -/
def Builder.Readable (b : Builder) : Prop :=
  (∀ n ∈ b.defs, OneLine n) ∧ ∀ x ∈ b.code, ∀ n, x.imm = .label n → OneLine n

namespace Builder.Tidy

/-- Code and data grow behind the labels. -/
theorem grow (h : b.Tidy) (code : List Insn) (data : List Int32)
    (hcode : ∀ x ∈ code, x.Selected fun _ => True) :
    Tidy { b with code := b.code ++ code, data := b.data ++ data } := by
  refine ⟨h.ascending, fun l hl => (h.placed l hl).trans ?_, h.func,
    h.taken, fun x hx => ?_⟩
  · dsimp only
    rw [List.length_append, List.length_append]
    split <;> omega
  · exact (List.mem_append.mp hx).elim (h.code x) (hcode x)

/-- A label is defined at the end. -/
theorem define (h : b.Tidy) (name : String) (inData : Bool) :
    Tidy { b with labels := b.labels
      ++ [⟨name, inData, if inData then b.data.length else b.code.length⟩]
          } := by
  refine ⟨fun kind => ?_, fun l hl => ?_, h.func, h.taken, h.code⟩
  · rw [marks, List.filter_append, List.pairwise_append]
    refine ⟨h.ascending kind, ?_, fun k hk l hl => ?_⟩
    · exact (List.pairwise_singleton _ _).filter _
    · obtain ⟨hk, hkind⟩ := List.mem_filter.mp hk
      obtain ⟨hl, hsame⟩ := List.mem_filter.mp hl
      obtain rfl := List.mem_singleton.mp hl
      have hplace := h.placed k hk
      obtain rfl := beq_iff_eq.mp hsame
      rwa [beq_iff_eq.mp hkind] at hplace
  · rcases List.mem_append.mp hl with hl | hl
    · exact h.placed l hl
    · rw [List.mem_singleton.mp hl]

/-- A name is taken. -/
theorem take (h : b.Tidy) {name : String} (hname : OneLine name) (counter : Nat)
    (htaken : b.taken = some names) :
    Tidy { b with taken := some (names.insert name), counter } := by
  refine ⟨h.ascending, h.placed, h.func, ?_, h.code⟩
  rintro _ ⟨⟩ n hn
  rcases Std.ExtTreeSet.mem_insert.mp hn with heq | hn
  · rwa [← Std.LawfulEqCmp.eq_of_compare heq]
  · exact h.taken names htaken n hn

/-- A builder stays tidy when it takes a name of one line. -/
theorem claim (h : b.Tidy) {name : String} (hname : OneLine name) {c : Bool}
    (hclaim : Builder.claim name b = .ok c b') : b'.Tidy := by
  cases htaken : b.taken with
  | none =>
      rw [Builder.claim, htaken] at hclaim
      cases hclaim
      exact h
  | some names =>
      by_cases hin : name ∈ names
      · rw [Builder.claim_taken htaken hin] at hclaim
        cases hclaim
        exact h
      · rw [Builder.claim_free htaken hin] at hclaim
        cases hclaim
        exact h.take hname b.counter htaken

/-- So it does when it looks for a free one: the names it tries are the stem and
numbers. -/
theorem freshLabel {stem name : String} (hstem : OneLine stem)
    {fuel : Nat} (h : b.Tidy)
    (hfresh : Builder.freshLabel stem fuel b = .ok name b') : b'.Tidy := by
  induction fuel generalizing b with
  | zero =>
      cases hfresh
      exact h
  | succ fuel ih =>
      obtain ⟨_, b₁, h₁, hfresh⟩ := bind_ok_iff.mp hfresh
      cases h₁
      obtain ⟨_, b₂, h₂, hfresh⟩ := bind_ok_iff.mp hfresh
      cases h₂
      obtain ⟨free, b₃, h₃, hfresh⟩ := bind_ok_iff.mp hfresh
      have hcounted : Tidy { b with counter := b.counter + 1 } :=
        ⟨h.ascending, h.placed, h.func, h.taken, h.code⟩
      have hclaimed : b₃.Tidy := hcounted.claim (by
        simp +decide only [oneLine_append, h.func, hstem,
          oneLine_nat, and_self]) h₃
      split at hfresh
      · cases hfresh
        exact hclaimed
      · exact ih hclaimed hfresh

/-- Tidiness is kept by every routine that selection calls. -/
theorem labelling : Labelling fun b b' => b.Tidy → b'.Tidy where
  refl _ h := h
  trans _ _ _ h h' := h' ∘ h
  emit b x hx h := by
    have := h.grow [x] [] fun y hy => List.mem_singleton.mp hy ▸ hx
    rwa [List.append_nil] at this
  newLabel stem hstem b name b' hnew h := by
    obtain ⟨_, b₁, h₁, hnew⟩ := bind_ok_iff.mp hnew
    cases h₁
    exact h.freshLabel ((by decide : ∀ stem ∈ stems, OneLine stem) stem hstem)
      hnew
  label name b u b' hlabel h := by
    cases hlabel
    exact h.define name false
  dataLabel name b u b' hlabel h := by
    cases hlabel
    exact h.define name true
  pushData vs b u b' hpush h := by
    cases hpush
    have := h.grow [] vs nofun
    rwa [List.append_nil] at this

/-- What selection emits leaves a builder tidy. -/
theorem closed (m : Module) :
    Closed m (fun _ => True) fun b b' => b.Tidy → b'.Tidy :=
  labelling.closed { labelling.toPlain with
    reserve := fun _ _ _ _ h => ⟨h.ascending, h.placed, h.func,
      h.taken, h.code⟩ } m

end Builder.Tidy

-- =============================================================== functions

/-- The names of a function and of its blocks stay on one line. -/
def Legible (f : Func) : Prop := OneLine f.name
    ∧ ∀ o ∈ f.blocks, ∀ blk ∈ o, OneLine blk.name

-- The condition on the names of a function is looked at name by name.
instance (f : Func) : Decidable (Legible f) := by unfold Legible; infer_instance

namespace Generator

/-- A block's label is one line if the names of function and block are. -/
theorem blockLabel_tidy {blk : Block} {i : Nat} {name : String}
    (hf : OneLine f.name) (hblk : OneLine blk.name)
    (hb : b.taken = some names) (h : b.Tidy)
    (hlabel : blockLabel f blk i b = .ok name b') :
    b'.Tidy ∧ b'.taken = some (names.insert name) := by
  obtain ⟨name', heq, -, hname⟩ := blockLabel_eq f blk i hb
  rw [hlabel] at heq
  cases heq
  refine ⟨h.take ?_ b.counter hb, rfl⟩
  have hplain : OneLine (f.name ++ "_" ++ blk.name) := by
    simp +decide only [oneLine_append, hf, hblk, and_self]
  rcases hname with ⟨rfl, -⟩ | ⟨-, k, -, rfl⟩
  · exact hplain
  · cases k <;> simp +decide only [numbered, oneLine_append, hplain,
      oneLine_nat, and_self]

/-- So are the labels of all the blocks, by induction on the list. -/
theorem blockLabels_tidy {blks : List (Block × Nat)} {labels : List String}
    (hf : OneLine f.name) (hblks : ∀ blk ∈ blks, OneLine blk.1.name)
    (hb : b.taken = some names) (h : b.Tidy)
    (hlabels : (blks.mapM fun (blk, i) => blockLabel f blk i :
    Emit (List String)) b
      = .ok labels b') : b'.Tidy := by
  induction blks generalizing b labels names with
  | nil =>
      cases hlabels
      exact h
  | cons blk blks ih =>
      rw [List.mapM_cons] at hlabels
      obtain ⟨name, b₁, hname, hlabels⟩ := bind_ok_iff.mp hlabels
      obtain ⟨rest, b₂, hrest, hlabels⟩ := bind_ok_iff.mp hlabels
      cases hlabels
      obtain ⟨htidy, htaken⟩ :=
        blockLabel_tidy hf (hblks blk List.mem_cons_self) hb h hname
      exact ih (fun blk' hblk' => hblks blk' (List.mem_cons_of_mem _ hblk'))
        htaken htidy hrest

/-- A function leaves its builder tidy. -/
theorem body_tidy (hf : Legible f) (hb : b.taken = some names) (h : b.Tidy)
    (hbody : body m f b = .ok u b') : b'.Tidy := by
  obtain ⟨parts⟩ := body_parts hbody
  have hlabelled : parts.labelled.Tidy := by
    refine blockLabels_tidy hf.1
      (fun blk hblk => hf.2 (some blk.1) ?_ blk.1 rfl) hb h parts.hlabels
    rw [blocks_eq_map parts.hbs]
    exact List.mem_map_of_mem (List.fst_mem_of_mem_zipIdx hblk)
  have hR := Builder.Tidy.closed m
  exact Closed.blocks (x := parts.scope) hR Builder.Tidy.labelling.label
    _ _ _ _ parts.hblocks
    (hlabelled.define f.name false)

/-- A function starts with no labels at all. -/
theorem emptyBuilder_tidy {l : Layout} (hf : OneLine f.name)
    (hnames : ∀ n ∈ names, OneLine n) : (emptyBuilder f l names).Tidy where
  ascending _ := List.Pairwise.nil
  placed := nofun
  func := hf
  taken := by
    rintro _ ⟨⟩
    exact hnames
  code := nofun

/-- A generated function has a tidy builder, and its labels stay on one line. -/
theorem function_tidy (hfuncs : ∀ g ∈ m.functions, OneLine g.name)
    (hf : Legible f) (hnames : ∀ n ∈ names, OneLine n)
    (h : function m names f = .ok b) : b.Tidy ∧ b.Readable := by
  obtain ⟨l, -, hbody⟩ := function_body h
  have htidy : b.Tidy := body_tidy hf rfl (emptyBuilder_tidy hf.1 hnames) hbody
  obtain ⟨names', htaken, hadds⟩ := function_labels hfuncs h
  obtain ⟨fresh, hperm, -, hnew⟩ := hadds.fresh
  have hdefs : ∀ n ∈ b.defs, OneLine n := by
    intro n hn
    rcases List.mem_append.mp (hperm.mem_iff.mp hn) with hn | hn
    · exact List.mem_singleton.mp hn ▸ hf.1
    · exact htidy.taken names' htaken n (hnew n hn).2
  exact ⟨htidy, hdefs, fun x hx n hn =>
    (hadds.named x hx n hn).elim id (hdefs n)⟩

/-- The builders of generated functions. -/
theorem Generated.tidy {fs : List Func} (h : Generated m fs names bs)
    (hfuncs : ∀ g ∈ m.functions, OneLine g.name) (hfs : ∀ f ∈ fs, Legible f)
    (hnames : ∀ n ∈ names, OneLine n) : ∀ b ∈ bs, b.Tidy ∧ b.Readable := by
  induction h with
  | done names => nofun
  | @next f fs names b bs here rest ih =>
      obtain ⟨hb, hread⟩ :=
        function_tidy hfuncs (hfs f List.mem_cons_self) hnames here
      intro c hc
      rcases List.mem_cons.mp hc with rfl | hc
      · exact ⟨hb, hread⟩
      · refine ih (fun g hg => hfs g (List.mem_cons_of_mem _ hg))
          (fun n hn => ?_) c hc
        cases htaken : b.taken with
        | none =>
            rw [htaken] at hn
            exact hnames n hn
        | some names' =>
            rw [htaken] at hn
            exact hb.taken names' htaken n hn

/-- The names taken before any function is generated are those of the functions.
-/
theorem initialLabels_oneLine (hfuncs : ∀ g ∈ m.functions, OneLine g.name) :
    ∀ n ∈ initialLabels m, OneLine n := by
  have hgrow : ∀ (fs : List Func) (names : Names), (∀ g ∈ fs, OneLine g.name) →
      (∀ n ∈ names, OneLine n) →
      ∀ n ∈ fs.foldl (fun s f => s.insert f.name) names, OneLine n := by
    intro fs
    induction fs with
    | nil => exact fun _ _ hnames => hnames
    | cons f fs ih =>
        intro names hfs hnames
        refine ih _ (fun g hg => hfs g (List.mem_cons_of_mem _ hg)) fun n hn =>
          ?_
        rcases Std.ExtTreeSet.mem_insert.mp hn with heq | hn
        · rw [← Std.LawfulEqCmp.eq_of_compare heq]
          exact hfs f List.mem_cons_self
        · exact hnames n hn
  exact hgrow m.functions ∅ hfuncs (by simp)

end Generator

-- ================================================================= linking

namespace Link

variable {t : Table}

/-- Labels of builders behind each other are listed by their addresses, which go
from the first builder's base to the last one's end. -/
theorem labelsFrom_pairwise (inData : Bool) (size : Builder → Nat) (base : Nat)
    (hasc : ∀ b ∈ bs, (b.marks inData).Pairwise fun k l =>
      k.position ≤ l.position)
    (hplaced : ∀ b ∈ bs, ∀ l ∈ b.marks inData, l.position ≤ size b)
    (hroom : base + (bs.map size).sum < 2 ^ 31) :
    (labelsFrom inData size base bs).Pairwise (fun k l => k.address ≤ l.address)
      ∧ ∀ k ∈ labelsFrom inData size base bs, base ≤ k.address.toInt
        ∧ k.address.toInt ≤ (base + (bs.map size).sum : Nat) := by
  induction bs generalizing base with
  | nil => exact ⟨List.Pairwise.nil, nofun⟩
  | cons b bs ih =>
      rw [List.map_cons, List.sum_cons, ← Nat.add_assoc] at hroom ⊢
      obtain ⟨hrest, hbounds⟩ :=
        ih _ (fun c hc => hasc c (List.mem_cons_of_mem _ hc))
        (fun c hc => hplaced c (List.mem_cons_of_mem _ hc)) hroom
      have haddress : ∀ l ∈ b.marks inData, l.position ≤ size b
          ∧ (Int32.ofNat base + Int32.ofNat l.position).toInt
          = (base + l.position : Nat) := by
        intro l hl
        have hle := hplaced b List.mem_cons_self l hl
        rw [← Int32.ofNat_add, Int32.toInt_ofNat_of_lt (by omega)]
        exact ⟨hle, rfl⟩
      rw [labelsFrom]
      refine ⟨List.pairwise_append.mpr ⟨List.pairwise_map.mpr ?_, hrest,
        fun k hk l hl => ?_⟩, fun k hk => ?_⟩
      · refine (hasc b List.mem_cons_self).imp_of_mem fun {k l} hk hl hle => ?_
        rw [Int32.le_iff_toInt_le, (haddress k hk).2, (haddress l hl).2]
        omega
      · obtain ⟨d, hd, rfl⟩ := List.mem_map.mp hk
        obtain ⟨hle, heq⟩ := haddress d hd
        have hl := (hbounds l hl).1
        rw [Int32.le_iff_toInt_le, heq]
        omega
      · rcases List.mem_append.mp hk with hk | hk
        · obtain ⟨d, hd, rfl⟩ := List.mem_map.mp hk
          obtain ⟨hle, heq⟩ := haddress d hd
          dsimp only
          omega
        · have := hbounds k hk
          omega

/-- Labels are listed by their addresses. -/
theorem labelsOf_pairwise (hbs : ∀ b ∈ bs, b.Tidy)
    (hroom : (bs.map (·.code.length)).sum
      + (bs.map (·.data.length)).sum < 2 ^ 31) :
    (labelsOf bs).Pairwise fun k l => k.address ≤ l.address := by
  have hplaced (inData : Bool) : ∀ b ∈ bs, ∀ l ∈ b.marks inData,
      l.position ≤ if inData then b.data.length else b.code.length := by
    intro b hb l hl
    obtain ⟨hl, hin⟩ := List.mem_filter.mp hl
    have := (hbs b hb).placed l hl
    rwa [beq_iff_eq.mp hin] at this
  obtain ⟨hcode, hbelow⟩ := labelsFrom_pairwise false (·.code.length) 0
    (fun b hb => (hbs b hb).ascending false) (hplaced false) (by omega)
  obtain ⟨hdata, habove⟩ := labelsFrom_pairwise true (·.data.length) _
    (fun b hb => (hbs b hb).ascending true) (hplaced true) hroom
  refine List.pairwise_append.mpr ⟨hcode, hdata, fun k hk l hl => ?_⟩
  have hk := (hbelow k hk).2
  have hl := (habove l hl).1
  rw [Int32.le_iff_toInt_le]
  omega

/-- What is resolved was an instruction of one of the builders. -/
theorem Resolved.mem_code {pc : Nat} (h : Resolved t pc bs bs') :
    ∀ b' ∈ bs', ∀ y ∈ b'.code, ∃ b ∈ bs, ∃ x ∈ b.code, ∃ qc,
      resolve t qc x = .ok y := by
  induction h with
  | done pc => nofun
  | @next pc b code bs bs' here same rest ih =>
      intro b' hb' y hy
      rcases List.mem_cons.mp hb' with rfl | hb'
      · obtain ⟨j, hj⟩ := List.mem_iff_getElem?.mp hy
        have hlt : j < b.code.length :=
          same ▸ (List.getElem?_eq_some_iff.mp hj).1
        obtain ⟨z, hz, hres⟩ :=
          resolveCode_getElem? here (List.getElem?_eq_getElem hlt)
        obtain rfl := Option.some.inj (hz.symm.trans hj)
        exact ⟨b, List.mem_cons_self, _, List.getElem_mem hlt, _, hres⟩
      · obtain ⟨c, hc, hrest⟩ := ih b' hb' y hy
        exact ⟨c, List.mem_cons_of_mem _ hc, hrest⟩

/-- The items of a program are the code and the data of its builders. -/
theorem Resolved.length_items {pc : Nat} (h : Resolved t pc bs bs') :
    (assemble t bs').items.length
      = (bs.map (·.code.length)).sum + (bs.map (·.data.length)).sum := by
  have hdata : bs'.map (·.data.length) = bs.map (·.data.length) := by
    induction h with
    | done pc => rfl
    | next _ _ _ ih => rw [List.map_cons, List.map_cons, ih]
  rw [assemble, List.length_append, List.length_flatMap, List.length_flatMap]
  simp only [List.length_map, h.map_length, hdata]

/-- A resolved instruction is written on one line. -/
theorem oneLine_of_resolve {pc : Nat} {x y : Insn}
    (hx : x.Selected fun _ => True) (hlabel : ∀ n, x.imm = .label n → OneLine n)
    (h : resolve t pc x = .ok y) : OneLine y.text := by
  have hcomment : OneLine x.comment := by
    rcases hx.comment with heq | heq | ⟨n, hn, heq⟩ <;> rw [heq]
    · decide
    · decide
    · exact oneLine_append.mpr ⟨by decide, hlabel n hn⟩
  obtain ⟨-, rfl⟩ | ⟨n, a, hn, -, rfl⟩ := resolve_eq_ok.mp h
  · refine Insn.oneLine_text (Imm.oneLine_text hlabel fun v n hn => ?_) hcomment
    rw [hx.unnamed v n hn]
    decide
  · refine Insn.oneLine_text (Imm.oneLine_text nofun fun v k hk => ?_) hcomment
    rw [← (Imm.literal.inj hk).2]
    exact hlabel n hn

end Link

-- ================================================================== result

/-- A generated program is linked from the builders of the functions. -/
theorem generate_eq_ok {metadata : Metadata}
    (hgen : generate m metadata = .ok p) :
    ∃ bs t bs', Generator.functions m m.functions
      (Generator.initialLabels m) = .ok bs
      ∧ Link.tableOf bs = .ok t ∧ Link.Resolved t 0 bs bs'
      ∧ p = { Link.assemble t bs' with metadata } := by
  obtain ⟨bs, hbs, hgen⟩ := bind_eq_ok.mp hgen
  cases hlink : link bs with
  | error e =>
      rw [hlink] at hgen
      cases hgen
  | ok q =>
      obtain ⟨hnd, hnamed⟩ := Link.linkPool_ok_iff.mp ⟨q, hlink⟩
      rw [listed, filterMap_range_getElem?] at hnd hnamed
      obtain ⟨t, bs', ht, hres, hlink'⟩ := link_spec hnd hnamed
      rw [hlink'] at hgen
      cases hgen
      exact ⟨bs, t, bs', hbs, ht, hres, rfl⟩

/-- A listing shows every label at its address. Its lines are those of the entry
points, of the items in the order of addresses and of the labels in the order of
their definition, each once; labels are listed by their addresses, and a label
stands behind the items with lower addresses and in front of the one at its own.

Only the order by addresses needs a bound, fewer than `2 ^ 31` items. Addresses
are 32-bit integers, and in a longer program those of the last items come out
negative, so that its labels are no longer in order; linking places labels under
the same bound. -/
theorem generate_listing_ordered {metadata : Metadata}
    (hlegible : ∀ f ∈ m.functions, Legible f)
    (hgen : generate m metadata = .ok p) :
    (∃ bs, Generator.functions m m.functions (Generator.initialLabels m)
      = .ok bs
      ∧ p.labels = Link.labelsOf bs)
    ∧ ∃ lines : List Line,
      p.listing = p.sourceLine ++ String.join (lines.map Line.text)
      ∧ (∀ line ∈ lines, IsLine line.text)
      ∧ (lines.filterMap Line.entry?
        = p.labels.filterMap fun l =>
        p.entrypoints[l.name]?.map fun e => (l.name, e))
      ∧ lines.filterMap Line.item? = p.items.zipIdx.map Prod.swap
      ∧ lines.filterMap Line.label? = p.labels
      ∧ (p.items.length < 2 ^ 31 →
        p.labels.Pairwise (fun k l => k.address ≤ l.address)
            ∧ lines.Pairwise Line.Precedes) := by
  obtain ⟨bs, t, bs', hbs, ht, hres, rfl⟩ := generate_eq_ok hgen
  have hfuncs : ∀ g ∈ m.functions, OneLine g.name :=
    fun g hg => (hlegible g hg).1
  have htidy := (Generator.functions_eq_ok.mp hbs).tidy hfuncs hlegible
    (Generator.initialLabels_oneLine hfuncs)
  obtain ⟨-, hlabels⟩ := Link.sound_of_tableOf ht
  have hnames : ∀ l ∈ t.labels, OneLine l.name := by
    intro l hl
    rw [hlabels] at hl
    obtain ⟨b, hb, hn⟩ := List.mem_flatMap.mp
      ((Link.map_name_labelsOf bs).mem_iff.mp (List.mem_map_of_mem hl))
    exact (htidy b hb).2.1 l.name hn
  have hinsns : ∀ y, .insn y ∈ (Link.assemble t bs').items →
      OneLine y.text := by
    intro y hy
    obtain ⟨b', hb', hy⟩ : ∃ b' ∈ bs', y ∈ b'.code := by
      simpa [Link.assemble] using hy
    obtain ⟨b, hb, x, hx, qc, hxy⟩ := hres.mem_code b' hb' y hy
    exact Link.oneLine_of_resolve ((htidy b hb).1.code x hx)
      ((htidy b hb).2.2 x hx) hxy
  refine ⟨⟨bs, hbs, hlabels⟩, _, Program.listing_eq _, fun line hline =>
    Program.isLine_text hnames hinsns hline, Program.lines_entries _,
      Program.lines_items _, Program.lines_labels _,
    fun hroom => ?_⟩
  have hroom' : (Link.assemble t bs').items.length < 2 ^ 31 := hroom
  have hsorted : t.labels.Pairwise fun k l => k.address ≤ l.address := by
    rw [hlabels]
    exact Link.labelsOf_pairwise (fun b hb => (htidy b hb).1)
      (hres.length_items ▸ hroom')
  exact ⟨hsorted, Program.lines_pairwise hsorted hroom.le⟩

/-- Two words of data and none, and a block at the end that has no code. -/
def tables : Module :=
  ⟨[Sample.build "table" [] do
      let _ ← Draft.makeArray .felt [.int 7, .int 8]
      Draft.ret [],
    Sample.build "stuck" [] do
      let _ ← Draft.makeArray .felt []
      let off ← Draft.block "off"
      Draft.jump off
      Draft.setBlock off
      Draft.terminate .unreachable]⟩

/-- Two functions with data of their own: five places, and each label on its
line. -/
theorem generate_listing_ordered_tables :
    (∀ f ∈ tables.functions, Legible f)
    ∧ ∃ p, generate tables {} = .ok p ∧ p.items.length = 5
      ∧ p.labels = [⟨"table", 0⟩, ⟨"table_entry", 0⟩, ⟨"stuck", 2⟩,
          ⟨"stuck_entry", 2⟩,
        ⟨"stuck_off", 3⟩, ⟨"table.data0", 3⟩, ⟨"stuck.data0", 5⟩]
      ∧ p.labels.Pairwise (fun k l => k.address ≤ l.address)
      ∧ ∃ lines : List Line, p.listing = p.sourceLine ++ String.join
        (lines.map Line.text)
        ∧ lines.filterMap Line.label? = p.labels
        ∧ lines.Pairwise Line.Precedes := by
  have hlegible : ∀ f ∈ tables.functions, Legible f := by decide +kernel
  have hrun : (generate tables {}).toOption.map
      (fun p => (p.items.length, p.labels))
      = some (5, [⟨"table", 0⟩, ⟨"table_entry", 0⟩, ⟨"stuck", 2⟩,
        ⟨"stuck_entry", 2⟩,
        ⟨"stuck_off", 3⟩, ⟨"table.data0", 3⟩,
        ⟨"stuck.data0", 5⟩]) := by decide +kernel
  cases hgen : generate tables {} with
  | error e =>
      rw [hgen] at hrun
      cases hrun
  | ok p =>
      rw [hgen] at hrun
      obtain ⟨hlen, hlabels⟩ := Prod.mk.inj (Option.some.inj hrun)
      obtain ⟨-, lines, hlisting, -, -, -, hall, hordered⟩ :=
        generate_listing_ordered hlegible hgen
      obtain ⟨hsorted, hpairwise⟩ := hordered (by omega)
      exact ⟨hlegible, p, rfl, hlen, hlabels, hsorted, lines,
        hlisting, hall, hpairwise⟩

/-- The label of the block stands with those of the data in front of the first
word, and the label of no data at the end. -/
example : (generate tables {}).toOption.map (·.listing) = some
    ("// entrypoint table pc 0 args [] returns []\n// entrypoint stuck pc 2 args [] returns []\n"
      ++ "table:\ntable_entry:\n    0\tstore_imm               [fp+0] = 3 <table.data0>\t// array\n"
      ++ "    1\tret                     \nstuck:\nstuck_entry:\n"
      ++ "    2\tstore_imm               [fp+0] = 5 <stuck.data0>\t// array\nstuck_off:\n"
      ++ "table.data0:\n    3\t.data 7\n    4\t.data 8\nstuck.data0:\n") := by decide +kernel

end MirBackend.Asm
