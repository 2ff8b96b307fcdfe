/-
The listing of a program.

Below the lines for the entry points a listing has a line for every item and for
every label. The labels are gone through once, in the order in which they are
listed, so each has its line whatever its address is (`linesFrom_labels`); that
the line stands in front of the item at its address needs labels in the order
of their addresses (`linesFrom_pairwise`): a label that is behind one with a
higher address waits for that one.

What a line says stays on it if names do: numbers and operations have no newline
in them (`Insn.oneLine_text`).
-/
import Mathlib
import MirBackend.Asm.Program

namespace MirBackend.Asm

variable {s t : String}

-- =================================================================== texts

/-- A text that stays on one line. -/
def OneLine (s : String) : Prop := '\n' ∉ s.toList

-- Whether a text is one line is looked at byte for byte.
instance (s : String) : Decidable (OneLine s) :=
  inferInstanceAs (Decidable (_ ∉ _))

/-- A text that is a line: a newline at its end, and none before. -/
def IsLine (s : String) : Prop := ∃ t, OneLine t ∧ s = t ++ "\n"

/-- A text put together of two is one line if both are. -/
@[simp] theorem oneLine_append : OneLine (s ++ t) ↔ OneLine s ∧ OneLine t := by
  simp [OneLine]

-- The parts of a line of the listing, none of which breaks it.
theorem oneLine_blanks (n : Nat) :
    OneLine (String.ofList (List.replicate n ' ')) := by
  simp [OneLine]

theorem oneLine_nat (n : Nat) : OneLine (toString n) := by
  rw [OneLine, Nat.toString_eq_repr, Nat.toList_repr]
  intro h
  exact absurd (Nat.isDigit_of_mem_toDigits (by decide) (by decide) h)
    (by decide)

theorem oneLine_int (n : Int) : OneLine (toString n) := by
  cases n with
  | ofNat n => exact oneLine_nat n
  | negSucc n => exact oneLine_append.mpr ⟨by decide, oneLine_nat (n + 1)⟩

theorem oneLine_padRight {width : Nat} (hs : OneLine s) :
    OneLine (padRight width s) :=
  oneLine_append.mpr ⟨hs, oneLine_blanks _⟩

theorem oneLine_padLeft {width : Nat} (hs : OneLine s) :
    OneLine (padLeft width s) :=
  oneLine_append.mpr ⟨oneLine_blanks _, hs⟩

theorem oneLine_signedText (off : Int32) : OneLine (signedText off) := by
  rw [signedText]
  split
  · exact oneLine_int _
  · exact oneLine_append.mpr ⟨by decide, oneLine_int _⟩

theorem oneLine_slotText (off : Int32) : OneLine (slotText off) := by
  simp +decide only [slotText, oneLine_append, oneLine_signedText, and_self]

theorem oneLine_intercalate (hs : OneLine s) :
    ∀ {ts : List String}, (∀ t ∈ ts, OneLine t) → OneLine (s.intercalate ts)
  | [], _ => by rw [String.intercalate_nil]; decide
  | [t], h => by rw [String.intercalate_singleton]; exact h t List.mem_cons_self
  | t :: u :: ts, h => by
      rw [String.intercalate_cons_cons]
      exact oneLine_append.mpr ⟨oneLine_append.mpr ⟨h t List.mem_cons_self, hs⟩,
        oneLine_intercalate hs fun v hv => h v (List.mem_cons_of_mem _ hv)⟩

theorem oneLine_numbersText (ns : SlotCounts) :
    OneLine (Program.numbersText ns) := by
  have hnumbers :
      OneLine
      (" ".intercalate ((ns.getD []).map fun n => toString n.toInt)) := by
    refine oneLine_intercalate (by decide) fun t ht => ?_
    obtain ⟨n, -, rfl⟩ := List.mem_map.mp ht
    exact oneLine_int _
  simp +decide only [Program.numbersText, oneLine_append, hnumbers, and_self]

-- The texts of the operations are a table.
theorem Opcode.oneLine_text (op : Opcode) : OneLine op.text := by
  cases op
  case unassigned n =>
      show OneLine "opcode?"
      decide
  all_goals decide

theorem Opcode.oneLine_sign (op : Opcode) : OneLine op.sign := by
  rw [Opcode.sign.eq_def]
  split <;> decide

/-- An immediate as it is written. -/
theorem Imm.oneLine_text {i : Imm} (hlabel : ∀ n, i = .label n → OneLine n)
    (hliteral : ∀ v n, i = .literal v n → OneLine n) : OneLine i.text := by
  cases i with
  | label n => exact hlabel n rfl
  | literal v n =>
      rw [Imm.text]
      split
      · exact oneLine_int _
      · simp +decide only [oneLine_append, oneLine_int,
          hliteral v n rfl, and_self]

namespace Insn

variable {x : Insn}

/-- What an instruction does is written on one line if its label is. -/
theorem oneLine_action (himm : OneLine x.imm.text) : OneLine x.action := by
  rw [action]
  split
  · split <;> simp +decide only [oneLine_append, oneLine_slotText,
      oneLine_signedText, Opcode.oneLine_sign, and_self]
  all_goals simp +decide only [oneLine_append, oneLine_slotText,
    Opcode.oneLine_sign, himm, and_self]

/-- An instruction is written on one line if its immediate and its comment
are. -/
theorem oneLine_text (himm : OneLine x.imm.text)
    (hcomment : OneLine x.comment) : OneLine x.text := by
  have hremark : OneLine (if x.comment.isEmpty then ""
      else "\t// " ++ x.comment) := by
    split
    · decide
    · exact oneLine_append.mpr ⟨by decide, hcomment⟩
  rw [text]
  split
  · simp +decide only [oneLine_append, oneLine_nat, and_self]
  · simp only [oneLine_append, oneLine_padRight (Opcode.oneLine_text _),
      oneLine_action himm, hremark, and_self]

end Insn

-- =================================================================== lines

/-- A line of a listing. -/
inductive Line where
  /-- How a function is called. -/
  | entry (name : String) (e : Entrypoint)
  | label (l : Label)
  /-- An item and its address. -/
  | item (pc : Nat) (x : Item)

namespace Line

/-- The text of a line. -/
def text : Line → String
  | entry name e => Program.entryLine name e
  | label l => Program.labelLine l
  | item pc x => Program.itemLine pc x

/-- The function of a line, and how it is called. -/
def entry? : Line → Option (String × Entrypoint)
  | entry name e => some (name, e)
  | _ => none

/-- The label of a line. -/
def label? : Line → Option Label
  | label l => some l
  | _ => none

/-- The item of a line, with its address. -/
def item? : Line → Option (Nat × Item)
  | item pc x => some (pc, x)
  | _ => none

/-- The order of lines: entry points, and then labels and items by their
addresses, a label in front of the item at its address. -/
def Precedes : Line → Line → Prop
  | entry .., _ => True
  | _, entry .. => False
  | label k, label l => k.address ≤ l.address
  | label k, item pc _ => k.address.toInt ≤ pc
  | item pc _, label l => pc < l.address.toInt
  | item pc _, item qc _ => pc < qc

end Line

namespace Program

variable {p : Program} {labels : List Label} {items : List Item}
  {pc : Nat} {line : Line}

/-- The lines of labels and of items with addresses from `pc` on. -/
def linesFrom : Nat → List Label → List Item → List Line
  | _, labels, [] => labels.map .label
  | pc, labels, x :: items =>
      let due := fun l : Label => decide (l.address ≤ Int32.ofNat pc)
      (labels.takeWhile due).map .label ++ .item pc x
        :: linesFrom (pc + 1) (labels.dropWhile due) items

/-- The lines of entry points, in the order of their labels. -/
def entries (p : Program) : List Line :=
  p.labels.filterMap fun l => p.entrypoints[l.name]?.map (.entry l.name)

/-- All lines but that of the source. -/
def lines (p : Program) : List Line := p.entries ++ linesFrom 0 p.labels p.items

/-- The line that names the source, if there is one. -/
def sourceLine (p : Program) : String :=
  if p.metadata.sourceFile.isEmpty then "" else "// source "
    ++ p.metadata.sourceFile ++ "\n"

/-- The lines of the listing are the texts of the lines it has as data. -/
theorem itemLines_eq (pc : Nat) (labels : List Label) (items : List Item) :
    itemLines pc labels items = (linesFrom pc labels items).map Line.text := by
  induction items generalizing pc labels with
  | nil => rw [itemLines, linesFrom, List.map_map]; rfl
  | cons x items ih =>
      rw [itemLines, linesFrom, List.map_append, List.map_cons,
        List.map_map, ← ih]
      rfl

/-- A listing is its lines. -/
theorem listing_eq (p : Program) :
    p.listing = p.sourceLine ++ String.join (p.lines.map Line.text) := by
  have hentries :
      p.labels.filterMap (fun l =>
      p.entrypoints[l.name]?.map (entryLine l.name))
      = p.entries.map Line.text := by
    rw [entries, List.map_filterMap]
    refine List.filterMap_congr fun l _ => ?_
    rw [Option.map_map]
    rfl
  rw [listing, hentries, itemLines_eq, String.append_assoc,
    ← String.join_append, ← List.map_append]
  rfl

-- ============================================================== every line

/-- Each label has its line, in the order in which the labels are listed. -/
theorem linesFrom_labels (pc : Nat) (labels : List Label) (items : List Item) :
    (linesFrom pc labels items).filterMap Line.label? = labels := by
  have hlabels (ls : List Label) :
      (ls.map Line.label).filterMap Line.label? = ls := by
    rw [List.filterMap_map]
    exact List.filterMap_some
  induction items generalizing pc labels with
  | nil => exact hlabels labels
  | cons x items ih =>
      rw [linesFrom, List.filterMap_append, hlabels,
        List.filterMap_cons_none rfl, ih, List.takeWhile_append_dropWhile]

/-- Each item has its line, in the order of addresses. -/
theorem linesFrom_items (pc : Nat) (labels : List Label) (items : List Item) :
    (linesFrom pc labels items).filterMap Line.item?
      = (items.zipIdx pc).map Prod.swap := by
  have hnone (ls : List Label) :
      (ls.map Line.label).filterMap Line.item? = [] := by
    rw [List.filterMap_map]
    exact List.filterMap_eq_nil_iff.mpr fun _ _ => rfl
  induction items generalizing pc labels with
  | nil => exact hnone labels
  | cons x items ih =>
      rw [linesFrom, List.filterMap_append, hnone, List.nil_append,
        List.filterMap_cons, ih, List.zipIdx_cons]
      rfl

/-- Lines of labels are of those listed, and lines of items have addresses from
`pc` on. -/
theorem mem_linesFrom (h : line ∈ linesFrom pc labels items) :
    (∃ l ∈ labels, line = .label l)
      ∨ ∃ qc, ∃ x ∈ items, line = .item qc x ∧ pc ≤ qc
      ∧ qc < pc + items.length := by
  induction items generalizing pc labels with
  | nil =>
      obtain ⟨l, hl, rfl⟩ := List.mem_map.mp h
      exact Or.inl ⟨l, hl, rfl⟩
  | cons x items ih =>
      rw [linesFrom, List.mem_append, List.mem_cons] at h
      rw [List.length_cons]
      rcases h with h | rfl | h
      · obtain ⟨l, hl, rfl⟩ := List.mem_map.mp h
        exact Or.inl ⟨l, List.takeWhile_subset _ hl, rfl⟩
      · exact Or.inr ⟨pc, x, List.mem_cons_self, rfl, le_rfl, by omega⟩
      · rcases ih h with ⟨l, hl, rfl⟩ | ⟨qc, y, hy, rfl, hle, hlt⟩
        · exact Or.inl ⟨l, List.dropWhile_subset _ hl, rfl⟩
        · exact Or.inr ⟨qc, y, List.mem_cons_of_mem _ hy,
            rfl, by omega, by omega⟩

/-- The first lines are those of the labels that are functions. -/
theorem mem_entries (h : line ∈ p.entries) :
    ∃ l ∈ p.labels, ∃ e, line = .entry l.name e := by
  obtain ⟨l, hl, he⟩ := List.mem_filterMap.mp h
  obtain ⟨e, -, rfl⟩ := Option.map_eq_some_iff.mp he
  exact ⟨l, hl, e, rfl⟩

/-- Of labels and items there are only lines of labels and items. -/
theorem linesFrom_entries (pc : Nat) (labels : List Label) (items : List Item) :
    (linesFrom pc labels items).filterMap Line.entry? = [] := by
  refine List.filterMap_eq_nil_iff.mpr fun line h => ?_
  rcases mem_linesFrom h with ⟨l, -, rfl⟩ | ⟨qc, x, -, rfl, -⟩ <;> rfl

/-- Each label that is an entry point has a line for it. -/
theorem lines_entries (p : Program) : p.lines.filterMap Line.entry?
    = p.labels.filterMap fun l =>
    p.entrypoints[l.name]?.map fun e => (l.name, e) := by
  rw [lines, List.filterMap_append, linesFrom_entries, List.append_nil, entries,
    List.filterMap_filterMap]
  refine List.filterMap_congr fun l _ => ?_
  cases p.entrypoints[l.name]? <;> rfl

/-- Every label is on a line of its own, in the order of the labels. -/
theorem lines_labels (p : Program) :
    p.lines.filterMap Line.label? = p.labels := by
  rw [lines, List.filterMap_append, linesFrom_labels,
    List.filterMap_eq_nil_iff.mpr, List.nil_append]
  intro line h
  obtain ⟨l, -, e, rfl⟩ := mem_entries h
  rfl

/-- Every instruction and every word of data is on a line of its own, with its
address, in order. -/
theorem lines_items (p : Program) :
    p.lines.filterMap Line.item? = p.items.zipIdx.map Prod.swap := by
  rw [lines, List.filterMap_append, linesFrom_items,
    List.filterMap_eq_nil_iff.mpr, List.nil_append]
  intro line h
  obtain ⟨l, -, e, rfl⟩ := mem_entries h
  rfl

/-- Every line is one, if names and instructions stay on theirs. -/
theorem isLine_text (hlabels : ∀ l ∈ p.labels, OneLine l.name)
    (hitems : ∀ x, .insn x ∈ p.items → OneLine x.text) (h : line ∈ p.lines) :
    IsLine line.text := by
  rcases List.mem_append.mp h with h | h
  · obtain ⟨l, hl, e, rfl⟩ := mem_entries h
    refine ⟨_, ?_, rfl⟩
    simp +decide only [oneLine_append, hlabels l hl, oneLine_int,
      oneLine_numbersText, and_self]
  · rcases mem_linesFrom h with ⟨l, hl, rfl⟩ | ⟨qc, x, hx, rfl, -⟩
    · refine ⟨l.name ++ ":", oneLine_append.mpr ⟨hlabels l hl, by decide⟩, ?_⟩
      rw [String.append_assoc]
      rfl
    · cases x with
      | insn x =>
          refine ⟨_, ?_, rfl⟩
          simp +decide only [oneLine_append, oneLine_padLeft (oneLine_nat _),
            hitems x hx, and_self]
      | data n =>
          refine ⟨_, ?_, rfl⟩
          simp +decide only [oneLine_append, oneLine_padLeft (oneLine_nat _),
            oneLine_int, and_self]

-- =================================================================== order

/-- The labels that are not due yet have higher addresses. -/
theorem lt_of_mem_dropWhile
    (hsorted : labels.Pairwise fun k l => k.address ≤ l.address) {a : Int32}
    {l : Label} (hl : l ∈ labels.dropWhile fun k => decide (k.address ≤ a)) :
    a < l.address := by
  induction labels with
  | nil => cases hl
  | cons k labels ih =>
      obtain ⟨hfirst, hsorted⟩ := List.pairwise_cons.mp hsorted
      rw [List.dropWhile_cons] at hl
      split at hl
      · exact ih hsorted hl
      · rename_i hlate
        have hk : a < k.address := by simpa using hlate
        rcases List.mem_cons.mp hl with rfl | hl
        · exact hk
        · exact Int32.lt_of_lt_of_le hk (hfirst l hl)

/-- Where labels are listed by their addresses, lines are in order. -/
theorem linesFrom_pairwise
    (hsorted : labels.Pairwise fun k l => k.address ≤ l.address)
    (hroom : pc + items.length ≤ 2 ^ 31) :
    (linesFrom pc labels items).Pairwise Line.Precedes := by
  induction items generalizing pc labels with
  | nil => exact List.pairwise_map.mpr hsorted
  | cons x items ih =>
      rw [List.length_cons] at hroom
      have hpc : (Int32.ofNat pc).toInt = pc :=
        Int32.toInt_ofNat_of_lt (by omega)
      have hlate (l : Label) (hl : l ∈ labels.dropWhile fun k =>
          decide (k.address ≤ Int32.ofNat pc)) :
          (pc : Int) < l.address.toInt := by
        rw [← hpc]
        exact Int32.lt_iff_toInt_lt.mp (lt_of_mem_dropWhile hsorted hl)
      have hdue (l : Label) (hl : l ∈ labels.takeWhile fun k =>
          decide (k.address ≤ Int32.ofNat pc)) :
          l.address.toInt ≤ pc := by
        rw [← hpc]
        have hle := List.mem_takeWhile_imp hl
        exact Int32.le_iff_toInt_le.mp (of_decide_eq_true hle)
      rw [← List.takeWhile_append_dropWhile
        (p := fun l : Label => decide (l.address ≤ Int32.ofNat pc))
        (l := labels), List.pairwise_append] at hsorted
      obtain ⟨htaken, hleft, hacross⟩ := hsorted
      rw [linesFrom, List.pairwise_append, List.pairwise_cons]
      refine ⟨List.pairwise_map.mpr htaken,
        ⟨fun line hline => ?_, ih hleft (by omega)⟩,
        fun line hline below hbelow => ?_⟩
      · rcases mem_linesFrom hline with ⟨l, hl, rfl⟩ | ⟨qc, y, -, rfl, hle, -⟩
        · exact hlate l hl
        · exact hle
      · obtain ⟨k, hk, rfl⟩ := List.mem_map.mp hline
        rcases List.mem_cons.mp hbelow with rfl | hbelow
        · exact hdue k hk
        · rcases mem_linesFrom hbelow with ⟨l, hl, rfl⟩
            | ⟨qc, y, -, rfl, hle, -⟩
          · exact hacross k hk l hl
          · exact (hdue k hk).trans (by omega)

/-- A line's address is not above that of the next. Addresses are 32 bits wide,
so they are in the order of the places as long as the last place is below `2 ^
31`. -/
theorem lines_pairwise
    (hsorted : p.labels.Pairwise fun k l => k.address ≤ l.address)
    (hroom : p.items.length ≤ 2 ^ 31) : p.lines.Pairwise Line.Precedes := by
  rw [lines, List.pairwise_append]
  refine ⟨?_, linesFrom_pairwise hsorted (by omega),
    fun line hline below _ => ?_⟩
  · refine List.pairwise_iff_forall_sublist.mpr fun {line below} h => ?_
    obtain ⟨l, -, e, rfl⟩ := mem_entries (h.subset List.mem_cons_self)
    cases below <;> trivial
  · obtain ⟨l, -, e, rfl⟩ := mem_entries hline
    cases below <;> trivial

end Program

end MirBackend.Asm
