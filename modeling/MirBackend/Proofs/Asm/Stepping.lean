/-
How the machine runs code that stands somewhere in a program.

What a function does to its frame does not depend on where the frame lies, nor
on the rest of memory: no two slots of a frame share an address, whatever the
frame pointer is. So a running function is told by a position in its code and
by what its slots hold, and `Leads` says that the machine gets from one such
pair to another.

`Standing` says where the code of a builder came to stand: each instruction at
its place, resolved, and each label in the table of the linker at the address
of its position. What a builder holds half way through emission then stands
there too, and so one instruction after the other can be run as it is emitted.
-/
import Mathlib
import MirBackend.Asm.Link
import MirBackend.Asm.Machine
import MirBackend.Proofs.Asm.Emission

namespace MirBackend.Asm

-- =================================================================== slots

/-- What the slots of a frame hold. -/
abbrev FrameSlots := Int32 → Option Felt

namespace Machine

variable {s s' : Machine} {code : List Insn}

/-- A read after a write sees the write at its own address only. -/
theorem read?_write (s : Machine) (a b : Int32) (v : Felt) :
    (s.write a v).read? b = if a = b then some v else s.read? b := by
  rw [write, read?, read?, Std.ExtTreeMap.getElem?_insert]
  simp only [Std.compare_eq_iff_eq]

/-- Different slots have different addresses, so only the slot written
changes. -/
theorem slot?_setSlot (s : Machine) (off : Int32) (v : Felt) :
    (s.setSlot off v).slot? = Function.update s.slot? off (some v) := by
  funext k
  show (s.write (s.fp + off) v).read? (s.fp + k) = _
  rw [read?_write, Function.update_apply]
  simp only [Int32.add_right_inj, eq_comm]
  rfl

-- ================================================================= running

/-- The instruction at a position that is an address. -/
theorem fetch?_ofNat (code : List Insn) {i : Nat} (hi : i < 2 ^ 31) :
    fetch? code (Int32.ofNat i) = code[i]? := by
  have htoInt : (Int32.ofNat i).toInt = i := Int32.toInt_ofNat_of_lt hi
  rw [fetch?, if_pos, htoInt, Int.toNat_natCast]
  rw [Int32.le_iff_toInt_le, htoInt]
  exact Int.natCast_nonneg i

/-- The machine gets from one state to another. -/
def Goes (code : List Insn) : Machine → Machine → Prop :=
  Relation.ReflTransGen fun s s' => step code s = some s'

/-- Nothing stands at the address to which the outermost function returns. -/
theorem pc_ne_stopPc (hsmall : code.length ≤ 2 ^ 30)
    (h : step code s = some s') : s.pc ≠ stopPc := by
  intro hpc
  obtain ⟨x, hx, -⟩ := Option.bind_eq_some_iff.mp h
  rw [fetch?, hpc, if_pos (by decide)] at hx
  have hlt := (List.getElem?_eq_some_iff.mp hx).1
  have hstop : stopPc.toInt.toNat = 2 ^ 30 := by decide
  omega

/-- A machine that gets to the end of the outermost function does so in a
run. -/
theorem Goes.run (hsmall : code.length ≤ 2 ^ 30) (h : Goes code s s')
    (hend : s'.pc = stopPc) :
    ∃ least, ∀ fuel, least ≤ fuel → run code fuel s = some s' := by
  induction h using Relation.ReflTransGen.head_induction_on with
  | refl =>
      refine ⟨0, fun fuel _ => ?_⟩
      cases fuel with
      | zero => rw [Machine.run, if_pos hend]
      | succ fuel => rw [Machine.run, if_pos hend]
  | @head s t hstep hrest ih =>
      obtain ⟨least, hleast⟩ := ih
      refine ⟨least + 1, fun fuel hfuel => ?_⟩
      obtain ⟨fuel, rfl⟩ : ∃ k, fuel = k + 1 := ⟨fuel - 1, by omega⟩
      rw [Machine.run, if_neg (pc_ne_stopPc hsmall hstep), hstep]
      exact hleast fuel (by omega)

end Machine

open Machine (Goes)

/-- A function whose code starts at `base` gets from one position and contents
of its slots to another, in the same frame. -/
def Leads (code : List Insn) (base j : Nat) (σ : FrameSlots) (j' : Nat)
    (σ' : FrameSlots) : Prop :=
  ∀ s : Machine, s.pc = Int32.ofNat (base + j) → s.slot? = σ →
    ∃ s', Goes code s s' ∧ s'.pc = Int32.ofNat (base + j')
      ∧ s'.fp = s.fp ∧ s'.slot? = σ'

namespace Leads

variable {code : List Insn} {base j k l : Nat} {σ σ' σ'' : FrameSlots}

-- Running is reflexive and transitive.
theorem refl (code : List Insn) (base j : Nat) (σ : FrameSlots) :
    Leads code base j σ j σ :=
  fun s hpc hσ => ⟨s, .refl, hpc, rfl, hσ⟩

theorem trans (h : Leads code base j σ k σ') (h' : Leads code base k σ' l σ'') :
    Leads code base j σ l σ'' := by
  intro s hpc hσ
  obtain ⟨s₁, hgo, hpc₁, hfp₁, hσ₁⟩ := h s hpc hσ
  obtain ⟨s₂, hgo', hpc₂, hfp₂, hσ₂⟩ := h' s₁ hpc₁ hσ₁
  exact ⟨s₂, Relation.ReflTransGen.trans hgo hgo', hpc₂, hfp₂.trans hfp₁, hσ₂⟩

end Leads

-- ================================================================ standing

/-- The code of a builder stands in a program from an address on: its
instructions are there with their labels resolved, and the table has the
addresses of the labels in its code. -/
structure Standing (code : List Insn) (base : Nat) (t : Link.Table)
    (b : Builder) : Prop where
  small : code.length ≤ 2 ^ 30
  insn : ∀ j x, b.code[j]? = some x → ∃ y, code[base + j]? = some y
    ∧ Link.resolve t (base + j) x = .ok y
  label : ∀ l ∈ b.labels, l.inData = false →
    t.addresses[l.name]? = some (Int32.ofNat (base + l.position))

/-- A builder is a stage on the way to another of the same function: code and
labels were only added. -/
structure Extends (b b' : Builder) : Prop where
  code : b.code <+: b'.code
  labels : b.labels <+: b'.labels
  func : b'.func = b.func ∧ b'.args = b.args ∧ b'.returns = b.returns

namespace Extends

variable {b c d : Builder} {refs : String → Prop}

-- Builders extend each other step after step.
theorem refl (b : Builder) : Extends b b :=
  ⟨List.prefix_rfl, List.prefix_rfl, rfl, rfl, rfl⟩

theorem trans (h : Extends b c) (h' : Extends c d) : Extends b d :=
  ⟨h.code.trans h'.code, h.labels.trans h'.labels, h'.func.1.trans h.func.1,
    h'.func.2.1.trans h.func.2.1, h'.func.2.2.trans h.func.2.2⟩

/-- Code is never taken back. -/
theorem length_le (h : Extends b c) :
    b.code.length ≤ c.code.length := h.code.length_le

/-- An instruction that was emitted stays where it is. -/
theorem getElem? (h : Extends b c) {j : Nat} {x : Insn}
    (hx : b.code[j]? = some x) : c.code[j]? = some x := by
  obtain ⟨more, hmore⟩ := h.code
  rw [← hmore, List.getElem?_append_left (List.getElem?_eq_some_iff.mp hx).1,
    hx]

/-- A new label takes a name and counts on, nothing else. -/
theorem newLabel_ok {stem name : String}
    (h : Builder.newLabel stem b = .ok name c) :
    ∃ taken counter, c = { b with taken, counter } := by
  have hfresh : ∀ (fuel : Nat) (b c : Builder) (name : String),
      Builder.freshLabel stem fuel b = .ok name c →
        ∃ taken counter, c = { b with taken, counter } := by
    intro fuel
    induction fuel with
    | zero =>
        intro b c name h
        cases h
        exact ⟨_, _, rfl⟩
    | succ fuel ih =>
        intro b c name h
        obtain ⟨_, b₁, h₁, h⟩ := Interp.bind_ok_iff.mp h
        cases h₁
        obtain ⟨_, b₂, h₂, h⟩ := Interp.bind_ok_iff.mp h
        cases h₂
        obtain ⟨free, b₃, h₃, h⟩ := Interp.bind_ok_iff.mp h
        obtain ⟨taken, counter, rfl⟩ : ∃ taken counter,
            b₃ = { b with taken, counter } := by
          rw [Builder.claim] at h₃
          dsimp only at h₃
          split at h₃
          · cases h₃
            exact ⟨_, _, rfl⟩
          · split at h₃ <;> cases h₃ <;> exact ⟨_, _, rfl⟩
        split at h
        · cases h
          exact ⟨_, _, rfl⟩
        · obtain ⟨taken', counter', rfl⟩ := ih _ _ _ h
          exact ⟨_, _, rfl⟩
  obtain ⟨_, b₁, h₁, h⟩ := Interp.bind_ok_iff.mp h
  cases h₁
  exact hfresh _ _ _ _ h

/-- So code, labels and layout are as before. -/
theorem newLabel {stem name : String}
    (h : Builder.newLabel stem b = .ok name c) :
    c.code = b.code ∧ c.labels = b.labels ∧ c.layout = b.layout := by
  obtain ⟨taken, counter, rfl⟩ := newLabel_ok h
  exact ⟨rfl, rfl, rfl⟩

/-- Extension allows what selection does with the frame. -/
theorem roomy (refs : String → Prop) : Roomy refs Extends where
  refl := refl
  trans _ _ _ := trans
  emit _ _ _ := ⟨List.prefix_append _ _, List.prefix_rfl, rfl, rfl, rfl⟩
  reserve _ _ _ _ := ⟨List.prefix_rfl, List.prefix_rfl, rfl, rfl, rfl⟩

/-- Taking a label changes neither code nor labels. -/
theorem emitting_newLabel (stem : String) :
    Emitting Extends (Builder.newLabel stem) := by
  intro b name c h
  obtain ⟨taken, counter, rfl⟩ := newLabel_ok h
  exact ⟨List.prefix_rfl, List.prefix_rfl, rfl, rfl, rfl⟩

-- It also allows labels, data and their names.
theorem emitting_label (name : String) :
    Emitting Extends (Builder.label name) := by
  intro b u c h
  cases h
  exact ⟨List.prefix_rfl, List.prefix_append _ _, rfl, rfl, rfl⟩

theorem emitting_dataLabel (name : String) :
    Emitting Extends (Builder.dataLabel name) := by
  intro b u c h
  cases h
  exact ⟨List.prefix_rfl, List.prefix_append _ _, rfl, rfl, rfl⟩

theorem emitting_pushData (vs : List Int32) :
    Emitting Extends (Builder.pushData vs) := by
  intro b u c h
  cases h
  exact ⟨List.prefix_rfl, List.prefix_rfl, rfl, rfl, rfl⟩

theorem labelling : Labelling Extends where
  toPlain := (roomy _).toPlain
  newLabel stem _ := emitting_newLabel stem
  label := emitting_label
  dataLabel := emitting_dataLabel
  pushData := emitting_pushData

/-- Whatever selection does, it only adds. -/
theorem closed (m : Module) : Closed m (fun _ => True) Extends :=
  labelling.closed (roomy _) m

end Extends

-- ====================================================== single instructions

namespace Standing

variable {code : List Insn} {base : Nat} {t : Link.Table}
  {b b' : Builder} {σ : FrameSlots}

/-- What is emitted half way stands where it will stand. -/
theorem of_extends (h : Standing code base t b') (he : Extends b b') :
    Standing code base t b where
  small := h.small
  insn j x hx := h.insn j x (he.getElem? hx)
  label l hl := h.label l (he.labels.subset hl)

/-- The positions of a builder are places in the program. -/
theorem length_le (h : Standing code base t b) : b.code.length ≤ 2 ^ 30 := by
  by_contra hlong
  obtain ⟨y, hy, -⟩ :=
    h.insn (b.code.length - 1) _ (List.getElem?_eq_getElem (by omega))
  have hlt := (List.getElem?_eq_some_iff.mp hy).1
  have := h.small
  omega

/-- The machine finds the instruction at its position. -/
theorem fetch_eq (h : Standing code base t b) {j : Nat} {x y : Insn}
    (hx : b.code[j]? = some x) (hy : Link.resolve t (base + j) x = .ok y)
    {s : Machine} (hpc : s.pc = Int32.ofNat (base + j)) :
    Machine.fetch? code s.pc = some y := by
  obtain ⟨y', hy', hres⟩ := h.insn j x hx
  rw [hy, Except.ok.injEq] at hres
  subst hres
  have hlt := (List.getElem?_eq_some_iff.mp hy').1
  have hsmall := h.small
  rw [hpc, Machine.fetch?_ofNat code (by omega), hy']

/-- The machine takes the instruction at its position. -/
theorem step_eq (h : Standing code base t b) {j : Nat} {x y : Insn}
    (hx : b.code[j]? = some x) (hy : Link.resolve t (base + j) x = .ok y)
    {s : Machine} (hpc : s.pc = Int32.ofNat (base + j)) :
    Machine.step code s = if Machine.admits y then Machine.execute
        y s else none := by
  rw [Machine.step, h.fetch_eq hx hy hpc]
  rfl

/-- The next position has the next address. -/
theorem ofNat_succ (base j : Nat) :
    Int32.ofNat (base + j) + 1 = Int32.ofNat (base + (j + 1)) := by
  rw [← Nat.add_assoc, Int32.ofNat_add (base + j) 1]
  rfl

/-- An instruction without a label that stores a result in a slot. -/
theorem stores (h : Standing code base t b) {j : Nat} {x : Insn}
    (hx : b.code[j]? = some x) (himm : x.imm.isLabel = false)
    (hadmits : Machine.admits x = true) {v : Felt}
    (hexec : ∀ s : Machine, s.slot? = σ → Machine.execute x s
      = s.store x.off2 (some v)) :
    Leads code base j σ (j + 1) (Function.update σ x.off2 (some v)) := by
  intro s hpc hσ
  have hres : Link.resolve t (base + j) x = .ok x := by
    cases hcases : x.imm with
    | literal n name => rw [Link.resolve, hcases]
    | label name =>
        rw [hcases] at himm
        cases himm
  have hstep := h.step_eq hx hres hpc
  rw [if_pos hadmits, hexec s hσ] at hstep
  refine ⟨_, Relation.ReflTransGen.single hstep, ?_, rfl, ?_⟩
  · show s.pc + 1 = _
    rw [hpc, ofNat_succ]
  · rw [← hσ, ← Machine.slot?_setSlot]
    rfl

/-- A jump goes to the position of its label. -/
theorem jumps (h : Standing code base t b) {j k : Nat} {name : String}
    (hx : b.code[j]? = some { opcode := .jmpAbsImm, imm := .label name })
    (hl : ⟨name, false, k⟩ ∈ b.labels) : Leads code base j σ k σ := by
  intro s hpc hσ
  have hres :
      Link.resolve t (base + j) { opcode := .jmpAbsImm, imm := .label name }
      = .ok { opcode := .jmpAbsImm, imm := .literal (Int32.ofNat (base + k)) name } := by
    rw [Link.resolve]
    dsimp only
    rw [h.label _ hl rfl]
    rfl
  have hstep := h.step_eq hx hres hpc
  exact ⟨_, Relation.ReflTransGen.single hstep, rfl, rfl, hσ⟩

/-- A conditional jump goes on with the next instruction if its slot is zero,
and to the position of its label if it is not. -/
theorem branches (h : Standing code base t b) {j k : Nat}
    {cond : Int32} {name : String}
    (hx :
    b.code[j]? = some { opcode := .jnzFpImm, off0 := cond, imm := .label name })
    (hl : ⟨name, false, k⟩ ∈ b.labels) {v : Felt} (hv : σ cond = some v) :
    Leads code base j σ (if v.isZero then j + 1 else k) σ := by
  intro s hpc hσ
  have hres :
      Link.resolve t (base + j)
      { opcode := .jnzFpImm, off0 := cond, imm := .label name }
      = .ok { opcode := .jnzFpImm, off0 := cond,
              imm := .literal (Int32.ofNat (base + k) - Int32.ofNat (base + j))
                name } := by
    rw [Link.resolve]
    dsimp only
    rw [h.label _ hl rfl]
    rfl
  have hstep := h.step_eq hx hres hpc
  have hcond : s.slot? cond = some v := by rw [hσ, hv]
  have hexec : Machine.step code s
      = some { s with pc := if v.isZero then s.pc + 1
      else s.pc + (Int32.ofNat (base + k) - Int32.ofNat (base + j)) } := by
    rw [hstep, if_pos (by rfl)]
    simp only [Machine.execute, hcond]
    rfl
  refine ⟨_, Relation.ReflTransGen.single hexec, ?_, rfl, hσ⟩
  show (if v.isZero then s.pc + 1 else s.pc + _) = _
  rw [hpc]
  split
  · exact ofNat_succ base j
  · grind

end Standing

end MirBackend.Asm
