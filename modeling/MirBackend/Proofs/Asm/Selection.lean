/-
What the code of instructions does to the slots of a frame.

The interpreter has values as runs of integers, the machine has them as
canonical elements in slots (`Shows`). An operand stands for such a run by its
place in the layout or by what it says (`Stands`). From operands that stand for
what the interpreter reads, the code of an instruction puts what the
interpreter computes into the slots of its destination, and leaves all other
slots but its own fresh ones (`Fills`).

Code that is never run matters too: whatever is selected, it must leave the
frame in a stage from which selection can go on.
-/
import Mathlib
import MirBackend.Interp.Arith
import MirBackend.Proofs.Asm.FrameAddresses
import MirBackend.Proofs.Asm.Operations
import MirBackend.Proofs.Interp.Frame

namespace MirBackend

/-- An instruction that works on values and on memory of the frame, with as many
slots on one side as on the other. -/
def Instr.Fits (f : Func) : Instr → Prop
  | .assign d v t => (f.operandType v).slots = (f.typeOf d).slots
      ∧ (t.isMissing = false → t.slots = (f.typeOf d).slots)
  | .cast d v a b => (f.operandType v).slots = a.slots ∧ a.slots = b.slots
      ∧ b.slots = (f.typeOf d).slots
  | .unary _ d v => (f.typeOf d).slots = 1 ∧ (f.operandType v).slots = 1
  | .binary _ d l r | .elementPtr d l r =>
      (f.typeOf d).slots = 1 ∧ (f.operandType l).slots = 1
        ∧ (f.operandType r).slots = 1
  | .frameAlloc d _ => (f.typeOf d).slots = 1
  | .load d t _ => t.slots = (f.typeOf d).slots
  | .store _ v t => t.isMissing = false → t.slots = (f.operandType v).slots
  | _ => False

-- A phi is not selected at all.
theorem Instr.Fits.not_phi {f : Func} {i : Instr} (h : i.Fits f) :
    i.isPhi = false := by
  cases i <;> first | rfl | exact h.elim

/-- An instruction that fits, or one that takes the address of a value. -/
inductive Instr.FitsFrame (f : Func) : Instr → Prop where
  | fits {i : Instr} (fits : i.Fits f) : FitsFrame f i
  | addressOf {d v : ValueId} (one : (f.typeOf d).slots = 1) :
      FitsFrame f (.addressOf d v)

theorem Instr.FitsFrame.not_phi {f : Func} {i : Instr} (h : i.FitsFrame f) :
    i.isPhi = false := by
  cases h with
  | fits h => exact h.not_phi
  | addressOf => rfl

namespace Asm

open Interp (Slots bind_ok_iff)

variable {code : List Insn} {base : Nat} {t : Link.Table} {L : Layout}
  {n : Nat} {b b' : Builder} {x : Scope} {u : Unit} {σ σ' : FrameSlots}
  {dst off : Int32} {d v w : ValueId} {xs ys : Slots} {m : Int64} {e : Int}

-- =================================================================== slots

/-- Slots from an offset on hold a run of integers as canonical elements. -/
def Shows (σ : FrameSlots) (off : Int32) (xs : Slots) : Prop :=
  ∀ i y, xs[i]? = some y → ∃ a : Felt, a.Canonical ∧ a.toInt64 = y
    ∧ σ (off + Int32.ofNat i) = some a

/-- Slots from an offset on got a run of integers, and the others stay as they
were but for those from the `n`-th to the top. -/
structure Puts (n : Nat) (top : Int) (dst : Int32) (xs : Slots)
    (σ σ' : FrameSlots) : Prop where
  here : Shows σ' dst xs
  other : ∀ off : Int32, off.toInt < n ∨ top ≤ off.toInt →
    (∀ i < xs.length, off ≠ dst + Int32.ofNat i) → σ' off = σ off

/-- Nothing is shown anywhere. -/
theorem Shows.nil (σ : FrameSlots) (off : Int32) : Shows σ off [] :=
  fun i y h => by simp at h

/-- Slots that hold what others held show what was shown there. -/
theorem Shows.move {off' : Int32} (h : Shows σ off xs)
    (hsame : ∀ i < xs.length, σ' (off' + Int32.ofNat i)
      = σ (off + Int32.ofNat i)) :
    Shows σ' off' xs := by
  intro i y hy
  rw [hsame i (List.getElem?_eq_some_iff.mp hy).1]
  exact h i y hy

/-- Slots that are as they were hold what they held. -/
theorem Shows.keep (h : Shows σ off xs)
    (hsame : ∀ i < xs.length, σ' (off + Int32.ofNat i)
      = σ (off + Int32.ofNat i)) :
    Shows σ' off xs := h.move hsame

theorem add_ofNat_zero (off : Int32) : off + Int32.ofNat 0 = off :=
  Int32.add_zero off

/-- What stands in two ranges next to each other stands in the range of both. -/
theorem Shows.append (h : Shows σ off xs)
    (h' : Shows σ (off + Int32.ofNat xs.length) ys) :
    Shows σ off (xs ++ ys) := by
  intro i y hy
  by_cases hi : i < xs.length
  · rw [List.getElem?_append_left hi] at hy
    exact h i y hy
  · rw [List.getElem?_append_right (by omega)] at hy
    have hhere := h' (i - xs.length) y hy
    rwa [Int32.add_assoc, ← Int32.ofNat_add,
      Nat.add_sub_cancel' (by omega)] at hhere

theorem Shows.left (h : Shows σ off (xs ++ ys)) :
    Shows σ off xs := fun i y hy =>
  h i y
    (by rw [List.getElem?_append_left (List.getElem?_eq_some_iff.mp hy).1, hy])

theorem Shows.right (h : Shows σ off (xs ++ ys)) :
    Shows σ (off + Int32.ofNat xs.length) ys := by
  intro i y hy
  rw [Int32.add_assoc, ← Int32.ofNat_add]
  exact h _ y
    (by rw [List.getElem?_append_right (by omega), Nat.add_sub_cancel_left, hy])

/-- One of several runs side by side. -/
theorem Shows.flatten {xss : List Slots} {i : Nat} {y : Slots}
    (h : Shows σ off xss.flatten) (hy : xss[i]? = some y) :
    Shows σ (off + Int32.ofNat (xss.take i).flatten.length) y := by
  induction xss generalizing off i with
  | nil => simp at hy
  | cons z xss ih =>
      rw [List.flatten_cons] at h
      cases i with
      | zero =>
          cases hy
          rw [List.take_zero, List.flatten_nil, List.length_nil, add_ofNat_zero]
          exact h.left
      | succ i =>
          rw [List.take_succ_cons, List.flatten_cons,
            List.length_append, Int32.ofNat_add, ← Int32.add_assoc]
          exact ih h.right hy

/-- The count of a type's slots, cut to the machine's size, is its width there.
-/
theorem toInt32_slots (ty : Ty) : ty.slots.toInt32 = Int32.ofNat ty.width := by
  rw [Ty.slots_eq_ofNat, Int64.toInt32_ofNat']

theorem toInt32_slotsOfList (ts : List Ty) :
    (Ty.slotsOfList ts).toInt32 = Int32.ofNat (Ty.widthOfList ts) := by
  rw [Ty.slotsOfList_eq_ofNat, Int64.toInt32_ofNat']

/-- Runs of slots side by side are as long as the types say. -/
theorem length_of_widths {α : Type} {as : List (α × Ty)} {xss : List Slots}
    (h : List.Forall₂ (fun a y => y.length = a.2.width) as xss) :
    xss.flatten.length = Ty.widthOfList (as.map (·.2)) := by
  induction h with
  | nil => rfl
  | cons hy _ ih =>
      rw [List.flatten_cons, List.length_append, hy, ih,
        List.map_cons, Ty.widthOfList]

/-- Putting nothing changes nothing. -/
theorem Puts.nil (n : Nat) (e : Int) (dst : Int32) (σ : FrameSlots) :
    Puts n e dst [] σ σ :=
  ⟨.nil σ dst, fun _ _ _ => rfl⟩

/-- Two runs of slots side by side. -/
theorem Puts.append {σ'' : FrameSlots} (h : Puts n e dst xs σ σ')
    (h' : Puts n e (dst + Int32.ofNat xs.length) ys σ' σ'')
    (hlt : ∀ i < (xs ++ ys).length, (dst + Int32.ofNat i).toInt < n)
    (hsmall : (xs ++ ys).length < 2 ^ 32) : Puts n e dst (xs ++ ys) σ σ'' := by
  have hnext (i : Nat) : dst + Int32.ofNat xs.length + Int32.ofNat i
      = dst + Int32.ofNat (xs.length + i) := by
    rw [Int32.add_assoc, ← Int32.ofNat_add]
  rw [List.length_append] at hlt hsmall
  refine ⟨(h.here.keep fun i hi =>
    h'.other _ (.inl (hlt i (by omega))) fun j hj heq => ?_).append h'.here,
    fun off hoff hne => ?_⟩
  · rw [hnext] at heq
    have := add_ofNat_inj (by omega) (by omega) heq
    omega
  · rw [h'.other off hoff, h.other off hoff]
    · exact fun i hi => hne i (by rw [List.length_append]; omega)
    · intro i hi
      rw [hnext]
      exact hne _ (by rw [List.length_append]; omega)

/-- One slot that got an element got the integer that it stands for. -/
theorem Sets.puts {a : Felt} (h : Sets n e dst a σ σ') (ha : a.Canonical) :
    Puts n e dst [a.toInt64] σ σ' := by
  refine ⟨fun i y hy => ?_, fun off hoff hne => h.other off hoff ?_⟩
  · obtain ⟨rfl, rfl⟩ : i = 0 ∧ a.toInt64 = y := by
      cases i with
      | zero => simpa using hy
      | succ i => simp at hy
    exact ⟨a, ha, rfl, by rw [add_ofNat_zero, h.here]⟩
  · have := hne 0 (by simp)
    rwa [add_ofNat_zero] at this

/-- An operand stands for a run of integers. -/
def Stands (L : Layout) (σ : FrameSlots) : Operand → Slots → Prop
  | .value v, xs => ∃ s, L.spans[v]? = some s ∧ Shows σ s.base xs
  | .int k, xs => xs = Interp.feltSlots (Felt.ofInt64 k.toInt64)
  | .bool c, xs => xs = [Interp.bit c]
  | .unit, xs => xs = []
  | .error, _ | .invalid, _ => False

/-- Values stand for what they stood for when none of their slots changes. -/
theorem Stands.keep {o : Operand} (h : Stands L σ o xs)
    (hlen : ∀ v s, o = .value v → L.spans[v]? = some s →
      (xs.length : Int) ≤ s.len.toInt)
    (hsame : ∀ off, L.Taken off → σ' off = σ off) : Stands L σ' o xs := by
  cases o with
  | value v =>
      obtain ⟨s, hs, hshows⟩ := h
      have hle := hlen v s rfl hs
      exact ⟨s, hs, hshows.keep fun i hi =>
        hsame _ ⟨v, s, i, hs, by omega, rfl⟩⟩
  | _ => exact h

/-- Values that are no known addresses are in their slots. -/
def Scope.Mirrors (x : Scope) (L : Layout) (fr : Interp.Frame)
    (σ : FrameSlots) : Prop :=
  ∀ v y, v ∉ x.static → fr[v]? = some y → ∃ s, L.spans[v]? = some s
    ∧ (y.slots.length : Int) = s.len.toInt ∧ Shows σ s.base y.slots

/-- An operand stands for what the interpreter reads. -/
theorem Scope.Mirrors.stands {fr : Interp.Frame}
    (h : x.Mirrors L fr σ) {o : Operand} {y : Interp.Value}
    (hy : Interp.look fr o = some y) (ho : ∀ v, o = .value v → v ∉ x.static) :
    Stands L σ o y.slots := by
  cases o with
  | value v =>
      obtain ⟨s, hs, -, hshows⟩ := h v y (ho v rfl) hy
      exact ⟨s, hs, hshows⟩
  | int k | bool k | unit =>
      cases hy
      rfl
  | error | invalid => cases hy

/-- A scalar operand stands where its value does. -/
theorem Scope.Mirrors.stands_scalar {fr : Interp.Frame}
    (h : x.Mirrors L fr σ) {o : Operand} {y : Int64}
    (hy : Interp.lookScalar fr o = some y)
    (ho : ∀ v, o = .value v → v ∉ x.static) : Stands L σ o [y] := by
  obtain ⟨z, hz, hslots⟩ := Interp.lookScalar_eq_some.mp hy
  exact hslots ▸ h.stands hz ho

/-- The slots from one offset on are those from another on, or none of them
is. -/
def Apart (src dst : Int32) (m : Nat) : Prop :=
  src = dst ∨ ∀ i < m, ∀ j < m, src + Int32.ofNat i ≠ dst + Int32.ofNat j

-- ================================================================ operands

/-- The layout of a function in which known addresses are values of one slot,
and the others have the slots of their types. -/
structure Scope.Laid (x : Scope) (L : Layout) :
    Prop extends Layout.Laid x.func L where
  address : ∀ v ∈ x.static, (x.func.typeOf v).slots = 1
  len : ∀ v s, L.spans[v]? = some s → v ∉ x.static →
    s.len = (x.func.typeOf v).slots

/-- What comes next in the code does not matter. -/
theorem Scope.Laid.at (hx : x.Laid L) (next : BlockId) :
    Scope.Laid { x with next } L :=
  ⟨hx.toLaid, hx.address, hx.len⟩

/-- What is put where no value is leaves all values as they are. -/
theorem Scope.Mirrors.keep {fr : Interp.Frame}
    (h : x.Mirrors L fr σ) (hx : x.Laid L) (hn : L.frameSize.toInt ≤ n)
    (hputs : Puts n e dst xs σ σ')
    (hfree : ∀ i < xs.length, ¬ L.Taken (dst + Int32.ofNat i)) :
    x.Mirrors L fr σ' := by
  intro v y hv hy
  obtain ⟨s, hs, hlen, hshows⟩ := h v y hv hy
  refine ⟨s, hs, hlen, hshows.keep fun j hj =>
    hputs.other _ (.inl (hx.slot_lt hn hs (by omega))) ?_⟩
  exact fun i hi heq => hfree i hi ⟨v, s, j, hs, by omega, heq.symm⟩

/-- What is as it was below the top of the frame keeps all values. -/
theorem Scope.Mirrors.below {fr : Interp.Frame}
    (h : x.Mirrors L fr σ) (hx : x.Laid L)
    (hsame : ∀ off : Int32, off.toInt < L.frameSize.toInt → σ' off = σ off) :
    x.Mirrors L fr σ' := by
  intro v z hv hz
  obtain ⟨s, hs, hlen, hshows⟩ := h v z hv hz
  have hnonneg := hx.nonneg
  refine ⟨s, hs, hlen, hshows.keep fun i hi => hsame _ ?_⟩
  have :=
    hx.slot_lt (n := L.frameSize.toInt.toNat) (by omega) hs (i := i) (by omega)
  omega

/-- What an operand is read as has the slots of its type. -/
theorem Scope.Mirrors.length_eq {fr : Interp.Frame}
    (h : x.Mirrors L fr σ) (hx : x.Laid L) {o : Operand} {y : Interp.Value}
    (hy : Interp.look fr o = some y) (ho : ∀ v, o = .value v → v ∉ x.static) :
    (y.slots.length : Int) = (x.func.operandType o).slots.toInt := by
  cases o with
  | value v =>
      obtain ⟨s, hs, hlen, -⟩ := h v y (ho v rfl) hy
      rw [hlen, hx.len v s hs (ho v rfl)]
      rfl
  | int k | bool k | unit =>
      cases hy
      rfl
  | error | invalid => cases hy

/-- No value is longer than a frame may be. -/
theorem Scope.Mirrors.length_le {fr : Interp.Frame}
    (h : x.Mirrors L fr σ) (hx : x.Laid L) {o : Operand} {y : Interp.Value}
    (hy : Interp.look fr o = some y) (ho : ∀ v, o = .value v → v ∉ x.static) :
    y.slots.length ≤ 16777216 := by
  cases o with
  | value v =>
      obtain ⟨s, hs, hlen, -⟩ := h v y (ho v rfl) hy
      have := hx.len_le hs
      omega
  | int k | bool k | unit =>
      cases hy
      exact Nat.le_of_ble_eq_true rfl
  | error | invalid => cases hy

/-- A value of one slot is below the top of the frame. -/
theorem Scope.Laid.lt (hx : x.Laid L) (hn : L.frameSize.toInt ≤ n) {s : Span}
    (hs : L.spans[v]? = some s) (hlen : s.len = 1) : s.base.toInt < n := by
  have hslot := hx.slot_lt hn hs (i := 0) (by rw [hlen]; decide)
  rwa [add_ofNat_zero] at hslot

/-- The slots of two values are the same or apart. -/
theorem Scope.Laid.apart_spans (hx : x.Laid L) {s s' : Span} {k : Nat}
    (hs : L.spans[v]? = some s) (hs' : L.spans[w]? = some s')
    (hk : (k : Int) ≤ s.len.toInt) (hk' : (k : Int) ≤ s'.len.toInt) :
    Apart s.base s'.base k := by
  by_cases hvw : v = w
  · subst hvw
    rw [hs, Option.some.injEq] at hs'
    exact Or.inl (hs' ▸ rfl)
  · exact Or.inr fun i hi j hj => hx.slot_ne hvw hs hs' (by omega) (by omega)

/-- A value's slot is the base of its span. -/
theorem offset_ok {k : Nat} {off : Int32} (hS : Stage L k n b)
    (h : Scope.offset v b = .ok off b') : b = b' ∧ ∃ s, L.spans[v]? = some s
      ∧ off = s.base := by
  obtain ⟨_, b₁, h₁, h⟩ := bind_ok_iff.mp h
  cases h₁
  obtain ⟨l, b₂, h₂, h⟩ := bind_ok_iff.mp h
  obtain ⟨hl, rfl⟩ := need_ok_iff.mp h₂
  rw [hS.layout, Option.some.injEq] at hl
  subst hl
  rw [Layout.offset] at h
  dsimp only at h
  cases hs : L.spans[v]? with
  | none =>
      rw [hs] at h
      exact absurd h failWith_ne_ok
  | some s =>
      rw [hs] at h
      cases h
      exact ⟨rfl, s, rfl, rfl⟩

theorem offset_eq {l : Layout} {s : Span} (hl : b.layout = some l)
    (hs : l.spans[d]? = some s) : Scope.offset d b = .ok s.base b := by
  have hneed : need b.layout b = .ok l b := need_ok_iff.mpr ⟨hl, rfl⟩
  refine (bind_of_ok (m := MonadState.get) rfl).trans
    ((bind_of_ok hneed).trans ?_)
  rw [Layout.offset, hs]
  rfl

/-- What an operand of one slot is selected as. -/
inductive Scope.Chosen (x : Scope) (L : Layout) : Operand → Val → Prop where
  | int (k : Int32) : Chosen x L (.int k) (Val.ofInt k)
  | bool (c : Bool) : Chosen x L (.bool c) (Val.ofInt (bit c))
  | value {v : ValueId} {s : Span} (computed : v ∉ x.static)
      (span : L.spans[v]? = some s) :
      Chosen x L (.value v) (.slot s.base)

/-- An operand is chosen from a literal and a slot, and nothing is emitted for
it. -/
theorem val_ok {k : Nat} {o : Operand} {w : Val} (hS : Stage L k n b)
    (h : x.val o b = .ok w b') : b = b' ∧ x.Chosen L o w := by
  cases o with
  | int c =>
      cases h
      exact ⟨rfl, .int c⟩
  | bool c =>
      cases h
      exact ⟨rfl, .bool c⟩
  | value v =>
      have h : (if x.isStatic v then failWith (.addressAsValue v)
        else return .slot (← Scope.offset v)) b = .ok w b' := h
      split at h
      · exact absurd h failWith_ne_ok
      rename_i hstatic
      obtain ⟨off, b₁, h₁, h⟩ := bind_ok_iff.mp h
      cases h
      obtain ⟨rfl, s, hs, rfl⟩ := offset_ok hS h₁
      rw [Scope.isStatic, Std.ExtTreeMap.contains_iff_mem] at hstatic
      exact ⟨rfl, .value hstatic hs⟩
  | unit => exact absurd h failWith_ne_ok
  | error => exact absurd h failWith_ne_ok
  | invalid => exact absurd h failWith_ne_ok

/-- An operand in a slot is no address known statically. -/
theorem Scope.Chosen.not_static {o : Operand} {w : Val}
    (h : x.Chosen L o w) (v : ValueId) (ho : o = .value v) : v ∉ x.static := by
  subst ho
  cases h with
  | value hstatic => exact hstatic

/-- A number is reduced to the element that it stands for. -/
theorem Val.holds_ofInt (k : Int32) (σ : FrameSlots) :
    (Val.ofInt k).Holds σ (Felt.ofInt64 k.toInt64) :=
  ⟨Felt.ofWord_toInt32 _, Felt.canonical_ofInt64 _⟩

/-- A selected operand is what the operand stands for. -/
theorem Scope.Chosen.holds {o : Operand} {w : Val}
    (h : x.Chosen L o w) {y : Int64} (hy : Stands L σ o [y]) :
    ∃ a : Felt, a.toInt64 = y ∧ w.Holds σ a := by
  cases h with
  | int k =>
      rw [Stands, Interp.feltSlots, List.cons.injEq] at hy
      exact ⟨_, hy.1.symm, Val.holds_ofInt k σ⟩
  | bool c =>
      rw [Stands, List.cons.injEq] at hy
      refine ⟨_, ?_, Val.holds_ofInt _ σ⟩
      rw [hy.1]
      cases c <;> rfl
  | value hstatic hs =>
      obtain ⟨s', hs', hshows⟩ := hy
      rw [hs, Option.some.injEq] at hs'
      subst hs'
      obtain ⟨a, ha, hay, hσ⟩ := hshows 0 y rfl
      rw [add_ofNat_zero] at hσ
      exact ⟨a, hay, hσ, ha⟩

/-- An operand of one slot is below the top of the frame. -/
theorem Scope.Chosen.below {o : Operand} {w : Val}
    (h : x.Chosen L o w) (hx : x.Laid L) (hn : L.frameSize.toInt ≤ n)
    (hone : (x.func.operandType o).slots = 1) : w.Below n := by
  cases h with
  | int k => trivial
  | bool c => trivial
  | value hstatic hs => exact hx.lt hn hs ((hx.len _ _ hs hstatic).trans hone)

-- =================================================================== moves

/-- Copying slots: the count is taken as it is when it is small. -/
theorem copySlots_leads {src : Int32} (hst : Standing code base t b')
    (h : Builder.copySlots src dst m b = .ok u b')
    (hm : (xs.length : Int) = m.toInt) (hsmall : m.toInt ≤ 16777216)
    (hshows : Shows σ src xs) (hapart : Apart src dst xs.length) :
    ∃ σ', Leads code base b.code.length σ b'.code.length σ'
        ∧ Puts n e dst xs σ σ' := by
  have hcount : m.toInt32.toInt.toNat = xs.length := by
    rw [Layout.toInt_toInt32_of_le (by omega) hsmall, ← hm, Int.toNat_natCast]
  rw [Builder.copySlots, hcount] at h
  obtain ⟨σ', hleads, hcopied, hother⟩ :=
    copyRun_leads hst h (by omega) hapart (σ := σ)
    fun i hi => by
      obtain ⟨a, -, -, ha⟩ := hshows i _ (List.getElem?_eq_getElem hi)
      exact ⟨a, ha⟩
  refine ⟨σ', hleads, fun i y hy => ?_, fun off _ hne => hother off hne⟩
  rw [hcopied i (List.getElem?_eq_some_iff.mp hy).1]
  exact hshows i y hy

/-- Storing an operand of one slot. -/
theorem move_leads {w : Val} {a : Felt} (hst : Standing code base t b')
    (h : Builder.move w dst b = .ok u b') (hw : w.Holds σ a) :
    Leads code base b.code.length σ b'.code.length
      (Function.update σ dst (some a)) := by
  cases w with
  | slot off => exact copy_leads hst h hw.1
  | const k =>
      rw [← hw.1]
      exact storeLit_leads hst h σ

/-- How an operand of some slots is stored: a value slot by slot, another
operand if it is of one slot. -/
theorem moveTo_ok {o : Operand} (hS : Stage L 0 n b)
    (h : x.moveTo o dst m b = .ok u b') : (m = 0 ∧ b = b')
      ∨ (∃ v s, o = .value v ∧ v ∉ x.static ∧ L.spans[v]? = some s
        ∧ Builder.copySlots s.base dst m b = .ok u b')
      ∨ (m = 1 ∧ ∃ w, x.Chosen L o w ∧ Builder.move w dst b = .ok u b') := by
  by_cases hzero : m = 0
  · subst hzero
    cases o <;> cases h <;> exact Or.inl ⟨rfl, rfl⟩
  refine Or.inr ?_
  have hliteral
    (h : (if m ≠ 1 then (failWith (.wideLiteral o m) : Emit PUnit) >>= fun _ =>
      (x.val o >>= fun w => Builder.move w dst) else x.val o
        >>= fun w => Builder.move w dst) b
        = .ok u b') : m = 1 ∧ ∃ w, x.Chosen L o w
        ∧ Builder.move w dst b = .ok u b' := by
    split at h
    · obtain ⟨_, _, hfail, -⟩ := bind_ok_iff.mp h
      exact absurd hfail failWith_ne_ok
    rename_i hone
    obtain ⟨w, b₁, h₁, hmove⟩ := bind_ok_iff.mp h
    obtain ⟨rfl, hw⟩ := val_ok hS h₁
    exact ⟨not_not.mp hone, w, hw, hmove⟩
  rw [Scope.moveTo.eq_def, if_neg hzero] at h
  cases o with
  | value v =>
      obtain ⟨w, b₁, h₁, h⟩ := bind_ok_iff.mp h
      obtain ⟨rfl, hw⟩ := val_ok hS h₁
      cases hw with
      | value hstatic hs => exact Or.inl ⟨v, _, rfl, hstatic, hs, h⟩
  | int k => exact Or.inr (hliteral h)
  | bool c => exact Or.inr (hliteral h)
  | unit => exact Or.inr (hliteral h)
  | error => exact Or.inr (hliteral h)
  | invalid => exact Or.inr (hliteral h)

/-- What is moved is no known address, unless nothing is. -/
theorem moveTo_not_static {o : Operand} {dst : Int32} {m : Int64}
    (hS : Stage L 0 n b) (h : x.moveTo o dst m b = .ok u b')
    (ho : o = .value v) : m = 0 ∨ v ∉ x.static := by
  subst ho
  obtain ⟨hm, -⟩ | ⟨v', s, hv, hstatic, -⟩ | ⟨-, w, hw, -⟩ := moveTo_ok hS h
  · exact Or.inl hm
  · cases hv
    exact Or.inr hstatic
  · exact Or.inr (hw.not_static v rfl)

/-- What is stored is no known address, which has a slot and would have been
noticed. -/
theorem moveTo_computed {o : Operand} (hx : x.Laid L) (hS : Stage L 0 n b)
    (h : x.moveTo o dst m b = .ok u b')
    (hm : (x.func.operandType o).slots = m) (v : ValueId) (ho : o = .value v) :
    v ∉ x.static := by
  intro hstatic
  rcases moveTo_not_static hS h ho with rfl | hnot
  · subst ho
    have hone : (0 : Int64) = 1 := hm.symm.trans (hx.address v hstatic)
    exact absurd hone (by decide)
  · exact hnot hstatic

/-- Storing an operand takes no fresh slot, whatever the operand is. -/
theorem moveTo_stage {o : Operand} (hS : Stage L 0 n b)
    (h : x.moveTo o dst m b = .ok u b') : Stage L 0 n b' := by
  obtain ⟨-, rfl⟩ | ⟨v, s, -, -, -, h⟩ | ⟨-, w, -, h⟩ := moveTo_ok hS h
  · exact hS
  · obtain ⟨hlayout, hle⟩ := copyRun_layout h
    exact hS.keep hlayout hle
  · cases w with
    | slot off =>
        obtain ⟨hlayout, hle⟩ := copy_layout h
        exact hS.keep hlayout hle
    | const k =>
        obtain ⟨hcode, -, -, hlayout⟩ := emit_getElem? h
        exact hS.keep hlayout (by rw [hcode]; simp)

/-- Storing an operand of some slots. -/
theorem moveTo_leads {o : Operand} (hS : Stage L 0 n b)
    (hst : Standing code base t b') (h : x.moveTo o dst m b = .ok u b')
    (hm : (xs.length : Int) = m.toInt) (hsmall : m.toInt ≤ 16777216)
    (ho : Stands L σ o xs) (hapart : ∀ v s, o = .value v → v ∉ x.static →
      L.spans[v]? = some s →
      Apart s.base dst xs.length) :
    ∃ σ', Leads code base b.code.length σ b'.code.length σ'
        ∧ Puts n e dst xs σ σ' := by
  obtain ⟨rfl, rfl⟩ | ⟨v, s, rfl, hstatic, hs, h⟩
      | ⟨rfl, w, hw, h⟩ := moveTo_ok hS h
  · obtain rfl := List.length_eq_zero_iff.mp (Int.natCast_eq_zero.mp hm)
    exact ⟨σ, .refl _ _ _ _, .nil n e dst σ⟩
  · obtain ⟨s', hs', hshows⟩ := ho
    rw [hs, Option.some.injEq] at hs'
    subst hs'
    exact copySlots_leads hst h hm hsmall hshows (hapart v s rfl hstatic hs)
  · obtain ⟨y, rfl⟩ : ∃ y, xs = [y] :=
      List.length_eq_one_iff.mp (Int.ofNat.inj hm)
    obtain ⟨a, rfl, ha⟩ := hw.holds ho
    exact ⟨_, move_leads hst h ha, (Sets.update n e dst a σ).puts ha.canonical⟩

-- =============================================================== operators

/-- Code that puts into the slots of a value whatever it is said to give for a
frame of the interpreter, and takes the slots from the `n`-th to the top of the
frame for itself. -/
structure Fills (code : List Insn) (base : Nat) (x : Scope) (L : Layout)
    (n : Nat) (b b' : Builder) (d : ValueId)
    (gives : Interp.Frame → Slots → Prop) : Prop where
  stage : ∃ n', n ≤ n' ∧ Stage L 0 n' b'
  run : ∃ s, L.spans[d]? = some s ∧ ∀ σ fr zs, x.Mirrors L fr σ → gives fr zs →
    (zs.length : Int) = s.len.toInt
      ∧ ∃ σ', Leads code base b.code.length σ b'.code.length σ'
      ∧ Puts n b'.top s.base zs σ σ'

/-- What is computed from two operands fills a value of one slot. -/
theorem Computes.fills {l r : Val} {ol or : Operand} {s : Span}
    {f : Felt → Felt → Felt} (h : Computes code base L n b b' l r s.base f)
    (hs : L.spans[d]? = some s) (hlen : s.len = 1) (hl : x.Chosen L ol l)
    (hr : x.Chosen L or r) (hf : ∀ y z, (f y z).Canonical)
    {gives : Interp.Frame → Slots → Prop}
    (hgives : ∀ fr zs, gives fr zs → ∃ y z, Interp.lookScalar fr ol = some y
      ∧ Interp.lookScalar fr or = some z
      ∧ ∀ a c : Felt, a.Canonical → c.Canonical →
        a.toInt64 = y → c.toInt64 = z →
        zs = [(f a c).toInt64]) : Fills code base x L n b b' d gives := by
  refine ⟨h.stage, s, hs, fun σ fr zs hfr hzs => ?_⟩
  obtain ⟨y, z, hy, hz, hresult⟩ := hgives fr zs hzs
  obtain ⟨a, hay, ha⟩ := hl.holds (hfr.stands_scalar hy hl.not_static)
  obtain ⟨c, hcz, hc⟩ := hr.holds (hfr.stands_scalar hz hr.not_static)
  obtain ⟨σ', hleads, hsets⟩ := h.run ha hc
  rw [hresult a c ha.canonical hc.canonical hay hcz, hlen]
  exact ⟨rfl, σ', hleads, hsets.puts (hf a c)⟩

/-- The bit of a truth value is the same on both sides. -/
theorem toInt64_truth (c : Bool) : (Felt.truth c).toInt64 = Interp.bit c := by
  cases c <;> rfl

/-- The slot of a value of one slot. -/
theorem Scope.Laid.slot (hx : x.Laid L) (hS : Stage L 0 n b) {off : Int32}
    (h : Scope.offset d b = .ok off b') (hd : d ∉ x.static)
    (hone : (x.func.typeOf d).slots = 1) :
    b = b' ∧ ∃ s, L.spans[d]? = some s ∧ off = s.base ∧ s.len = 1
        ∧ s.base.toInt < n := by
  obtain ⟨hb, s, hs, hoff⟩ := offset_ok hS h
  have hlen : s.len = 1 := (hx.len _ _ hs hd).trans hone
  exact ⟨hb, s, hs, hoff, hlen, hx.lt hS.low hs hlen⟩

/-- What is computed for an operator on one operand, of which only the first of
two is looked at. -/
theorem unary_computes {op : UnaryOp} {o : Operand} (hS : Stage L 0 n b)
    (h : x.unary op d o b = .ok u b') :
    ∃ s w c f, L.spans[d]? = some s ∧ x.Chosen L o w
      ∧ (w.Below n → s.base.toInt < n → ∀ code base t, Standing code base t b' →
        Computes code base L n b b' w (Val.ofInt c) s.base f)
      ∧ (∀ y z, (f y z).Canonical)
      ∧ ∀ a : Felt, a.Canonical →
        Interp.unaryOp op a.toInt64
            = .ok [(f a (Felt.ofInt64 c.toInt64)).toInt64] := by
  obtain ⟨_, b₁, h₁, h⟩ := bind_ok_iff.mp h
  obtain ⟨rfl, s, hs, rfl⟩ := offset_ok hS h₁
  obtain ⟨w, b₂, h₂, h⟩ := bind_ok_iff.mp h
  obtain ⟨rfl, hw⟩ := val_ok hS h₂
  have hS₁ := hS.weaken (Nat.zero_le 1)
  cases op with
  | neg =>
      refine ⟨s, w, -1, (· * ·), hs, hw, fun hbelow hlt code base t hst => ?_,
        fun _ _ => Felt.canonical_mul, fun a ha => ?_⟩
      · exact arith_computes arithMul_works hS₁ hst hbelow
          (r := Val.ofInt (-1)) trivial hlt h
      · rw [Interp.unaryOp, Felt.ofInt64_toInt64 ha]
        exact congrArg (fun z : Felt => (.ok [z.toInt64] : Interp.Access Slots))
          (Felt.mul_ofInt64_neg_one ha).symm
  | not =>
      refine ⟨s, w, 0, fun y _ => Felt.truth y.isZero, hs, hw,
        fun _ _ code base t hst => ?_, fun _ _ =>
        Felt.canonical_truth _, fun a _ => ?_⟩
      · cases w with
        | const k =>
            refine storeLit_computes hS₁ hst h ?_
            rintro σ _ _ ⟨rfl, -⟩ -
            rw [isZero_ofWord]
            rfl
        | slot off =>
            obtain ⟨hlayout, hlt, hrun⟩ := normalize_spec hst h
            refine ⟨⟨n, le_rfl, hS.keep hlayout hlt.le⟩, ?_⟩
            rintro σ y z ⟨hy, -⟩ -
            rw [← beq_true y.isZero]
            exact ⟨_, hrun σ y hy, Sets.update _ _ _ _ _⟩
      · rw [Interp.unaryOp, toInt64_truth]
        simp only [Felt.toInt64_eq_zero_iff, Bool.decide_eq_true]
  | unassigned c => exact absurd h failWith_ne_ok

/-- What is computed for an operator on two operands. -/
theorem binary_computes {op : BinaryOp} {l r : Operand} (hS : Stage L 0 n b)
    (h : x.binary op d l r b = .ok u b') :
    op.isU32 = false ∧ ∃ s v w f, L.spans[d]? = some s
        ∧ x.Chosen L l v ∧ x.Chosen L r w
      ∧ (v.Below n → w.Below n → s.base.toInt < n →
          ∀ code base t, Standing code base t b' →
        Computes code base L n b b' v w s.base f)
      ∧ (∀ y z, (f y z).Canonical)
      ∧ ∀ a c : Felt, (op = .div → c.isZero = false) →
        Interp.fieldOp op a c = .ok [(f a c).toInt64] := by
  rw [Scope.binary] at h
  split at h
  · obtain ⟨_, _, hfail, -⟩ := bind_ok_iff.mp h
    exact absurd hfail failWith_ne_ok
  rename_i hfield
  obtain ⟨_, b₁, h₁, h⟩ := bind_ok_iff.mp h
  obtain ⟨rfl, s, hs, rfl⟩ := offset_ok hS h₁
  obtain ⟨v, b₂, h₂, h⟩ := bind_ok_iff.mp h
  obtain ⟨rfl, hv⟩ := val_ok hS (under_ok_iff.mp h₂)
  obtain ⟨w, b₃, h₃, h⟩ := bind_ok_iff.mp h
  obtain ⟨rfl, hw⟩ := val_ok hS (under_ok_iff.mp h₃)
  have hS₁ := hS.weaken (Nat.zero_le 1)
  refine ⟨by simpa using hfield, s, v, w, ?_⟩
  have hcan {p : Felt → Felt → Bool} : ∀ y z, (Felt.truth (p y z)).Canonical :=
    fun _ _ => Felt.canonical_truth _
  have htruth {p q : Bool} (hpq : p = q) :
      (.ok [Interp.bit p] : Interp.Access Slots)
      = .ok [(Felt.truth q).toInt64] := by
    rw [toInt64_truth, hpq]
  cases op with
  | add =>
      exact ⟨_, hs, hv, hw, fun hvb hwb hlt _ _ _ hst =>
        arith_computes arithAdd_works hS₁ hst hvb hwb hlt h,
        arithAdd_works.canonical, fun _ _ _ => rfl⟩
  | sub =>
      exact ⟨_, hs, hv, hw, fun hvb hwb hlt _ _ _ hst =>
        arith_computes arithSub_works hS₁ hst hvb hwb hlt h,
        arithSub_works.canonical, fun _ _ _ => rfl⟩
  | mul =>
      exact ⟨_, hs, hv, hw, fun hvb hwb hlt _ _ _ hst =>
        arith_computes arithMul_works hS₁ hst hvb hwb hlt h,
        arithMul_works.canonical, fun _ _ _ => rfl⟩
  | div =>
      refine ⟨_, hs, hv, hw, fun hvb hwb hlt _ _ _ hst =>
        arith_computes arithDiv_works hS₁ hst hvb hwb hlt h,
          arithDiv_works.canonical, ?_⟩
      intro a c hc
      rw [Interp.fieldOp, if_neg (by simp [hc rfl])]
      rfl
  | eq =>
      exact ⟨_, hs, hv, hw, fun hvb hwb hlt _ _ _ hst =>
        equality_computes hS₁ hst hvb hwb hlt h, hcan,
          fun a c _ => htruth (beq_true _).symm⟩
  | neq =>
      exact ⟨_, hs, hv, hw, fun hvb hwb hlt _ _ _ hst =>
        equality_computes hS₁ hst hvb hwb hlt h, hcan,
        fun a c _ => htruth (by rw [beq_false, ← decide_not])⟩
  | and =>
      exact ⟨_, hs, hv, hw, fun hvb hwb hlt _ _ _ hst =>
        conjunction_computes hS₁ hst hvb hwb hlt h, hcan,
          fun a c _ => htruth rfl⟩
  | or =>
      exact ⟨_, hs, hv, hw, fun hvb hwb hlt _ _ _ hst =>
        disjunction_computes hS₁ hst hvb hwb hlt h, hcan,
          fun a c _ => htruth rfl⟩
  | _ => exact absurd h failWith_ne_ok

/-- An operator on one operand gives what it says. -/
theorem unary_fills {op : UnaryOp} {o : Operand} (hx : x.Laid L)
    (hS : Stage L 0 n b) (hst : Standing code base t b') (hd : d ∉ x.static)
    (hone : (x.func.typeOf d).slots = 1) (ho : (x.func.operandType o).slots = 1)
    (h : x.unary op d o b = .ok u b') :
    Fills code base x L n b b' d fun fr zs => ∃ y,
      Interp.lookScalar fr o = some y
      ∧ Interp.unaryOp op y = .ok zs := by
  obtain ⟨s, w, k, f, hs, hw, hcomputes, hcan, hop⟩ := unary_computes hS h
  have hlen : s.len = 1 := (hx.len _ _ hs hd).trans hone
  have hc :=
    hcomputes (hw.below hx hS.low ho) (hx.lt hS.low hs hlen) code base t hst
  refine hc.fills hs hlen hw (.int k) hcan ?_
  rintro fr zs ⟨y, hy, hzs⟩
  refine ⟨y, _, hy, rfl, fun a c ha hc hay hck => ?_⟩
  rw [← hay, hop a ha, Except.ok.injEq] at hzs
  rw [← hzs, ← Felt.ofInt64_toInt64 hc, hck,
    Felt.ofInt64_toInt64 (Felt.canonical_ofInt64 _)]

/-- An operator on two operands gives what it says. -/
theorem binary_fills {op : BinaryOp} {l r : Operand} (hx : x.Laid L)
    (hS : Stage L 0 n b) (hst : Standing code base t b') (hd : d ∉ x.static)
    (hone : (x.func.typeOf d).slots = 1) (hl : (x.func.operandType l).slots = 1)
    (hr : (x.func.operandType r).slots = 1)
    (h : x.binary op d l r b = .ok u b') :
    Fills code base x L n b b' d fun fr zs => ∃ y z, Interp.look fr l = some y
      ∧ Interp.look fr r = some z
      ∧ Interp.binaryOp op y.slots z.slots = .ok zs := by
  obtain ⟨hfield, s, v, w, f, hs, hv, hw, hcomputes, hcan, hop⟩ :=
    binary_computes hS h
  have hlen : s.len = 1 := (hx.len _ _ hs hd).trans hone
  have hc := hcomputes (hv.below hx hS.low hl) (hw.below hx hS.low hr)
    (hx.lt hS.low hs hlen)
    code base t hst
  refine hc.fills hs hlen hv hw hcan ?_
  rintro fr zs ⟨y, z, hy, hz, hzs⟩
  rw [Interp.binaryOp.eq_def, if_neg (by simp [hfield])] at hzs
  split at hzs
  · rename_i hyslots hzslots
    refine ⟨_, _, Interp.lookScalar_eq_some.mpr ⟨y, hy, hyslots⟩,
      Interp.lookScalar_eq_some.mpr ⟨z, hz, hzslots⟩,
        fun a c ha hc hay hcz => ?_⟩
    rw [← hay, ← hcz, Felt.ofInt64_toInt64 ha, Felt.ofInt64_toInt64 hc] at hzs
    have hdiv : op = .div → c.isZero = false := by
      rintro rfl
      rw [Interp.fieldOp] at hzs
      split at hzs
      · cases hzs
      · simpa using ‹¬ c.isZero = true›
    rw [hop a c hdiv, Except.ok.injEq] at hzs
    exact hzs.symm
  · cases hzs

/-- A step from an address that is only known at run time, below the order of
the field. -/
theorem elementPtr_fills {l r : Operand} (hx : x.Laid L) (hS : Stage L 0 n b)
    (hst : Standing code base t b') (hd : d ∉ x.static)
    (hone : (x.func.typeOf d).slots = 1) (hl : (x.func.operandType l).slots = 1)
    (hr : (x.func.operandType r).slots = 1)
    (h : x.elementPtr d l r b = .ok u b') :
    Fills code base x L n b b' d fun fr zs => ∃ y z,
      Interp.lookScalar fr l = some y
      ∧ Interp.lookScalar fr r = some z
      ∧ ((∀ v, l = .value v → v ∉ x.static) → y.toInt + z.toInt < 2147483647)
      ∧ zs = [y + z] := by
  rw [Scope.elementPtr] at h
  split at h
  · obtain ⟨_, _, hfail, -⟩ := bind_ok_iff.mp h
    exact absurd hfail failWith_ne_ok
  obtain ⟨_, b₁, h₁, h⟩ := bind_ok_iff.mp h
  obtain ⟨rfl, s, hs, rfl, hlen, hlt⟩ := hx.slot hS h₁ hd hone
  obtain ⟨v, b₂, h₂, h⟩ := bind_ok_iff.mp h
  obtain ⟨rfl, hv⟩ := val_ok hS h₂
  obtain ⟨w, b₃, h₃, h⟩ := bind_ok_iff.mp h
  obtain ⟨rfl, hw⟩ := val_ok hS h₃
  have hadd := arith_computes arithAdd_works (hS.weaken (Nat.zero_le 1)) hst
    (hv.below hx hS.low hl) (hw.below hx hS.low hr) hlt h
  refine hadd.fills hs hlen hv hw arithAdd_works.canonical ?_
  rintro fr zs ⟨y, z, hy, hz, hsum, rfl⟩
  refine ⟨y, z, hy, hz, fun a c ha hc hay hcz => ?_⟩
  subst hay hcz
  rw [← Felt.toInt64_add_of_lt ha hc (hsum hv.not_static)]
  rfl

-- ================================================================ memory

/-- Storing an operand in a value of as many slots. -/
theorem define_fills {o : Operand} (hx : x.Laid L) (hS : Stage L 0 n b)
    (hst : Standing code base t b') (hd : d ∉ x.static)
    (hm : m = (x.func.typeOf d).slots) (ho : (x.func.operandType o).slots = m)
    (h : x.define d o m b = .ok u b') :
    Fills code base x L n b b' d fun fr zs => ∃ y, Interp.look fr o = some y
        ∧ zs = y.slots := by
  obtain ⟨_, b₁, h₁, h⟩ := bind_ok_iff.mp h
  obtain ⟨rfl, s, hs, rfl⟩ := offset_ok hS h₁
  have hlen : s.len = m := (hx.len d s hs hd).trans hm.symm
  refine ⟨⟨n, le_rfl, moveTo_stage hS h⟩, s, hs, ?_⟩
  rintro σ fr _ hfr ⟨y, hy, rfl⟩
  have hnot := moveTo_computed hx hS h ho
  have hcount : (y.slots.length : Int) = m.toInt :=
    (hfr.length_eq hx hy hnot).trans (by rw [ho])
  refine ⟨by rw [hlen, hcount],
    moveTo_leads hS hst h hcount (hlen ▸ hx.len_le hs)
    (hfr.stands hy hnot) fun v s' hv hstatic hs' => ?_⟩
  subst hv
  have hlen' : s'.len = m := (hx.len v s' hs' hstatic).trans ho
  exact hx.apart_spans hs' hs (by rw [hlen', hcount]) (by rw [hlen, hcount])

/-- The slots of a type in memory are those of a value, where they are answered
at all. -/
theorem memSlots_ok {ty : Ty} (h : Scope.memSlots ty b = .ok m b') :
    b = b' ∧ m = ty.slots := by
  rw [Scope.memSlots] at h
  split at h
  · cases h
    exact ⟨rfl, rfl⟩
  obtain ⟨k, b₁, h₁, h⟩ := bind_ok_iff.mp h
  obtain ⟨-, rfl⟩ := need_ok_iff.mp h₁
  split at h
  · obtain ⟨_, _, hfail, -⟩ := bind_ok_iff.mp h
    exact absurd hfail failWith_ne_ok
  cases h
  exact ⟨rfl, rfl⟩

/-- Loading word by word leaves the layout. -/
theorem loadWords_layout {q i : Int32} {k : Nat}
    (h : Scope.loadWords q dst i k b = .ok u b') :
    b'.layout = b.layout ∧ b.code.length ≤ b'.code.length := by
  induction k generalizing i b with
  | zero =>
      cases h
      exact ⟨rfl, le_rfl⟩
  | succ k ih =>
      obtain ⟨_, b₁, h₁, h⟩ := bind_ok_iff.mp h
      obtain ⟨hcode, -, -, hlayout₁⟩ := emit_getElem? h₁
      obtain ⟨hlayout, hle⟩ := ih h
      refine ⟨hlayout.trans hlayout₁, le_trans ?_ hle⟩
      rw [hcode, List.length_append]
      omega

/-- Loading through an address that is known beforehand. -/
theorem load_puts {o : Operand} {ty : Ty} (hx : x.Laid L) (hS : Stage L 0 n b)
    (hst : Standing code base t b') (hd : d ∉ x.static)
    (hty : ty.slots = (x.func.typeOf d).slots)
    (h : x.load d ty o b = .ok u b') :
    Stage L 0 n b' ∧ ∃ s, L.spans[d]? = some s ∧ s.len = ty.slots
        ∧ ∀ σ zs v a, o = .value v →
      x.static[v]? = some a → Shows σ a zs →
        (zs.length : Int) = ty.slots.toInt →
      Apart a s.base zs.length →
      ∃ σ', Leads code base b.code.length σ b'.code.length σ'
          ∧ Puts n b'.top s.base zs σ σ' := by
  obtain ⟨_, b₁, h₁, h⟩ := bind_ok_iff.mp h
  obtain ⟨rfl, s, hs, rfl⟩ := offset_ok hS h₁
  have hlen : s.len = ty.slots := (hx.len d s hs hd).trans hty.symm
  obtain ⟨_, b₂, h₂, h⟩ := bind_ok_iff.mp h
  obtain ⟨rfl, rfl⟩ := memSlots_ok h₂
  cases o with
  | value v =>
      dsimp only at h
      cases ha : x.static[v]? with
      | some a =>
          rw [ha] at h
          obtain ⟨hlayout, hle⟩ := copyRun_layout h
          refine ⟨hS.keep hlayout hle, s, hs, hlen, ?_⟩
          rintro σ zs _ a' ⟨⟩ ha' hshows hcount hapart
          rw [ha, Option.some.injEq] at ha'
          subst ha'
          exact copySlots_leads hst h hcount (hlen ▸ hx.len_le hs) hshows hapart
      | none =>
          rw [ha] at h
          refine ⟨?_, s, hs, hlen, ?_⟩
          · obtain ⟨w, b₃, h₃, h⟩ := bind_ok_iff.mp h
            obtain ⟨rfl, hw⟩ := val_ok hS h₃
            cases hw with
            | value _ hs' =>
                obtain ⟨hlayout, hle⟩ := loadWords_layout h
                exact hS.keep hlayout hle
          · rintro σ zs _ a' ⟨⟩ ha'
            rw [ha] at ha'
            cases ha'
  | _ => exact absurd h failWith_ne_ok

/-- Storing an operand through an address, which is known beforehand. -/
theorem store_puts {o o' : Operand} {ty : Ty} (hx : x.Laid L)
    (hS : Stage L 0 n b) (hst : Standing code base t b')
    (hty : (x.func.operandType o').slots
      = (if ty.isMissing then x.func.operandType o' else ty).slots)
    (h : x.store o o' ty b = .ok u b') :
    Stage L 0 n b' ∧ (∀ w, o' = .value w → w ∉ x.static)
      ∧ ∃ v a, o = .value v ∧ x.static[v]? = some a
        ∧ ∀ σ fr y, x.Mirrors L fr σ →
        Interp.look fr o' = some y →
        (∀ w s, o' = .value w → L.spans[w]? = some s →
          Apart s.base a y.slots.length) →
        ∃ σ', Leads code base b.code.length σ b'.code.length σ'
            ∧ Puts n b'.top a y.slots σ σ' := by
  obtain ⟨_, b₁, h₁, h⟩ := bind_ok_iff.mp h
  obtain ⟨rfl, rfl⟩ := memSlots_ok h₁
  cases o with
  | value v =>
      dsimp only at h
      cases ha : x.static[v]? with
      | some a =>
          rw [ha] at h
          have hnot := moveTo_computed hx hS h hty
          refine ⟨moveTo_stage hS h, hnot, v, a, rfl, ha,
            fun σ fr y hfr hy hapart => ?_⟩
          have hcount :=
            (hfr.length_eq hx hy hnot).trans (congrArg Int64.toInt hty)
          have hsmall := hfr.length_le hx hy hnot
          exact moveTo_leads hS hst h hcount (by omega) (hfr.stands hy hnot)
            fun w s hw _ => hapart w s hw
      | none =>
          rw [ha] at h
          exact absurd h failWith_ne_ok
  | _ => exact absurd h failWith_ne_ok

-- ============================================================ instructions

/-- The slots that an assignment copies are those of its destination. -/
theorem slots_of_assign {f : Func} {o : Operand} {ty : Ty}
    (h : (Instr.assign d o ty).Fits f) :
    (if ty.isMissing then f.typeOf d else ty).slots = (f.typeOf d).slots := by
  split
  · rfl
  · rename_i hty
    exact h.2 (by simpa using hty)

/-- The slots that a store writes are those of what is stored. -/
theorem slots_of_store {f : Func} {o o' : Operand} {ty : Ty}
    (h : (Instr.store o o' ty).Fits f) :
    (f.operandType o').slots
      = (if ty.isMissing then f.operandType o' else ty).slots := by
  split
  · rfl
  · rename_i hty
    exact (h (by simpa using hty)).symm

/-- The code of an instruction leaves the frame in a stage, run or not. -/
theorem instr_stage {i : Instr} (hx : x.Laid L) (hfits : i.FitsFrame x.func)
    (hS : Stage L 0 n b) (hst : Standing code base t b')
    (h : x.instr i b = .ok u b') : ∃ n', n ≤ n' ∧ Stage L 0 n' b' := by
  rw [Scope.instr] at h
  split at h
  · cases h
    exact ⟨n, le_rfl, hS⟩
  rename_i hdests
  have hnot {d : ValueId} (hi : i.dests = [d]) : d ∉ x.static := by
    rw [hi, List.any_cons, List.any_nil, Bool.or_false, Scope.isStatic,
      Std.ExtTreeMap.contains_iff_mem] at hdests
    exact hdests
  obtain hfits | _ := hfits
  swap
  · exact absurd h failWith_ne_ok
  cases i with
  | assign d v ty =>
      exact (define_fills hx hS hst (hnot rfl) (slots_of_assign hfits)
        (hfits.1.trans (slots_of_assign hfits).symm) h).stage
  | cast d v a c =>
      have h : (if a.slots ≠ c.slots then failWith (.cast a c)
        else x.define d v c.slots) b
        = .ok u b' := h
      rw [if_neg (not_not.mpr hfits.2.1)] at h
      exact (define_fills hx hS hst (hnot rfl) hfits.2.2
        (hfits.1.trans hfits.2.1) h).stage
  | unary op d v =>
    exact (unary_fills hx hS hst (hnot rfl) hfits.1 hfits.2 h).stage
  | binary op d l r =>
    exact (binary_fills hx hS hst (hnot rfl) hfits.1 hfits.2.1
      hfits.2.2 h).stage
  | elementPtr d l r =>
      exact (elementPtr_fills hx hS hst (hnot rfl) hfits.1 hfits.2.1
        hfits.2.2 h).stage
  | load d ty a => exact ⟨n, le_rfl, (load_puts hx hS hst (hnot rfl) hfits h).1⟩
  | store a v ty =>
    exact ⟨n, le_rfl, (store_puts hx hS hst (slots_of_store hfits) h).1⟩
  | frameAlloc d ty => exact absurd h failWith_ne_ok
  | _ => exact hfits.elim

end Asm

end MirBackend
