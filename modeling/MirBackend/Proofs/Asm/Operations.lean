/-
What the code of moves and operators computes.

Emission takes fresh slots above the frame where an operand is in the way. A
slot is fresh as long as the frame did not grow past what an offset can say,
and it did not, because every fresh slot comes with an instruction that fills
it (`Stage`). So each operation stores its result in its destination and leaves
all other slots as they were, apart from its own fresh ones, which lie between
the top of the frame before and the top after (`Sets`); `Computes` says so of
operations on two operands, whatever mixture of slots and constants these are.
-/
import Mathlib
import MirBackend.Proofs.Asm.Stepping
import MirBackend.Proofs.Field

namespace MirBackend

/-- A truth value as a field element. -/
def Felt.truth (b : Bool) : Felt := .ofWord (Asm.Scope.bit b)

-- Truth values are reduced.
theorem Felt.canonical_truth (b : Bool) : (Felt.truth b).Canonical := by
  cases b <;> decide

namespace Asm

open Interp (bind_ok_iff)
open Builder (Arith arithAdd arithSub arithMul arithDiv)

-- =================================================================== stages

/-- The top of the frame as far as it has grown. -/
def Builder.top (b : Builder) : Int := (b.layout.map (·.frameSize.toInt)).getD 0

/-- Where the frame ends is a matter of the layout. -/
theorem Builder.top_eq {b b' : Builder} (h : b'.layout = b.layout) :
    b'.top = b.top := by
  rw [top, top, h]

/-- A builder on the way, whose frame has grown to `n` slots. All but `k` of the
slots that were added have been paid for with an instruction. -/
structure Stage (L : Layout) (k n : Nat) (b : Builder) : Prop where
  layout : b.layout = some { L with frameSize := Int64.ofNat n }
  fits : L.frameSize.toInt ≤ 16777216
  low : L.frameSize.toInt ≤ n
  high : (n : Int) ≤ L.frameSize.toInt + b.code.length + k
  owed : k ≤ 2

namespace Stage

variable {L : Layout} {k n : Nat} {b b' : Builder} {off : Int32}

/-- A frame as it is, whatever it grew from. -/
theorem here {l : Layout} (hl : b.layout = some l)
    (hlow : 0 ≤ l.frameSize.toInt) (hfits : l.frameSize.toInt ≤ 16777216) :
    Stage l 0 l.frameSize.toInt.toNat b := by
  have hsize : Int64.ofNat l.frameSize.toInt.toNat = l.frameSize := by
    rw [← Int64.toInt_inj, Int64.toInt_ofNat_of_lt (by omega)]
    omega
  exact ⟨by rw [hl, hsize], hfits, by omega, by push_cast; omega, Nat.zero_le 2⟩

/-- The frame has not grown past what an offset can say. -/
theorem lt {code : List Insn} {base : Nat} {t : Link.Table} (h : Stage L k n b)
    (hst : Standing code base t b) : n < 2 ^ 31 := by
  have := h.fits
  have := h.high
  have := h.owed
  have := hst.length_le
  omega

/-- The next free slot is the one counted by the stage. -/
theorem top {code : List Insn} {base : Nat} {t : Link.Table} (h : Stage L k n b)
    (hst : Standing code base t b) : b.top = n := by
  have := h.lt hst
  rw [Builder.top, h.layout]
  exact Int64.toInt_ofNat_of_lt (by omega)

/-- More can be owed than is. -/
theorem weaken (h : Stage L k n b) (hk : k ≤ 1) : Stage L (k + 1) n b :=
  ⟨h.layout, h.fits, h.low, by have := h.high; push_cast; omega, by omega⟩

/-- Code that takes no fresh slot. -/
theorem keep (h : Stage L k n b) (hlayout : b'.layout = b.layout)
    (hle : b.code.length ≤ b'.code.length) : Stage L k n b' :=
  ⟨hlayout ▸ h.layout, h.fits, h.low, by have := h.high; omega, h.owed⟩

/-- Code that takes no fresh slot pays for one. -/
theorem pay (h : Stage L (k + 1) n b) (hlayout : b'.layout = b.layout)
    (hlt : b.code.length < b'.code.length) : Stage L k n b' :=
  ⟨hlayout ▸ h.layout, h.fits,
    h.low, by have := h.high; push_cast at this; omega,
    by have := h.owed; omega⟩

/-- A temporary is the slot at the top, and the stage goes up by one. -/
theorem temp (h : Stage L k n b) (hk : k ≤ 1)
    (ht : Builder.temp b = .ok off b') :
    off = Int32.ofNat n ∧ Stage L (k + 1) (n + 1) b' ∧ b'.code = b.code
      ∧ b'.labels = b.labels := by
  obtain ⟨_, b₁, h₁, ht⟩ := bind_ok_iff.mp ht
  cases h₁
  obtain ⟨l, b₂, h₂, ht⟩ := bind_ok_iff.mp ht
  obtain ⟨hl, rfl⟩ := need_ok_iff.mp h₂
  rw [h.layout, Option.some.injEq] at hl
  subst hl
  cases ht
  refine ⟨by simp, ⟨?_, h.fits, ?_, ?_, by omega⟩, rfl, rfl⟩
  · rw [Int64.ofNat_add]
    rfl
  · have := h.low
    push_cast
    omega
  · have := h.high
    push_cast
    show (n : Int) + 1 ≤ L.frameSize.toInt + b.code.length + (k + 1)
    omega

end Stage

/-- A slot below the top of the frame is not the fresh one. -/
theorem ne_ofNat {off : Int32} {n : Nat} (hn : n < 2 ^ 31) (h : off.toInt < n) :
    off ≠ Int32.ofNat n := by
  rintro rfl
  rw [Int32.toInt_ofNat_of_lt hn] at h
  omega

/-- A slot got a value, and the others stay as they were but for those from the
`n`-th to the top. -/
structure Sets (n : Nat) (top : Int) (dst : Int32) (v : Felt)
    (σ σ' : FrameSlots) : Prop where
  here : σ' dst = some v
  other : ∀ off : Int32, off.toInt < n ∨ top ≤ off.toInt →
    off ≠ dst → σ' off = σ off

/-- Writing one slot sets it. -/
theorem Sets.update (n : Nat) (top : Int) (dst : Int32) (v : Felt)
    (σ : FrameSlots) : Sets n top dst v σ (Function.update σ dst (some v)) :=
  ⟨Function.update_self _ _ _, fun _ _ hne => Function.update_of_ne hne _ _⟩

/-- The first change may be made in any slot that is not looked at. -/
theorem Sets.after {n n' : Nat} {top top' : Int} {dst tmp : Int32} {v w : Felt}
    {σ σ' σ'' : FrameSlots} (h : Sets n' top' dst v σ' σ'')
    (h' : Sets n top tmp w σ σ') (hle : n ≤ n') (hle' : top ≤ top')
    (htmp : tmp = dst ∨ ¬ (tmp.toInt < n ∨ top' ≤ tmp.toInt)) :
    Sets n top' dst v σ σ'' := by
  refine ⟨h.here, fun off hoff hne => ?_⟩
  rw [h.other off (by omega) hne, h'.other off (by omega)]
  rintro rfl
  exact htmp.elim hne fun hnot => hnot hoff

-- ================================================================== places

/-- A slot that was copied out of the way is fresh, and one that was not is in
nobody's way. -/
theorem apart_of_aside {l r dst l' r' : Int32} {n n₁ : Nat} (hr : r.toInt < n)
    (hdst : dst.toInt < n) (hle : n ≤ n₁) (hlt : l'.toInt < n₁)
    (hfresh : l = r ∨ l = dst → ¬ l'.toInt < n)
    (hsame : ¬ (l = r ∨ l = dst) → l' = l) (hfresh' : r = dst → ¬ r'.toInt < n₁)
    (hsame' : ¬ r = dst → r' = r) : l' ≠ r' ∧ l' ≠ dst ∧ r' ≠ dst := by
  by_cases hc : l = r ∨ l = dst
  · have := hfresh hc
    by_cases hc' : r = dst
    · have := hfresh' hc'
      exact ⟨by rintro rfl; omega, by rintro rfl; omega, by rintro rfl; omega⟩
    · rw [hsame' hc']
      exact ⟨by rintro rfl; omega, by rintro rfl; omega, hc'⟩
  · rw [hsame hc] at hlt ⊢
    rw [not_or] at hc
    by_cases hc' : r = dst
    · have := hfresh' hc'
      exact ⟨by rintro rfl; omega, hc.2, by rintro rfl; omega⟩
    · rw [hsame' hc']
      exact ⟨hc.1, hc.2, hc'⟩

/-- An operand stands for a canonical element. -/
def Val.Holds (σ : FrameSlots) : Val → Felt → Prop
  | .slot off, x => σ off = some x ∧ x.Canonical
  | .const n, x => Felt.ofWord n = x ∧ x.Canonical

/-- The slot of an operand, if it is one, is below the `n`-th. -/
def Val.Below (n : Nat) : Val → Prop
  | .slot off => off.toInt < n
  | .const _ => True

/-- What an operand holds is reduced, be it a slot or a literal. -/
theorem Val.Holds.canonical {σ : FrameSlots} {v : Val} {x : Felt}
    (h : v.Holds σ x) : x.Canonical := by
  cases v with
  | slot off => exact h.2
  | const n => exact h.2

/-- Emission that ended with an instruction. -/
theorem emit_getElem? {x : Insn} {b b' : Builder} {u : Unit}
    (h : Builder.emit x b = .ok u b') :
    b'.code = b.code ++ [x] ∧ b'.code[b.code.length]? = some x
        ∧ b'.labels = b.labels
      ∧ b'.layout = b.layout := by
  cases h
  exact ⟨rfl, by simp, rfl, rfl⟩

/-- Instructions just emitted stand at the end of the code. -/
theorem getElem?_emitted {xs : List Insn} {b b' : Builder}
    (h : b'.code = b.code ++ xs) (j : Nat) :
    b'.code[b.code.length + j]? = xs[j]? := by
  rw [h, List.getElem?_append_right (by omega), Nat.add_sub_cancel_left]

section

variable {code : List Insn} {base : Nat} {t : Link.Table} {L : Layout}
  {n : Nat} {b b' : Builder} {dst : Int32} {u : Unit}

/-- Storing a number. -/
theorem storeLit_leads {m : Int32} (hst : Standing code base t b')
    (h : Builder.storeLit m dst b = .ok u b') (σ : FrameSlots) :
    Leads code base b.code.length σ b'.code.length
      (Function.update σ dst (some (Felt.ofWord m))) := by
  obtain ⟨hcode, hx, -⟩ := emit_getElem? h
  have := hst.stores hx rfl rfl (σ := σ) (v := Felt.ofWord m) fun s _ => rfl
  rwa [hcode, List.length_append]

/-- Copying a slot. -/
theorem copy_leads {src : Int32} (hst : Standing code base t b')
    (h : Builder.copy src dst b = .ok u b') {σ : FrameSlots} {v : Felt}
    (hv : σ src = some v) :
    Leads code base b.code.length σ b'.code.length
      (Function.update σ dst (some v)) := by
  rw [Builder.copy] at h
  split at h
  · rename_i heq
    cases h
    rw [← heq, ← hv, Function.update_eq_self]
    exact .refl _ _ _ _
  · rename_i hne
    obtain ⟨hcode, hx, -⟩ := emit_getElem? h
    have :=
      hst.stores hx rfl (by simp [Machine.admits, Imm.isLabel, hne]) (σ := σ)
        (v := v)
      fun s hs => by
        show s.store dst (s.slot? src) = _
        rw [hs, hv]
    rwa [hcode, List.length_append]

-- Copies leave the layout, and code only grows.
theorem copy_layout {src : Int32} (h : Builder.copy src dst b = .ok u b') :
    b'.layout = b.layout ∧ b.code.length ≤ b'.code.length := by
  rw [Builder.copy] at h
  split at h
  · cases h
    exact ⟨rfl, le_rfl⟩
  · cases h
    exact ⟨rfl, by simp⟩

theorem copyRun_layout {src : Int32} {m : Nat}
    (h : Builder.copyRun src dst m b = .ok u b') :
    b'.layout = b.layout ∧ b.code.length ≤ b'.code.length := by
  induction m generalizing src dst b with
  | zero =>
      cases h
      exact ⟨rfl, le_rfl⟩
  | succ m ih =>
      obtain ⟨_, b₁, h₁, h⟩ := bind_ok_iff.mp h
      obtain ⟨hlayout₁, hle₁⟩ := copy_layout h₁
      obtain ⟨hlayout, hle⟩ := ih h
      exact ⟨hlayout.trans hlayout₁, hle₁.trans hle⟩

/-- The slots behind the first, counted from the next offset. -/
theorem add_ofNat_succ (off : Int32) (i : Nat) :
    off + 1 + Int32.ofNat i = off + Int32.ofNat (i + 1) := by
  rw [Int32.ofNat_add]
  grind

/-- Fewer slots than there are offsets are all different. -/
theorem add_ofNat_inj {off : Int32} {i j : Nat}
    (hi : i < 2 ^ 32) (hj : j < 2 ^ 32)
    (h : off + Int32.ofNat i = off + Int32.ofNat j) : i = j := by
  rw [Int32.add_right_inj] at h
  have hmod : i % 4294967296 = j % 4294967296 := by
    simpa using congrArg (fun x : Int32 => x.toUInt32.toNat) h
  omega

/-- Copying slots that are not in each other's way. -/
theorem copyRun_leads {src : Int32} {m : Nat} (hst : Standing code base t b')
    (h : Builder.copyRun src dst m b = .ok u b') (hm : m < 2 ^ 32)
    (hapart : src = dst ∨ ∀ i < m, ∀ j < m,
      src + Int32.ofNat i ≠ dst + Int32.ofNat j)
    {σ : FrameSlots} (hsome : ∀ i < m, ∃ x, σ (src + Int32.ofNat i) = some x) :
    ∃ σ', Leads code base b.code.length σ b'.code.length σ'
      ∧ (∀ i < m, σ' (dst + Int32.ofNat i) = σ (src + Int32.ofNat i))
      ∧ ∀ off, (∀ i < m, off ≠ dst + Int32.ofNat i) → σ' off = σ off := by
  induction m generalizing src dst b σ with
  | zero =>
      cases h
      exact ⟨σ, .refl _ _ _ _, by simp, fun _ _ => rfl⟩
  | succ m ih =>
      obtain ⟨_, b₁, h₁, h⟩ := bind_ok_iff.mp h
      have hst₁ : Standing code base t b₁ :=
        hst.of_extends ((Extends.roomy fun _ => True).copyRun _ _ _ _ _ _ h)
      obtain ⟨x, hx⟩ := hsome 0 (by omega)
      have hzero (off : Int32) : off + Int32.ofNat 0 = off := Int32.add_zero off
      rw [hzero] at hx
      have hfirst := copy_leads hst₁ h₁ hx
      -- the slots still to be copied are as they were
      have hkept (i : Nat) (hi : i < m) :
          Function.update σ dst (some x) (src + 1 + Int32.ofNat i)
          = σ (src + 1 + Int32.ofNat i) := by
        rw [add_ofNat_succ]
        refine Function.update_of_ne ?_ _ _
        rcases hapart with rfl | hapart
        · intro heq
          have := add_ofNat_inj (i := i + 1) (j := 0) (by omega) (by omega)
            (heq.trans (hzero src).symm)
          omega
        · have := hapart (i + 1) (by omega) 0 (by omega)
          rwa [hzero] at this
      obtain ⟨σ', hleads, hcopied, hother⟩ := ih
        (σ := Function.update σ dst (some x)) h (by omega)
        (by
          rcases hapart with rfl | hapart
          · exact Or.inl rfl
          · refine Or.inr fun i hi j hj => ?_
            rw [add_ofNat_succ, add_ofNat_succ]
            exact hapart (i + 1) (by omega) (j + 1) (by omega))
        (fun i hi => by
          rw [hkept i hi, add_ofNat_succ]
          exact hsome (i + 1) (by omega))
      refine ⟨σ', hfirst.trans hleads, fun i hi => ?_, fun off hoff => ?_⟩
      · cases i with
        | zero =>
            rw [hzero, hzero, hother dst, Function.update_self, hx]
            intro i hi heq
            rw [add_ofNat_succ] at heq
            have := add_ofNat_inj (i := 0) (j := i + 1) (by omega) (by omega)
              ((hzero dst).trans heq)
            omega
        | succ i =>
            have := hcopied i (by omega)
            rwa [hkept i (by omega), add_ofNat_succ, add_ofNat_succ] at this
      · rw [hother off fun i hi => by
          rw [add_ofNat_succ]
          exact hoff (i + 1) (by omega)]
        have := hoff 0 (by omega)
        rw [hzero] at this
        exact Function.update_of_ne this _ _

/-- Copying a slot to a fresh one. -/
theorem toTemp_spec {off o : Int32} (hS : Stage L 1 n b)
    (hst : Standing code base t b') (hoff : off.toInt < n)
    (h : Builder.toTemp off b = .ok o b') :
    o = Int32.ofNat n ∧ Stage L 1 (n + 1) b'
      ∧ ∀ σ x, σ off = some x →
        Leads code base b.code.length σ b'.code.length
          (Function.update σ o (some x)) := by
  obtain ⟨o₁, b₁, h₁, h⟩ := bind_ok_iff.mp h
  obtain ⟨_, b₂, h₂, h⟩ := bind_ok_iff.mp h
  cases h
  obtain ⟨rfl, hS₁, hcode₁, -⟩ := hS.temp le_rfl h₁
  have hn := (hS.weaken le_rfl).lt (hst.of_extends
    ((Extends.roomy fun _ => True).toTemp off b (Int32.ofNat n) b'
      (by rw [Builder.toTemp, bind_of_ok h₁, bind_of_ok h₂]; rfl)))
  -- the slot is an old one, so the copy is not left out as a copy to itself
  have hne : off ≠ Int32.ofNat n := ne_ofNat hn hoff
  refine ⟨rfl, ?_, fun σ x hx => ?_⟩
  · rw [Builder.copy, if_neg hne] at h₂
    obtain ⟨hcode₂, -, -, hlayout₂⟩ := emit_getElem? h₂
    exact hS₁.pay hlayout₂ (by rw [hcode₂]; simp)
  · rw [← hcode₁]
    exact copy_leads hst h₂ hx

/-- A slot is copied to a fresh one if it is in the way, and what follows finds
it there. -/
theorem aside_spec {α : Type} {c : Prop} [Decidable c] {off : Int32}
    {next : Int32 → Emit α} {a : α} (hS : Stage L 1 n b) (hoff : off.toInt < n)
    (h : (if c then Builder.toTemp off >>= next else pure off >>= next) b
      = .ok a b') :
    ∃ o b₁, next o b₁ = .ok a b'
        ∧ (Standing code base t b₁ → ∃ n₁, n ≤ n₁ ∧ Stage L 1 n₁ b₁
      ∧ o.toInt < n₁ ∧ (c → ¬ o.toInt < n) ∧ (¬ c → o = off)
      ∧ ∀ σ x, σ off = some x →
        ∃ σ₁, Leads code base b.code.length σ b₁.code.length σ₁
        ∧ σ₁ o = some x ∧ ∀ k : Int32, k.toInt < n
        ∨ (n₁ : Int) ≤ k.toInt → σ₁ k = σ k) := by
  split at h
  -- the value is copied to the slot that comes next
  · rename_i hc
    obtain ⟨o, b₁, h₁, h⟩ := bind_ok_iff.mp h
    refine ⟨o, b₁, h, fun hst => ?_⟩
    obtain ⟨rfl, hS₁, hrun⟩ := toTemp_spec hS hst hoff h₁
    have hn := hS₁.lt hst
    have htop : (Int32.ofNat n).toInt = n := Int32.toInt_ofNat_of_lt (by omega)
    refine ⟨n + 1, by omega, hS₁, by rw [htop]; omega,
      fun _ => by rw [htop]; omega,
      fun hnot => absurd hc hnot, fun σ x hx =>
      ⟨_, hrun σ x hx, Function.update_self _ _ _, ?_⟩⟩
    intro k hk
    refine Function.update_of_ne ?_ _ _
    rintro rfl
    omega
  -- the value stays where it is, and no instruction is emitted
  · rename_i hc
    obtain ⟨o, b₁, h₁, h⟩ := bind_ok_iff.mp h
    cases h₁
    exact ⟨off, b, h, fun _ => ⟨n, le_rfl, hS, hoff,
      fun hyes => absurd hyes hc, fun _ => rfl,
      fun σ x hx => ⟨σ, .refl _ _ _ _, hx, fun _ _ => rfl⟩⟩⟩

-- ============================================================== arithmetic

/-- The instructions of an operation do what it says. -/
structure Builder.Arith.Works (op : Arith) : Prop where
  onSlots : ∀ (l r dst : Int32) (s : Machine),
    Machine.execute { opcode := op.fpFp, off0 := l, off1 := r, off2 := dst } s
      = s.store dst (s.onSlots op.fold l r)
  onImm : ∀ (l m dst : Int32) (s : Machine),
    Machine.execute
      { opcode := op.fpImm, off0 := l, imm := .literal m, off2 := dst } s
      = s.store dst (s.onImm op.fold l (.ofWord m))
  admitsSlots : ∀ l r dst : Int32, l ≠ r → l ≠ dst → r ≠ dst →
    Machine.admits { opcode := op.fpFp, off0 := l, off1 := r, off2 := dst }
      = true
  admitsImm : ∀ l m dst : Int32, l ≠ dst →
    Machine.admits
      { opcode := op.fpImm, off0 := l, imm := .literal m, off2 := dst } = true
  comm : op.commutes = true → ∀ x y : Felt, x.Canonical → y.Canonical →
    op.fold x y = op.fold y x
  canonical : ∀ x y, (op.fold x y).Canonical

-- The four operations of arithmetic: each computes what its twin on words
-- computes.
theorem arithAdd_works : arithAdd.Works where
  onSlots _ _ _ _ := rfl
  onImm _ _ _ _ := rfl
  admitsSlots l r dst h₁ h₂ h₃ := by
    simp [Machine.admits, arithAdd, Imm.isLabel, h₁, h₂, h₃]
  admitsImm l m dst h := by simp [Machine.admits, arithAdd, Imm.isLabel, h]
  comm _ _ _ := Felt.add_comm
  canonical _ _ := Felt.canonical_add

theorem arithSub_works : arithSub.Works where
  onSlots _ _ _ _ := rfl
  onImm _ _ _ _ := rfl
  admitsSlots l r dst h₁ h₂ h₃ := by
    simp [Machine.admits, arithSub, Imm.isLabel, h₁, h₂, h₃]
  admitsImm l m dst h := by simp [Machine.admits, arithSub, Imm.isLabel, h]
  comm h := by cases h
  canonical _ _ := Felt.canonical_sub

theorem arithMul_works : arithMul.Works where
  onSlots _ _ _ _ := rfl
  onImm _ _ _ _ := rfl
  admitsSlots l r dst h₁ h₂ h₃ := by
    simp [Machine.admits, arithMul, Imm.isLabel, h₁, h₂, h₃]
  admitsImm l m dst h := by simp [Machine.admits, arithMul, Imm.isLabel, h]
  comm _ _ _ := Felt.mul_comm
  canonical _ _ := Felt.canonical_mul

theorem arithDiv_works : arithDiv.Works where
  onSlots _ _ _ _ := rfl
  onImm _ _ _ _ := rfl
  admitsSlots l r dst h₁ h₂ h₃ := by
    simp [Machine.admits, arithDiv, Imm.isLabel, h₁, h₂, h₃]
  admitsImm l m dst h := by simp [Machine.admits, arithDiv, Imm.isLabel, h]
  comm h := by cases h
  canonical _ _ := Felt.canonical_div

/-- Code that stores in `dst`, from two operands, what `f` says, and takes the
slots from the `n`-th to the top of the frame for itself. -/
structure Computes (code : List Insn) (base : Nat) (L : Layout)
    (n : Nat) (b b' : Builder) (l r : Val) (dst : Int32)
    (f : Felt → Felt → Felt) : Prop where
  stage : ∃ n', n ≤ n' ∧ Stage L 0 n' b'
  run : ∀ ⦃σ x y⦄, l.Holds σ x → r.Holds σ y → ∃ σ',
    Leads code base b.code.length σ b'.code.length σ'
      ∧ Sets n b'.top dst (f x y) σ σ'

/-- What a code computes may be said otherwise. -/
theorem Computes.congr {l r : Val} {f g : Felt → Felt → Felt}
    (h : Computes code base L n b b' l r dst f)
    (hfg : ∀ x y : Felt, x.Canonical → y.Canonical → f x y = g x y) :
    Computes code base L n b b' l r dst g := by
  refine ⟨h.stage, fun σ x y hx hy => ?_⟩
  rw [← hfg x y hx.canonical hy.canonical]
  exact h.run hx hy

/-- The operands may be given in the other order. -/
theorem Computes.swap {l r : Val} {f : Felt → Felt → Felt}
    (h : Computes code base L n b b' r l dst f) :
    Computes code base L n b b' l r dst fun x y => f y x :=
  ⟨h.stage, fun _ _ _ hx hy => h.run hy hx⟩

/-- A number that is known beforehand. -/
theorem storeLit_computes {l r : Val} {m : Int32} {f : Felt → Felt → Felt}
    (hS : Stage L 1 n b) (hst : Standing code base t b')
    (h : Builder.storeLit m dst b = .ok u b')
    (hf : ∀ σ x y, l.Holds σ x → r.Holds σ y → Felt.ofWord m = f x y) :
    Computes code base L n b b' l r dst f := by
  obtain ⟨hcode, -, -, hlayout⟩ := emit_getElem? h
  refine ⟨⟨n, le_rfl, hS.pay hlayout (by rw [hcode]; simp)⟩,
    fun σ x y hx hy => ?_⟩
  rw [← hf σ x y hx hy]
  exact ⟨_, storeLit_leads hst h σ, Sets.update _ _ _ _ _⟩

variable {op : Arith}

/-- Arithmetic on two slots computes the operation, also where the destination
is one of the operands: then the right one is copied to a temporary first. -/
theorem arithSlots_computes (hop : op.Works) {l r : Int32} (hS : Stage L 1 n b)
    (hst : Standing code base t b') (hl : l.toInt < n) (hr : r.toInt < n)
    (hdst : dst.toInt < n) (h : Builder.arithSlots op l r dst b = .ok u b') :
    Computes code base L n b b' (.slot l) (.slot r) dst op.fold := by
  have hP := Extends.roomy fun _ => True
  -- each operand that lies in the result's slot, and the left one if both are
  -- one slot, is put aside
  obtain ⟨l', b₁, h₁, hl'⟩ := aside_spec (t := t) hS hl h
  have hst₁ : Standing code base t b₁ := hst.of_extends
    (hP.outOfTheWay (fun _ => hP.literal _ _ _ _ _) _ _ _ h₁)
  obtain ⟨n₁, hn₁, hS₁, hlt₁, hfresh₁, hsame₁, hrun₁⟩ := hl' hst₁
  obtain ⟨r', b₂, h₂, hr'⟩ := aside_spec (t := t) hS₁ (by omega) h₁
  have hst₂ : Standing code base t b₂ :=
    hst.of_extends (hP.literal _ _ _ _ _ _ _ _ h₂)
  obtain ⟨n₂, hn₂, hS₂, hlt₂, hfresh₂, hsame₂, hrun₂⟩ := hr' hst₂
  obtain ⟨hcode, hx, -, hlayout⟩ := emit_getElem? h₂
  have htop : b'.top = n₂ := (Builder.top_eq hlayout).trans (hS₂.top hst₂)
  refine ⟨⟨n₂, by omega, hS₂.pay hlayout (by rw [hcode]; simp)⟩, ?_⟩
  rintro σ x y ⟨hx₀, -⟩ ⟨hy₀, -⟩
  obtain ⟨σ₁, hleads₁, hx₁, hkept₁⟩ := hrun₁ σ x hx₀
  obtain ⟨σ₂, hleads₂, hy₂, hkept₂⟩ :=
    hrun₂ σ₁ y (by rw [hkept₁ r (.inl hr), hy₀])
  have hx₂ : σ₂ l' = some x := by rw [hkept₂ l' (.inl hlt₁), hx₁]
  -- which is what the machine asks of an instruction on slots
  have hapart :=
    apart_of_aside (l := l) hr hdst hn₁ hlt₁ (by simpa using hfresh₁)
    (by simpa using hsame₁) hfresh₂ hsame₂
  have hlast :=
    hst.stores hx rfl (hop.admitsSlots _ _ _ hapart.1 hapart.2.1 hapart.2.2)
      (σ := σ₂)
    (v := op.fold x y) fun s hs => by
      rw [hop.onSlots, Machine.onSlots, hs, hx₂, hy₂]
      rfl
  refine ⟨Function.update σ₂ dst (some (op.fold x y)),
    (hleads₁.trans hleads₂).trans ?_,
    Function.update_self _ _ _, fun off hoff hne => ?_⟩
  · rwa [hcode, List.length_append]
  · rw [Function.update_of_ne hne, hkept₂ off (by omega), hkept₁ off (by omega)]

/-- An operation on a slot and a number. -/
theorem arithSlotConst_computes (hop : op.Works) {l m : Int32}
    (hS : Stage L 1 n b) (hst : Standing code base t b') (hl : l.toInt < n)
    (hdst : dst.toInt < n)
    (h : Builder.arithSlotConst op l m dst b = .ok u b') :
    Computes code base L n b b' (.slot l) (.const m) dst op.fold := by
  rw [Builder.arithSlotConst] at h
  split at h
  -- division by the literal zero is refused
  · obtain ⟨_, _, hfail, -⟩ := bind_ok_iff.mp h
    exact absurd hfail failWith_ne_ok
  obtain ⟨l', b₁, h₁, hl'⟩ := aside_spec (t := t) hS hl h
  have hst₁ : Standing code base t b₁ := hst.of_extends
    ((Extends.roomy fun _ => True).literal _ _ _ _ _ _ _ _ h₁)
  obtain ⟨n₁, hn₁, hS₁, hlt₁, hfresh₁, hsame₁, hrun₁⟩ := hl' hst₁
  obtain ⟨hcode, hx, -, hlayout⟩ := emit_getElem? h₁
  have htop : b'.top = n₁ := (Builder.top_eq hlayout).trans (hS₁.top hst₁)
  refine ⟨⟨n₁, by omega, hS₁.pay hlayout (by rw [hcode]; simp)⟩, ?_⟩
  rintro σ x y ⟨hx₀, -⟩ ⟨rfl, -⟩
  obtain ⟨σ₁, hleads₁, hx₁, hkept₁⟩ := hrun₁ σ x hx₀
  -- put aside where the operand and the result are one slot
  have hapart : l' ≠ dst := by
    by_cases hc : l = dst
    · have := hfresh₁ hc
      rintro rfl
      omega
    · rwa [hsame₁ hc]
  have hlast := hst.stores hx rfl (hop.admitsImm _ _ _ hapart) (σ := σ₁)
    (v := op.fold x (.ofWord m)) fun s hs => by
      rw [hop.onImm, Machine.onImm, hs, hx₁]
      rfl
  refine ⟨Function.update σ₁ dst (some (op.fold x (.ofWord m))),
    hleads₁.trans ?_, Function.update_self _ _ _, fun off hoff hne => ?_⟩
  · rwa [hcode, List.length_append]
  · rw [Function.update_of_ne hne, hkept₁ off (by omega)]

/-- An operation on two operands. -/
theorem arith_computes (hop : op.Works) {l r : Val} (hS : Stage L 1 n b)
    (hst : Standing code base t b') (hl : l.Below n) (hr : r.Below n)
    (hdst : dst.toInt < n) (h : Builder.arith op l r dst b = .ok u b') :
    Computes code base L n b b' l r dst op.fold := by
  cases l with
  | const x =>
      cases r with
      | const y =>
          -- two literals are computed while the code is selected
          rw [Builder.arith] at h
          split at h
          · exact absurd h failWith_ne_ok
          refine storeLit_computes hS hst h ?_
          rintro σ _ _ ⟨rfl, -⟩ ⟨rfl, -⟩
          exact Felt.ofWord_toInt32 _
      | slot r =>
          rw [Builder.arith] at h
          split at h
          -- a commutative operation is turned
          · rename_i hcomm
            have hturned := arithSlotConst_computes hop hS hst hr hdst h
            refine ⟨hturned.stage, fun σ x y hx hy => ?_⟩
            rw [hop.comm hcomm x y hx.canonical hy.canonical]
            exact hturned.run hy hx
          -- otherwise the literal is stored in a temporary first
          · obtain ⟨tmp, b₁, h₁, h⟩ := bind_ok_iff.mp h
            obtain ⟨_, b₂, h₂, h⟩ := bind_ok_iff.mp h
            obtain ⟨rfl, hS₁, hcode₁, -⟩ := hS.temp le_rfl h₁
            obtain ⟨hcode₂, -, -, hlayout₂⟩ := emit_getElem? h₂
            have hS₂ : Stage L 1 (n + 1) b₂ :=
              hS₁.pay hlayout₂ (by rw [hcode₂]; simp)
            have hst₂ : Standing code base t b₂ := hst.of_extends
              ((Extends.roomy fun _ => True).arithSlots _ _ _ _ _ _ _ h)
            have hn := hS₂.lt hst₂
            have htop : (Int32.ofNat n).toInt = n :=
              Int32.toInt_ofNat_of_lt (by omega)
            have hr : r.toInt < n := hr
            have hslots :=
              arithSlots_computes hop (l := Int32.ofNat n) (r := r) hS₂ hst
              (by rw [htop]; omega) (by omega) (by omega) h
            obtain ⟨n', hn', hS'⟩ := hslots.stage
            have htop' : b'.top = n' := hS'.top hst
            refine ⟨⟨n', by omega, hS'⟩, ?_⟩
            rintro σ _ y ⟨rfl, hx⟩ ⟨hy, hyc⟩
            obtain ⟨σ', hleads, hsets⟩ :=
              hslots.run (σ := Function.update σ (Int32.ofNat n)
              (some (Felt.ofWord x))) ⟨Function.update_self _ _ _, hx⟩
              ⟨by rw [Function.update_of_ne (ne_ofNat (by omega) hr), hy], hyc⟩
            refine ⟨σ', ?_,
              hsets.after (Sets.update n _ _ _ σ) (by omega) le_rfl
              (Or.inr (by omega))⟩
            rw [← hcode₁]
            exact (storeLit_leads hst₂ h₂ σ).trans hleads
  | slot l =>
      cases r with
      -- the right operand may be an immediate
      | const y => exact arithSlotConst_computes hop hS hst hl hdst h
      | slot r => exact arithSlots_computes hop hS hst hl hr hdst h

-- ============================================================ truth values

/-- Storing whether a slot is zero, or whether it is not. -/
theorem normalize_spec {x : Int32} {invert : Bool}
    (hst : Standing code base t b')
    (h : Builder.normalize x dst invert b = .ok u b') :
    b'.layout = b.layout ∧ b.code.length < b'.code.length
      ∧ ∀ σ v, σ x = some v → Leads code base b.code.length σ b'.code.length
        (Function.update σ dst (some (Felt.truth (v.isZero == invert)))) := by
  obtain ⟨nz, b₁, h₁, h⟩ := bind_ok_iff.mp h
  obtain ⟨done, b₂, h₂, h⟩ := bind_ok_iff.mp h
  obtain ⟨hcode₁, hlabels₁, hlayout₁⟩ := Extends.newLabel h₁
  obtain ⟨hcode₂, hlabels₂, hlayout₂⟩ := Extends.newLabel h₂
  rw [hcode₁] at hcode₂
  -- a branch on the value, the answer for zero with a jump over what follows,
  -- and the answer for the others
  have hcode : b'.code = b.code
      ++ [{ opcode := .jnzFpImm, off0 := x, imm := .label nz },
          { opcode := .storeImm, imm := .literal (if invert then 1 else 0),
            off2 := dst },
          { opcode := .jmpAbsImm, imm := .label done },
          { opcode := .storeImm, imm := .literal (if invert then 0 else 1),
            off2 := dst }] := by
    cases h
    simp [hcode₂]
  have hnz : ⟨nz, false, b.code.length + 3⟩ ∈ b'.labels := by
    cases h
    simp [hcode₂]
  have hdone : ⟨done, false, b.code.length + 4⟩ ∈ b'.labels := by
    cases h
    simp [hcode₂]
  have hlayout : b'.layout = b₂.layout := by
    cases h
    rfl
  have hend : b'.code.length = b.code.length + 4 := by
    rw [hcode, List.length_append]; rfl
  refine ⟨hlayout.trans (hlayout₂.trans hlayout₁), by omega, fun σ v hv => ?_⟩
  have hat := getElem?_emitted hcode
  have hbranch := hst.branches (hat 0) hnz hv
  rw [hend]
  -- the two ways through the four instructions
  cases hzero : v.isZero with
  | true =>
      rw [hzero, if_pos rfl] at hbranch
      have hstore :=
        hst.stores (hat 1) rfl rfl (σ := σ) (v := Felt.truth (true == invert))
        fun s _ => by cases invert <;> rfl
      exact (hbranch.trans hstore).trans (hst.jumps (hat 2) hdone)
  | false =>
      rw [hzero, if_neg (by decide)] at hbranch
      exact hbranch.trans (hst.stores (hat 3) rfl rfl
        fun s _ => by cases invert <;> rfl)

/-- The slots of operands that are in the way of `dst` are copied to fresh
ones. -/
theorem mapM_aside_spec {xs ys : List Int32} (hS : Stage L 1 n b)
    (hst : Standing code base t b') (hxs : ∀ x ∈ xs, x.toInt < n)
    (hdst : dst.toInt < n)
    (h : xs.mapM (fun x => if x = dst then Builder.toTemp x else pure x) b
      = .ok ys b') :
    ∃ n', n ≤ n' ∧ Stage L 1 n' b' ∧ dst ∉ ys
      ∧ ∀ (σ : FrameSlots) (vs : List Felt), xs.map σ = vs.map some → ∃ σ',
        Leads code base b.code.length σ b'.code.length σ'
            ∧ ys.map σ' = vs.map some
        ∧ ∀ k : Int32, k.toInt < n ∨ (n' : Int) ≤ k.toInt → σ' k = σ k := by
  induction xs generalizing b n ys with
  | nil =>
      cases h
      exact ⟨n, le_rfl, hS, List.not_mem_nil, fun σ vs hvs =>
        ⟨σ, .refl _ _ _ _, hvs, fun _ _ => rfl⟩⟩
  | cons x xs ih =>
      rw [List.mapM_cons] at h
      have hP := Extends.roomy fun _ => True
      have hrest : Emitting Extends (xs.mapM fun x => if x = dst
          then Builder.toTemp x else pure x) :=
        hP.mapM xs fun x => by
          split
          · exact hP.toTemp x
          · exact hP.pure x
      -- the form that `aside_spec` takes apart
      have hsplit (next : Int32 → Emit (List Int32)) :
          ((if x = dst then Builder.toTemp x else pure x) >>= next)
            = if x = dst then Builder.toTemp x
            >>= next else pure x >>= next := by
        split <;> rfl
      rw [hsplit] at h
      obtain ⟨y, b₁, h, hy⟩ :=
        aside_spec (t := t) hS (hxs x List.mem_cons_self) h
      obtain ⟨ys', b₂, h₂, h⟩ := bind_ok_iff.mp h
      cases h
      obtain ⟨n₁, hn₁, hS₁, hlt₁, hfresh₁, hsame₁, hrun₁⟩ :=
        hy (hst.of_extends (hrest _ _ _ h₂))
      obtain ⟨n₂, hn₂, hS₂, hnot₂, hrun₂⟩ := ih hS₁
        (fun z hz => by have := hxs z (List.mem_cons_of_mem _ hz); omega)
        (by omega) h₂
      refine ⟨n₂, by omega, hS₂, ?_, fun σ vs hvs => ?_⟩
      -- a slot put aside is new, and one left alone is not the result's
      · rw [List.mem_cons, not_or]
        refine ⟨?_, hnot₂⟩
        rintro rfl
        by_cases hc : x = dst
        · exact hfresh₁ hc hdst
        · exact hc (hsame₁ hc).symm
      · obtain ⟨v, vs, rfl⟩ : ∃ v vs', vs = v :: vs' :=
          List.exists_cons_of_ne_nil fun hnil => by simp [hnil] at hvs
        rw [List.map_cons, List.map_cons, List.cons.injEq] at hvs
        obtain ⟨σ₁, hleads₁, hy₁, hkept₁⟩ := hrun₁ σ v hvs.1
        obtain ⟨σ₂, hleads₂, hys₂, hkept₂⟩ := hrun₂ σ₁ vs (by
          rw [← hvs.2]
          exact List.map_congr_left fun z hz =>
            hkept₁ z (.inl (hxs z (List.mem_cons_of_mem _ hz))))
        refine ⟨σ₂, hleads₁.trans hleads₂, ?_, fun k hk => ?_⟩
        · rw [List.map_cons, List.map_cons, hys₂, hkept₂ y (.inl hlt₁), hy₁]
        · rw [hkept₂ k (by omega), hkept₁ k (by omega)]

/-- A row of conditional jumps to one label. -/
theorem jumpIfs_emitted {ys : List Int32} {name : String}
    (h : ys.forM (Builder.jumpIf · name) b = .ok u b') :
    b' = { b with code := b.code ++ ys.map fun y =>
      { opcode := .jnzFpImm, off0 := y, imm := .label name } } := by
  induction ys generalizing b with
  | nil =>
      cases h
      simp
  | cons y ys ih =>
      obtain ⟨_, b₁, h₁, h⟩ := bind_ok_iff.mp h
      cases h₁
      rw [ih h]
      simp

/-- A row of conditional jumps to one label is left for it if a slot is not
zero. -/
theorem jumpIfs_leads {ys : List Int32} {name : String}
    {j k : Nat} {vs : List Felt} {σ : FrameSlots} (hst : Standing code base t b)
    (hcode : ∀ i y, ys[i]? = some y →
      b.code[j + i]?
          = some { opcode := .jnzFpImm, off0 := y, imm := .label name })
    (hl : ⟨name, false, k⟩ ∈ b.labels) (hvs : ys.map σ = vs.map some) :
    Leads code base j σ
      (if vs.any (!·.isZero) then k else j + ys.length) σ := by
  induction ys generalizing j vs with
  | nil =>
      obtain rfl : vs = [] := by simpa using hvs.symm
      exact .refl _ _ _ _
  | cons y ys ih =>
      obtain ⟨v, vs, rfl⟩ : ∃ v vs', vs = v :: vs' :=
        List.exists_cons_of_ne_nil fun hnil => by simp [hnil] at hvs
      rw [List.map_cons, List.map_cons, List.cons.injEq] at hvs
      have hfirst := hst.branches (hcode 0 y rfl) hl hvs.1
      rw [List.any_cons]
      -- a zero falls through to the next test
      cases hzero : v.isZero with
      | true =>
          rw [hzero, if_pos rfl] at hfirst
          have hrest := ih (j := j + 1) (fun i y hi => by
            rw [show j + 1 + i = j + (i + 1) by omega]
            exact hcode (i + 1) y hi) hvs.2
          rw [List.length_cons,
            show j + (ys.length + 1) = j + 1 + ys.length by omega]
          exact hfirst.trans hrest
      | false =>
          rw [hzero, if_neg (by decide)] at hfirst
          exact hfirst

/-- The code for a row of slots of which one may not be zero: each jumps to
where one is stored instead of zero. -/
theorem anyNonzero_emitted {xs : List Int32}
    (h : Builder.anyNonzero xs dst b = .ok u b') :
    ∃ ys b₁ yes done, xs.mapM
      (fun x => if x = dst then Builder.toTemp x else pure x) b = .ok ys b₁
      ∧ Extends b₁ b' ∧ b'.layout = b₁.layout
      ∧ b'.code
        = b₁.code ++ ({ opcode := .storeImm, imm := .literal 0, off2 := dst }
        :: (ys.map
            (fun y => { opcode := .jnzFpImm, off0 := y, imm := .label yes })
          ++ [{ opcode := .jmpAbsImm, imm := .label done },
            { opcode := .storeImm, imm := .literal 1, off2 := dst }]))
      ∧ b'.labels = b₁.labels
        ++ [⟨yes, false, b₁.code.length + (ys.length + 2)⟩,
        ⟨done, false, b₁.code.length + (ys.length + 3)⟩] := by
  -- the slots aside and two labels, then nothing but code
  obtain ⟨ys, b₁, h₁, h⟩ := bind_ok_iff.mp h
  obtain ⟨yes, b₂, h₂, h⟩ := bind_ok_iff.mp h
  obtain ⟨done, b₃, h₃, h⟩ := bind_ok_iff.mp h
  obtain ⟨hcode₂, hlabels₂, hlayout₂⟩ := Extends.newLabel h₂
  obtain ⟨hcode₃, hlabels₃, hlayout₃⟩ := Extends.newLabel h₃
  rw [hcode₂] at hcode₃
  obtain ⟨_, b₄, h₄, h⟩ := bind_ok_iff.mp h
  obtain ⟨_, b₅, h₅, h⟩ := bind_ok_iff.mp h
  cases h₄
  obtain rfl := jumpIfs_emitted h₅
  have hcode : b'.code = b₁.code
      ++ ({ opcode := .storeImm, imm := .literal 0, off2 := dst }
      :: (ys.map
        (fun y => { opcode := .jnzFpImm, off0 := y, imm := .label yes })
        ++ [{ opcode := .jmpAbsImm, imm := .label done },
          { opcode := .storeImm, imm := .literal 1, off2 := dst }])) := by
    cases h
    simp [hcode₃]
  have hlabels : b'.labels
      = b₁.labels ++ [⟨yes, false, b₁.code.length + (ys.length + 2)⟩,
      ⟨done, false, b₁.code.length + (ys.length + 3)⟩] := by
    cases h
    simp [hlabels₃, hlabels₂, hcode₃]
  have hlayout : b'.layout = b₃.layout := by
    cases h
    rfl
  have hfunc : b'.func = b₁.func ∧ b'.args = b₁.args
      ∧ b'.returns = b₁.returns := by
    obtain ⟨taken₂, counter₂, rfl⟩ := Extends.newLabel_ok h₂
    obtain ⟨taken₃, counter₃, rfl⟩ := Extends.newLabel_ok h₃
    cases h
    exact ⟨rfl, rfl, rfl⟩
  exact ⟨ys, b₁, yes, done, h₁, ⟨⟨_, hcode.symm⟩, ⟨_, hlabels.symm⟩, hfunc⟩,
    hlayout.trans (hlayout₃.trans hlayout₂), hcode, hlabels⟩

/-- Storing whether one of some slots is not zero. -/
theorem anyNonzero_spec {xs : List Int32} (hS : Stage L 1 n b)
    (hst : Standing code base t b') (hxs : ∀ x ∈ xs, x.toInt < n)
    (hdst : dst.toInt < n) (h : Builder.anyNonzero xs dst b = .ok u b') :
    (∃ n', n ≤ n' ∧ Stage L 0 n' b') ∧ ∀ (σ : FrameSlots) (vs : List Felt),
      xs.map σ = vs.map some →
        ∃ σ', Leads code base b.code.length σ b'.code.length σ'
        ∧ Sets n b'.top dst (Felt.truth (vs.any (!·.isZero))) σ σ' := by
  obtain ⟨ys, b₁, yes, done, h₁, hext, hlayout, hcode, hlabels⟩ :=
    anyNonzero_emitted h
  have hlen : b'.code.length = b₁.code.length + (ys.length + 3) := by
    rw [hcode]
    simp
  obtain ⟨n₁, hn₁, hS₁, hnot, hrun₁⟩ :=
    mapM_aside_spec hS (hst.of_extends hext) hxs hdst h₁
  have htop : b'.top = n₁ :=
    (Builder.top_eq hlayout).trans (hS₁.top (hst.of_extends hext))
  refine ⟨⟨n₁, hn₁, hS₁.pay hlayout (by omega)⟩, fun σ vs hvs => ?_⟩
  obtain ⟨σ₁, hleads₁, hys, hkept₁⟩ := hrun₁ σ vs hvs
  have hat := getElem?_emitted hcode
  have hjump (i : Nat) (y : Int32) (hi : ys[i]? = some y) :
      b'.code[b₁.code.length + 1 + i]?
      = some { opcode := .jnzFpImm, off0 := y, imm := .label yes } := by
    have hlt : i < ys.length := (List.getElem?_eq_some_iff.mp hi).1
    rw [Nat.add_assoc, hat, Nat.add_comm 1, List.getElem?_cons_succ,
      List.getElem?_append_left (by rwa [List.length_map]),
        List.getElem?_map, hi]
    rfl
  have hbehind (i : Nat) : b'.code[b₁.code.length + (ys.length + 1 + i)]?
      = [{ opcode := .jmpAbsImm, imm := .label done },
        { opcode := .storeImm, imm := .literal 1, off2 := dst }][i]? := by
    rw [hat, show ys.length + 1 + i = ys.length + i + 1 by omega,
      List.getElem?_cons_succ,
      List.getElem?_append_right (by rw [List.length_map]; omega),
        List.length_map,
      Nat.add_sub_cancel_left]
  have hyes : ⟨yes, false, b₁.code.length + (ys.length + 2)⟩ ∈ b'.labels := by
    simp [hlabels]
  have hdone : ⟨done, false, b₁.code.length + (ys.length + 3)⟩ ∈ b'.labels := by
    simp [hlabels]
  -- the zero that is stored first is in none of the slots that are looked at
  have hzero :=
    hst.stores (hat 0) rfl rfl (σ := σ₁) (v := Felt.truth false) fun s _ => rfl
  have hscan :=
    jumpIfs_leads (σ := Function.update σ₁ dst (some (Felt.truth false))) hst
    hjump hyes (by
      rw [← hys]
      refine List.map_congr_left fun y hy => Function.update_of_ne ?_ _ _
      rintro rfl
      exact hnot hy)
  have hstart := hleads₁.trans (hzero.trans hscan)
  have hother (v : Felt) (off : Int32) (hoff : off.toInt < n
      ∨ b'.top ≤ off.toInt)
      (hne : off ≠ dst) : Function.update σ₁ dst (some v) off = σ off := by
    rw [Function.update_of_ne hne, hkept₁ off (by omega)]
  rw [hlen]
  cases hany : vs.any (!·.isZero) with
  | true =>
      rw [hany, if_pos rfl] at hstart
      have hone := hst.stores (hbehind 1) rfl rfl
        (σ := Function.update σ₁ dst (some (Felt.truth false)))
        (v := Felt.truth true) fun s _ => rfl
      rw [Function.update_idem] at hone
      exact ⟨_, hstart.trans hone, Function.update_self _ _ _, hother _⟩
  | false =>
      rw [hany, if_neg (by decide), Nat.add_assoc, Nat.add_comm 1] at hstart
      exact ⟨_, hstart.trans (hst.jumps (hbehind 0) hdone),
        Function.update_self _ _ _, hother _⟩

-- =============================================================== operators

/-- Whether a result is zero, or is not. -/
theorem Computes.normalize {l r : Val} {f : Felt → Felt → Felt}
    {invert : Bool} {b₁ : Builder} (h : Computes code base L n b b₁ l r dst f)
    (hst : Standing code base t b')
    (h' : Builder.normalize dst dst invert b₁ = .ok u b') :
    Computes code base L n b b' l r dst fun x y => Felt.truth
      ((f x y).isZero == invert) := by
  obtain ⟨hlayout, hlt, hrun⟩ := normalize_spec hst h'
  obtain ⟨n₁, hn₁, hS₁⟩ := h.stage
  refine ⟨⟨n₁, hn₁, hS₁.keep hlayout hlt.le⟩, fun σ x y hx hy => ?_⟩
  obtain ⟨σ₁, hleads₁, hsets₁⟩ := h.run hx hy
  exact ⟨_, hleads₁.trans (hrun σ₁ _ hsets₁.here),
    (Sets.update n _ _ _ σ₁).after hsets₁ le_rfl
    (Builder.top_eq hlayout).ge (Or.inl rfl)⟩

/-- Words that give the same element are the same. -/
theorem ofWord_inj {m k : Int32} : Felt.ofWord m = Felt.ofWord k ↔ m = k :=
  ⟨fun h => congrArg Felt.toInt32 h, fun h => h ▸ rfl⟩

/-- Zero is the element of the word zero only. -/
theorem isZero_ofWord (m : Int32) :
    (Felt.ofWord m).isZero = decide (m = 0) := by
  rw [Bool.eq_iff_iff, ← Felt.toInt32_eq_zero_iff, Felt.toInt32_ofWord,
    decide_eq_true_eq]

/-- Equality computes the truth value of the equation, from whether the
difference is zero. -/
theorem equality_computes {equal : Bool} {l r : Val} (hS : Stage L 1 n b)
    (hst : Standing code base t b') (hl : l.Below n) (hr : r.Below n)
    (hdst : dst.toInt < n) (h : Scope.equality equal l r dst b = .ok u b') :
    Computes code base L n b b' l r dst fun x y => Felt.truth
      (decide (x = y) == equal) := by
  -- the difference is computed into the result's slot and tested there
  have hdiff {l r : Val} (hl : l.Below n) (hr : r.Below n)
      (h : (Builder.sub l r dst >>= fun _ => Builder.normalize dst dst equal) b
      = .ok u b') :
      Computes code base L n b b' l r dst fun x y =>
        Felt.truth (decide (x = y) == equal) := by
    obtain ⟨_, b₁, h₁, h⟩ := bind_ok_iff.mp h
    have hst₁ : Standing code base t b₁ :=
      hst.of_extends (Extends.labelling.normalize _ _ _ _ _ _ h)
    refine ((arith_computes arithSub_works hS hst₁ hl hr hdst h₁).normalize hst
      h).congr
      fun x y hx hy => ?_
    have hzero : (x - y).isZero = decide (x = y) := by
      rw [Bool.eq_iff_iff, Felt.isZero_sub hx hy, decide_eq_true_eq]
    exact congrArg (fun z => Felt.truth (z == equal)) hzero
  cases l with
  | const x =>
      cases r with
      | const y =>
          refine storeLit_computes hS hst h ?_
          rintro σ _ _ ⟨rfl, -⟩ ⟨rfl, -⟩
          -- two literals: words are equal when their elements are
          simp only [Felt.truth, ofWord_inj]
      | slot r =>
          exact (hdiff hr hl h).swap.congr fun x y _ _ =>
            congrArg (fun z => Felt.truth (z == equal))
              (decide_eq_decide.mpr eq_comm)
  | slot l => exact hdiff hl hr h

/-- A conjunction computes whether neither operand is zero, from their product:
a field has no zero divisors. -/
theorem conjunction_computes {l r : Val} (hS : Stage L 1 n b)
    (hst : Standing code base t b') (hl : l.Below n) (hr : r.Below n)
    (hdst : dst.toInt < n) (h : Scope.conjunction l r dst b = .ok u b') :
    Computes code base L n b b' l r dst fun x y => Felt.truth
      (!x.isZero && !y.isZero) := by
  -- beside a literal zero the answer is known, beside another it is the other
  -- operand's truth
  have hone {m off : Int32} (h : (if m = 0 then Builder.storeLit 0 dst
      else Builder.normalize off dst false) b = .ok u b') :
      Computes code base L n b b' (.const m) (.slot off) dst
        fun x y => Felt.truth (!x.isZero && !y.isZero) := by
    split at h
    · rename_i hm
      refine storeLit_computes hS hst h ?_
      rintro σ _ y ⟨rfl, -⟩ -
      rw [isZero_ofWord, hm]
      rfl
    · rename_i hm
      obtain ⟨hlayout, hlt, hrun⟩ := normalize_spec hst h
      refine ⟨⟨n, le_rfl, hS.pay hlayout hlt⟩, ?_⟩
      rintro σ _ y ⟨rfl, -⟩ ⟨hy, -⟩
      rw [isZero_ofWord, decide_eq_false hm]
      refine ⟨_, hrun σ y hy, ?_⟩
      rw [show (y.isZero == false)
        = (!false && !y.isZero) by cases y.isZero <;> rfl]
      exact Sets.update _ _ _ _ _
  cases l with
  | const x =>
      cases r with
      | const y =>
          refine storeLit_computes hS hst h ?_
          rintro σ _ _ ⟨rfl, -⟩ ⟨rfl, -⟩
          rw [isZero_ofWord, isZero_ofWord, Felt.truth]
          simp
      | slot r => exact hone h
  | slot l =>
      cases r with
      | const y =>
          refine (hone h).swap.congr fun x y _ _ => ?_
          rw [Bool.and_comm]
      | slot r =>
          -- two slots: a product is zero exactly when a factor is
          obtain ⟨_, b₁, h₁, h⟩ := bind_ok_iff.mp h
          have hst₁ : Standing code base t b₁ :=
            hst.of_extends (Extends.labelling.normalize _ _ _ _ _ _ h)
          refine ((arith_computes arithMul_works hS hst₁ hl hr hdst
            h₁).normalize hst h).congr
            fun x y hx hy => congrArg Felt.truth ?_
          have hzero : (x * y).isZero = (x.isZero || y.isZero) := by
            rw [Bool.eq_iff_iff, Felt.isZero_mul hx hy, Bool.or_eq_true]
          show ((x * y).isZero == false) = _
          rw [hzero]
          cases x.isZero <;> cases y.isZero <;> rfl

/-- A disjunction computes whether one of the operands is not zero. -/
theorem disjunction_computes {l r : Val} (hS : Stage L 1 n b)
    (hst : Standing code base t b') (hl : l.Below n) (hr : r.Below n)
    (hdst : dst.toInt < n) (h : Scope.disjunction l r dst b = .ok u b') :
    Computes code base L n b b' l r dst fun x y => Felt.truth
      (!x.isZero || !y.isZero) := by
  -- whatever slots are left to test, they decide the answer
  have hslots {xs : List Int32} (hxs : ∀ x ∈ xs, x.toInt < n)
      (h : Builder.anyNonzero xs dst b = .ok u b')
      (hvs : ∀ σ x y, l.Holds σ x → r.Holds σ y →
        ∃ vs : List Felt, xs.map σ = vs.map some
        ∧ vs.any (!·.isZero) = (!x.isZero || !y.isZero)) :
      Computes code base L n b b' l r dst fun x y =>
        Felt.truth (!x.isZero || !y.isZero) := by
    obtain ⟨hstage, hrun⟩ := anyNonzero_spec hS hst hxs hdst h
    refine ⟨hstage, fun σ x y hx hy => ?_⟩
    obtain ⟨vs, hmap, hany⟩ := hvs σ x y hx hy
    rw [← hany]
    exact hrun σ vs hmap
  cases l with
  | const x =>
      cases r with
      | const y =>
          have h : (if (decide (x ≠ 0) || (decide (y ≠ 0) || false)) = true
            then Builder.storeLit 1 dst
            else Builder.storeLit 0 dst) b = .ok u b' := h
          split at h
          all_goals
            rename_i hany
            refine storeLit_computes hS hst h ?_
            rintro σ _ _ ⟨rfl, -⟩ ⟨rfl, -⟩
            rw [isZero_ofWord, isZero_ofWord, Felt.truth]
            simp_all [Scope.bit]
      | slot r =>
          have h : (if (decide (x ≠ 0) || (false || false)) = true
            then Builder.storeLit 1 dst
            else Builder.anyNonzero [r] dst) b = .ok u b' := h
          split at h
          · rename_i hany
            refine storeLit_computes hS hst h ?_
            rintro σ _ _ ⟨rfl, -⟩ -
            rw [isZero_ofWord, Felt.truth]
            simp_all [Scope.bit]
          · rename_i hany
            refine hslots (fun x hx => List.mem_singleton.mp hx ▸ hr) h ?_
            rintro σ _ y ⟨rfl, -⟩ ⟨hy, -⟩
            exact ⟨[y], by simp [hy], by rw [isZero_ofWord]; simp_all⟩
  | slot l =>
      cases r with
      | const y =>
          have h : (if (false || (decide (y ≠ 0) || false)) = true
            then Builder.storeLit 1 dst
            else Builder.anyNonzero [l] dst) b = .ok u b' := h
          split at h
          · rename_i hany
            refine storeLit_computes hS hst h ?_
            rintro σ _ _ - ⟨rfl, -⟩
            rw [isZero_ofWord, Felt.truth]
            simp_all [Scope.bit]
          · rename_i hany
            refine hslots (fun x hx => List.mem_singleton.mp hx ▸ hl) h ?_
            rintro σ x _ ⟨hx, -⟩ ⟨rfl, -⟩
            exact ⟨[x], by simp [hx], by rw [isZero_ofWord]; simp_all⟩
      | slot r =>
          refine hslots (by simpa using ⟨hl, hr⟩) h ?_
          rintro σ x y ⟨hx, -⟩ ⟨hy, -⟩
          exact ⟨[x, y], by simp [hx, hy], by simp⟩

end

end Asm

end MirBackend
