/-
Operators of one slot, whatever slots their operands and results share.

Selection finds code for every operator, as long as its operands are literals or
values in the frame and no literal is divided by that is zero (`Succeeds`):
slots that are in the way are copied aside, so no instruction that is emitted
reads a slot twice or one that it writes (`Insn.Separate`). What the code
computes is what the interpreter computes from the same elements, and all slots
below the old top of the frame are left alone but the one that the result is
for.

Literals count as elements of the field: the operand is reduced before it is
looked at, by the interpreter as well as by selection.
-/
import Mathlib
import MirBackend.Proofs.Asm.Placement

namespace MirBackend.Asm

open Interp (bind_ok_iff Slots)
open Builder (Arith arithAdd arithSub arithMul arithDiv)

variable {α β : Type} {b b' : Builder} {n : Nat} {dst : Int32}

-- ================================================================== separate

/-- An operation names three different slots, or two if its other operand is a
number, and a copy is not made onto itself. -/
def Insn.Separate (x : Insn) : Prop :=
  match x.opcode with
  | .storeAddFpFp | .storeSubFpFp | .storeMulFpFp | .storeDivFpFp =>
      x.off0 ≠ x.off1 ∧ x.off0 ≠ x.off2 ∧ x.off1 ≠ x.off2
  | .storeAddFpImm | .storeSubFpImm | .storeMulFpImm | .storeDivFpImm
  | .storeDerefFp =>
      x.off0 ≠ x.off2
  | _ => True

/-- The machine takes no others. -/
theorem Insn.separate_of_admits {x : Insn}
    (h : Machine.admits x = true) : x.Separate := by
  rw [Machine.admits, Bool.and_eq_true] at h
  rw [Insn.Separate]
  obtain ⟨-, h⟩ := h
  split <;> simp_all

/-- Separate instructions were added. -/
def Tidy (b b' : Builder) : Prop := ∃ xs, b'.code = b.code ++ xs
    ∧ ∀ x ∈ xs, x.Separate

/-- A builder whose instructions are those of a tidy one is tidy too. -/
theorem Tidy.of_code_eq (h : b'.code = b.code) : Tidy b b' :=
  ⟨[], by rw [h, List.append_nil], fun _ hx => absurd hx List.not_mem_nil⟩

/-- Tidiness is kept step after step. -/
theorem Tidy.trans {b₁ : Builder} (h : Tidy b b₁)
    (h' : Tidy b₁ b') : Tidy b b' := by
  obtain ⟨xs, hxs, hall⟩ := h
  obtain ⟨ys, hys, hall'⟩ := h'
  refine ⟨xs ++ ys, by rw [hys, hxs, List.append_assoc], fun x hx => ?_⟩
  exact (List.mem_append.mp hx).elim (hall x) (hall' x)

/-- Emission that answers, with separate instructions. -/
def Succeeds (m : Emit α) (b : Builder) (P : α → Builder → Prop) : Prop :=
  ∃ a b', m b = .ok a b' ∧ Tidy b b' ∧ P a b'

namespace Succeeds

variable {P Q : α → Builder → Prop}

-- The rules of the judgement, one for each way in which emissions are put
-- together.
theorem pure {a : α} (h : P a b) : Succeeds (Pure.pure a) b P :=
  ⟨a, b, rfl, .of_code_eq rfl, h⟩

theorem bind {R : β → Builder → Prop} {m : Emit α} {k : α → Emit β}
    (hm : Succeeds m b P) (hk : ∀ a b', P a b' → Succeeds (k a) b' R) :
    Succeeds (m >>= k) b R := by
  obtain ⟨a, b₁, h₁, htidy₁, hP⟩ := hm
  obtain ⟨c, b₂, h₂, htidy₂, hR⟩ := hk a b₁ hP
  exact ⟨c, b₂, (bind_of_ok h₁).trans h₂, htidy₁.trans htidy₂, hR⟩

/-- A step that only looks. -/
theorem step {R : β → Builder → Prop} {m : Emit α} {k : α → Emit β} {a : α}
    (hm : m b = .ok a b) (hk : Succeeds (k a) b R) :
    Succeeds (m >>= k) b R := by
  obtain ⟨c, b', h, hrest⟩ := hk
  exact ⟨c, b', (bind_of_ok hm).trans h, hrest⟩

/-- What is known of a success may be weakened. -/
theorem imp {m : Emit α} (h : Succeeds m b P) (hPQ : ∀ a b', P a b' → Q a b') :
    Succeeds m b Q := by
  obtain ⟨a, b', h, htidy, hP⟩ := h
  exact ⟨a, b', h, htidy, hPQ a b' hP⟩

/-- An instruction whose operands stand apart is emitted without a failure. -/
theorem emit {x : Insn} (hx : x.Separate) :
    Succeeds (Builder.emit x) b fun _ b' => b'.layout = b.layout :=
  ⟨(), _, rfl, ⟨[x], rfl, fun _ hy => List.mem_singleton.mp hy ▸ hx⟩, rfl⟩

/-- Placing a label does not fail, and leaves the layout. -/
theorem label (name : String) :
    Succeeds (Builder.label name) b fun _ b' => b'.layout = b.layout :=
  ⟨(), _, rfl, .of_code_eq rfl, rfl⟩

/-- There is always a next label to try. -/
theorem newLabel (stem : String) :
    Succeeds (Builder.newLabel stem) b fun _ b' => b'.layout = b.layout := by
  have hfresh (fuel : Nat) : ∀ b, ∃ name b', Builder.freshLabel stem fuel b
      = .ok name b' := by
    induction fuel with
    | zero => exact fun b => ⟨_, b, rfl⟩
    | succ fuel ih =>
        intro b
        obtain ⟨b₁, hb₁⟩ : ∃ b₁ : Builder, b₁
            = { b with counter := b.counter + 1 } := ⟨_, rfl⟩
        obtain ⟨free, b₂, hclaim⟩ : ∃ free b₂, Builder.claim
            (b.func ++ "." ++ stem ++ toString b.counter) b₁ = .ok free b₂ := by
          rw [Builder.claim]
          split
          · exact ⟨_, _, rfl⟩
          · split <;> exact ⟨_, _, rfl⟩
        have hstep : Builder.freshLabel stem (fuel + 1) b
            = if free then .ok (b.func ++ "." ++ stem ++ toString b.counter) b₂
              else Builder.freshLabel stem fuel b₂ := by
          rw [Builder.freshLabel]
          subst hb₁
          refine (bind_of_ok (m := Builder.claim _) hclaim).trans ?_
          cases free <;> rfl
        cases free with
        | true => exact ⟨_, b₂, hstep⟩
        | false =>
            obtain ⟨name, b', h⟩ := ih b₂
            exact ⟨name, b', hstep.trans h⟩
  obtain ⟨name, b', h⟩ : ∃ name b', Builder.newLabel stem b
      = .ok name b' := hfresh _ b
  obtain ⟨hcode, -, hlayout⟩ := Extends.newLabel h
  exact ⟨name, b', h, .of_code_eq hcode, hlayout⟩

end Succeeds

-- =================================================================== copies

/-- The frame of the function that is built has `n` slots. -/
def Framed (n : Nat) (b : Builder) : Prop :=
  ∃ l, b.layout = some l ∧ l.frameSize = Int64.ofNat n

/-- The frame is a matter of the layout only. -/
theorem Framed.of_layout_eq (h : Framed n b)
    (heq : b'.layout = b.layout) : Framed n b' := by
  rwa [Framed, heq]

/-- A copy is emitted whatever its slots are, since a copy onto itself emits
nothing. -/
theorem succeeds_copy (src dst : Int32) :
    Succeeds (Builder.copy src dst) b fun _ b' => b'.layout = b.layout := by
  rw [Builder.copy]
  split
  · exact .pure rfl
  · rename_i hne
    exact .emit hne

-- One lemma for each routine of the builder, the later ones by the earlier.
theorem succeeds_storeLit (m dst : Int32) :
    Succeeds (Builder.storeLit m dst) b fun _ b' => b'.layout
        = b.layout := .emit trivial

/-- A temporary is the first slot behind the frame, which grows by one. -/
theorem succeeds_temp (hb : Framed n b) :
    Succeeds Builder.temp b fun off b' => off = Int32.ofNat n
        ∧ Framed (n + 1) b' := by
  obtain ⟨l, hl, hsize⟩ := hb
  refine ⟨(l.reserve 1).1, { b with layout := some (l.reserve 1).2 }, ?_,
    .of_code_eq rfl, ?_, (l.reserve 1).2, rfl, ?_⟩
  · have hneed : need b.layout b = .ok l b := need_ok_iff.mpr ⟨hl, rfl⟩
    exact bind_of_ok (m := MonadState.get) rfl |>.trans (bind_of_ok hneed)
  · rw [Layout.reserve, hsize, Int64.toInt32_ofNat']
  · rw [Layout.reserve, hsize, Int64.ofNat_add]
    rfl

/-- A value is copied to a temporary behind the frame. -/
theorem succeeds_toTemp (hb : Framed n b) (off : Int32) :
    Succeeds (Builder.toTemp off) b fun o b' => o = Int32.ofNat n
        ∧ Framed (n + 1) b' := by
  refine (succeeds_temp hb).bind ?_
  rintro o b₁ ⟨rfl, hb₁⟩
  refine (succeeds_copy off _).bind fun _ b₂ h₂ => .pure ⟨rfl, ?_⟩
  exact hb₁.of_layout_eq h₂

/-- A slot that is in the way is copied to the next fresh one. -/
theorem succeeds_aside {c : Prop} [Decidable c] {off : Int32}
    {next : Int32 → Emit α} {P : α → Builder → Prop} (hb : Framed n b)
    (hcopied : c → ∀ b', Framed (n + 1) b' →
      Succeeds (next (Int32.ofNat n)) b' P)
    (hsame : ¬ c → Succeeds (next off) b P) :
    Succeeds (if c then Builder.toTemp off >>= next
      else pure off >>= next) b P := by
  split
  · rename_i hc
    refine (succeeds_toTemp hb off).bind ?_
    rintro o b₁ ⟨rfl, hb₁⟩
    exact hcopied hc b₁ hb₁
  · rename_i hc
    exact hsame hc

-- =============================================================== arithmetic

variable {op : Arith}

/-- Arithmetic with a constant succeeds if a divisor is not zero. One slot is
taken if the destination is the operand. -/
theorem succeeds_arithSlotConst (hop : op.Works) (hb : Framed n b)
    (hn : n < 2 ^ 31) {l m : Int32} (hdst : dst.toInt < n)
    (hm : op.divides = true → m ≠ 0) :
    Succeeds (Builder.arithSlotConst op l m dst) b fun _ _ => True := by
  have hpass : ¬ (op.divides && decide (m = 0)) = true := by
    rw [Bool.and_eq_true, decide_eq_true_eq, not_and]
    exact hm
  have hlast {l : Int32} {b : Builder} (hl : l ≠ dst) : Succeeds (Builder.emit
      { opcode := op.fpImm, off0 := l, imm := .literal m, off2 := dst }) b
      fun _ _ => True :=
    (Succeeds.emit (Insn.separate_of_admits (hop.admitsImm _ _ _ hl))).imp
    fun _ _ _ => trivial
  rw [Builder.arithSlotConst, if_neg hpass]
  exact succeeds_aside hb (fun _ _ _ => hlast (ne_ofNat hn hdst).symm) hlast

/-- Arithmetic on two slots takes at most one temporary. -/
theorem succeeds_arithSlots (hop : op.Works) (hb : Framed n b)
    (hn : n + 1 < 2 ^ 31) {l r : Int32} (hl : l.toInt < n) (hr : r.toInt < n)
    (hdst : dst.toInt < n) :
    Succeeds (Builder.arithSlots op l r dst) b fun _ _ => True := by
  have hlast {l r : Int32} {b : Builder} (h : l ≠ r ∧ l ≠ dst ∧ r ≠ dst) :
      Succeeds (Builder.emit
      { opcode := op.fpFp, off0 := l, off1 := r, off2 := dst }) b
      fun _ _ => True :=
    (Succeeds.emit (Insn.separate_of_admits
      (hop.admitsSlots _ _ _ h.1 h.2.1 h.2.2))).imp
      fun _ _ _ => trivial
  have htop (k : Nat) (hk : k < 2 ^ 31) : (Int32.ofNat k).toInt = k :=
    Int32.toInt_ofNat_of_lt hk
  refine succeeds_aside hb (fun hc b₁ hb₁ => ?_) fun hc => ?_
  · have hfresh : ¬ (Int32.ofNat n).toInt < n := by
      rw [htop n (by omega)]; omega
    have hlt : (Int32.ofNat n).toInt < (n + 1 : Nat) := by
      rw [htop n (by omega)]; omega
    refine succeeds_aside hb₁ (fun hc' b₂ _ => hlast ?_) fun hc' => hlast ?_
    · refine apart_of_aside (l := l) hr hdst (Nat.le_succ n)
        hlt (fun _ => hfresh)
        (fun hno => absurd (by simpa using hc) hno) (fun _ => ?_)
        fun hno => absurd hc' hno
      rw [htop (n + 1) hn]
      omega
    · exact apart_of_aside (l := l) hr hdst (Nat.le_succ n)
        hlt (fun _ => hfresh)
        (fun hno => absurd (by simpa using hc) hno)
        (fun hyes => absurd hyes hc') fun _ => rfl
  · refine succeeds_aside hb (fun hc' b₂ _ => hlast ?_) fun hc' => hlast ?_
    · refine apart_of_aside (l := l) hr hdst le_rfl hl
        (fun hyes => absurd (by simpa using hyes) hc)
        (fun _ => rfl) (fun _ => ?_) fun hno => absurd hc' hno
      rw [htop n (by omega)]
      omega
    · exact apart_of_aside (l := l) hr hdst le_rfl hl
        (fun hyes => absurd (by simpa using hyes) hc) (fun _ => rfl)
        (fun hyes => absurd hyes hc') fun _ => rfl

/-- An operation answers unless it divides by a number that is zero. -/
theorem succeeds_arith (hop : op.Works) (hb : Framed n b)
    (hn : n + 2 < 2 ^ 31) {l r : Val} (hl : l.Below n) (hr : r.Below n)
    (hdst : dst.toInt < n) (hzero : op.divides = true → r ≠ .const 0)
    (hcomm : op.commutes = true → op.divides = false) :
    Succeeds (Builder.arith op l r dst) b fun _ _ => True := by
  cases l with
  | const x =>
      cases r with
      | const y =>
          have hpass : ¬ (op.divides && decide (y = 0)) = true := by
            rw [Bool.and_eq_true, decide_eq_true_eq, not_and]
            rintro hdiv rfl
            exact hzero hdiv rfl
          rw [Builder.arith, if_neg hpass]
          exact (succeeds_storeLit _ dst).imp fun _ _ _ => trivial
      | slot r =>
          rw [Builder.arith]
          split
          · rename_i hc
            refine succeeds_arithSlotConst hop hb (by omega) hdst fun hdiv => ?_
            rw [hcomm hc] at hdiv
            cases hdiv
          · refine (succeeds_temp hb).bind ?_
            rintro o b₁ ⟨rfl, hb₁⟩
            refine (succeeds_storeLit x _).bind fun _ b₂ h₂ => ?_
            have htop : (Int32.ofNat n).toInt = n :=
              Int32.toInt_ofNat_of_lt (by omega)
            have hr : r.toInt < n := hr
            exact succeeds_arithSlots hop (hb₁.of_layout_eq h₂) (by omega)
              (by rw [htop]; omega)
              (by omega) (by omega)
  | slot l =>
      cases r with
      | const y =>
          refine succeeds_arithSlotConst hop hb (by omega) hdst ?_
          rintro hdiv rfl
          exact hzero hdiv rfl
      | slot r => exact succeeds_arithSlots hop hb (by omega) hl hr hdst

-- ============================================================= truth values

/-- Normalizing succeeds whatever its slots are. -/
theorem succeeds_normalize (y dst : Int32) (invert : Bool) :
    Succeeds (Builder.normalize y dst invert) b fun _ _ => True := by
  refine (Succeeds.newLabel "nz").bind fun nz _ _ => ?_
  refine (Succeeds.newLabel "end").bind fun done _ _ => ?_
  refine (Succeeds.emit
    (x := { opcode := .jnzFpImm, off0 := y, imm := .label nz }) trivial).bind
    fun _ _ _ => ?_
  refine (succeeds_storeLit _ dst).bind fun _ _ _ => ?_
  refine (Succeeds.emit (x := { opcode := .jmpAbsImm, imm := .label done })
    trivial).bind
    fun _ _ _ => ?_
  refine (Succeeds.label nz).bind fun _ _ _ => ?_
  refine (succeeds_storeLit _ dst).bind fun _ _ _ => ?_
  exact (Succeeds.label done).imp fun _ _ _ => trivial

/-- Jumps on a list of slots succeed, by induction on the list. -/
theorem succeeds_jumpIfs (ys : List Int32) (name : String) :
    Succeeds (ys.forM (Builder.jumpIf · name)) b fun _ _ => True := by
  induction ys generalizing b with
  | nil => exact .pure trivial
  | cons y ys ih =>
      exact (Succeeds.emit
        (x := { opcode := .jnzFpImm, off0 := y, imm := .label name })
        trivial).bind fun _ _ _ => ih

/-- So does the test whether one of them is not zero. -/
theorem succeeds_anyNonzero (hb : Framed n b) (ys : List Int32) (dst : Int32) :
    Succeeds (Builder.anyNonzero ys dst) b fun _ _ => True := by
  have haside : Succeeds (ys.mapM fun y => if y = dst
      then Builder.toTemp y else pure y) b
      fun _ _ => True := by
    induction ys generalizing b n with
    | nil => exact .pure trivial
    | cons y ys ih =>
        rw [List.mapM_cons]
        refine Succeeds.bind (P := fun _ b' => ∃ n', Framed n' b') ?_
          fun z b₁ ⟨n', hb₁⟩ => ?_
        · split
          · exact (succeeds_toTemp hb y).imp fun _ _ h => ⟨_, h.2⟩
          · exact .pure ⟨n, hb⟩
        · exact (ih hb₁).bind fun _ _ _ => .pure trivial
  refine haside.bind fun zs _ _ => ?_
  refine (Succeeds.newLabel "or").bind fun yes _ _ => ?_
  refine (Succeeds.newLabel "end").bind fun done _ _ => ?_
  refine (succeeds_storeLit 0 dst).bind fun _ _ _ => ?_
  refine (succeeds_jumpIfs zs yes).bind fun _ _ _ => ?_
  refine (Succeeds.emit (x := { opcode := .jmpAbsImm, imm := .label done })
    trivial).bind
    fun _ _ _ => ?_
  refine (Succeeds.label yes).bind fun _ _ _ => ?_
  refine (succeeds_storeLit 1 dst).bind fun _ _ _ => ?_
  exact (Succeeds.label done).imp fun _ _ _ => trivial

/-- Equality takes a temporary for the difference and one more for its
arithmetic. -/
theorem succeeds_equality (hb : Framed n b) (hn : n + 2 < 2 ^ 31)
    {l r : Val} (hl : l.Below n) (hr : r.Below n)
    (hdst : dst.toInt < n) (equal : Bool) :
    Succeeds (Scope.equality equal l r dst) b fun _ _ => True := by
  have hdiff {l r : Val} (hl : l.Below n) (hr : r.Below n) : Succeeds
      (Builder.sub l r dst >>= fun _ => Builder.normalize dst dst equal) b
      fun _ _ => True :=
    (succeeds_arith arithSub_works hb hn hl hr hdst nofun nofun).bind
      fun _ _ _ => succeeds_normalize dst dst equal
  cases l with
  | const x =>
      cases r with
      | const y => exact (succeeds_storeLit _ dst).imp fun _ _ _ => trivial
      | slot r => exact hdiff hr hl
  | slot l => exact hdiff hl hr

/-- A conjunction is a product, with the same two temporaries. -/
theorem succeeds_conjunction (hb : Framed n b) (hn : n + 2 < 2 ^ 31)
    {l r : Val} (hl : l.Below n) (hr : r.Below n) (hdst : dst.toInt < n) :
    Succeeds (Scope.conjunction l r dst) b fun _ _ => True := by
  have hone (m off : Int32) : Succeeds (if m = 0 then Builder.storeLit 0 dst
      else Builder.normalize off dst false) b fun _ _ => True := by
    split
    · exact (succeeds_storeLit 0 dst).imp fun _ _ _ => trivial
    · exact succeeds_normalize off dst false
  cases l with
  | const x =>
      cases r with
      | const y => exact (succeeds_storeLit _ dst).imp fun _ _ _ => trivial
      | slot r => exact hone x r
  | slot l =>
      cases r with
      | const y => exact hone y l
      | slot r =>
          exact (succeeds_arith arithMul_works hb hn hl hr hdst nofun
            fun _ => rfl).bind
            fun _ _ _ => succeeds_normalize dst dst false

/-- A disjunction tests its slots in turn and takes what its jumps take. -/
theorem succeeds_disjunction (hb : Framed n b) (l r : Val) (dst : Int32) :
    Succeeds (Scope.disjunction l r dst) b fun _ _ => True := by
  rw [Scope.disjunction]
  split
  · exact (succeeds_storeLit 1 dst).imp fun _ _ _ => trivial
  · split
    · exact (succeeds_storeLit 0 dst).imp fun _ _ _ => trivial
    · exact succeeds_anyNonzero hb _ dst

-- ================================================================= operands

variable {x : Scope} {l : Layout} {d : ValueId} {s : Span}
  {o : Operand} {w : Val}

/-- An operand of one slot: a literal, or a value in the frame that is no known
address. -/
def Scope.Scalar (x : Scope) (l : Layout) : Operand → Prop
  | .value v => v ∉ x.static ∧ ∃ s, l.spans[v]? = some s
      ∧ s.base.toInt < l.frameSize.toInt
  | .int _ | .bool _ => True
  | .unit | .error | .invalid => False

/-- An operand of one slot is selected. -/
theorem Scope.Scalar.val (h : x.Scalar l o) (hl : b.layout = some l) :
    ∃ w, x.val o b = .ok w b ∧ x.Chosen l o w := by
  cases o with
  | int k => exact ⟨_, rfl, .int k⟩
  | bool c => exact ⟨_, rfl, .bool c⟩
  | value v =>
      obtain ⟨hstatic, s, hs, -⟩ := h
      refine ⟨.slot s.base, ?_, .value hstatic hs⟩
      have hnot : ¬ x.isStatic v = true := by
        rwa [Scope.isStatic, Std.ExtTreeMap.contains_iff_mem]
      show (if x.isStatic v then failWith (.addressAsValue v)
        else return Val.slot (← Scope.offset v) : Emit Val) b = _
      rw [if_neg hnot]
      exact bind_of_ok (offset_eq hl hs)
  | unit | error | invalid => exact h.elim

/-- A scalar operand is a literal or lies within the frame. -/
theorem Scope.Scalar.below (h : x.Scalar l o) (hw : x.Chosen l o w) :
    w.Below l.frameSize.toInt.toNat := by
  cases hw with
  | int k => trivial
  | bool c => trivial
  | value _ hs =>
      obtain ⟨-, s', hs', hlt⟩ := h
      rw [hs, Option.some.injEq] at hs'
      subst hs'
      show Int32.toInt _ < _
      omega

/-- The operators for which there is code. -/
def scalarOps : List BinaryOp := [.add, .sub, .mul, .div, .eq, .neq, .and, .or]

/-- Where selection stands within a block, the frame is as large as the stage
says. -/
theorem Stage.framed {L : Layout} {k : Nat} (h : Stage L k n b) : Framed n b :=
  ⟨_, h.layout, rfl⟩

-- ================================================================== result

/-- Emission that answers, with separate instructions; wherever its code stands,
it puts an element into a slot and leaves the others of the frame as they
were. -/
def Selects (l : Layout) (m : Emit Unit) (b : Builder) (σ : FrameSlots)
    (dst : Int32) (v : Felt) : Prop :=
  ∃ b', m b = .ok () b' ∧ Tidy b b' ∧ ∀ code base t, Standing code base t b' →
    ∃ σ', Leads code base b.code.length σ b'.code.length σ' ∧ σ' dst = some v
      ∧ ∀ off : Int32, off.toInt < l.frameSize.toInt →
      off ≠ dst → σ' off = σ off

/-- Negation and `not` are selected for every scalar operand: two slots behind a
frame that fits are still addressable. -/
theorem unary_succeeds {op : UnaryOp} (hl : b.layout = some l)
    (hlow : 0 ≤ l.frameSize.toInt)
    (hfits : l.frameSize.toInt ≤ Layout.maxFrame.toInt)
    (hd : l.spans[d]? = some s) (hlt : s.base.toInt < l.frameSize.toInt)
    (ho : x.Scalar l o) (hop : op = .neg ∨ op = .not) :
    Succeeds (x.unary op d o) b fun _ _ => True := by
  have hmax : Layout.maxFrame.toInt = 16777216 := rfl
  obtain ⟨w, hw, hchosen⟩ := ho.val hl
  refine .step (offset_eq hl hd) (.step hw ?_)
  obtain rfl | rfl := hop
  · exact succeeds_arith arithMul_works (Stage.here hl hlow hfits).framed
      (by omega) (ho.below hchosen)
      trivial (by omega) (fun h => absurd h Bool.false_ne_true) fun _ => rfl
  · cases w with
    | const k => exact (succeeds_storeLit _ _).imp fun _ _ _ => trivial
    | slot off => exact succeeds_normalize off _ true

/-- So is every operator on two scalars, but for a division by the literal zero.
-/
theorem binary_succeeds {op : BinaryOp} {o' : Operand} (hl : b.layout = some l)
    (hlow : 0 ≤ l.frameSize.toInt)
    (hfits : l.frameSize.toInt ≤ Layout.maxFrame.toInt)
    (hd : l.spans[d]? = some s) (hlt : s.base.toInt < l.frameSize.toInt)
    (ho : x.Scalar l o) (ho' : x.Scalar l o') (hop : op ∈ scalarOps)
    (hzero : op = .div → ¬ x.Chosen l o' (.const 0)) :
    Succeeds (x.binary op d o o') b fun _ _ => True := by
  have hb := (Stage.here hl hlow hfits).framed
  have hmax : Layout.maxFrame.toInt = 16777216 := rfl
  have hroom : l.frameSize.toInt.toNat + 2 < 2 ^ 31 := by omega
  have hdst : s.base.toInt < l.frameSize.toInt.toNat := by omega
  obtain ⟨v, hv, hvc⟩ := ho.val hl
  obtain ⟨w, hw, hwc⟩ := ho'.val hl
  have hvb := ho.below hvc
  have hwb := ho'.below hwc
  have hfield : ¬ op.isU32 = true := by
    have hall : ∀ op ∈ scalarOps, ¬ op.isU32 = true := by decide
    exact hall op hop
  rw [Scope.binary, if_neg hfield]
  refine .step (offset_eq hl hd)
    (.step (under_ok_iff.mpr hv) (.step (under_ok_iff.mpr hw) ?_))
  simp only [scalarOps, List.mem_cons, List.not_mem_nil, or_false] at hop
  rcases hop with rfl | rfl | rfl | rfl | rfl | rfl | rfl | rfl
  · exact succeeds_arith arithAdd_works hb hroom hvb hwb hdst
      (fun h => absurd h Bool.false_ne_true) fun _ => rfl
  · exact succeeds_arith arithSub_works hb hroom hvb hwb hdst
      (fun h => absurd h Bool.false_ne_true) fun h =>
      absurd h Bool.false_ne_true
  · exact succeeds_arith arithMul_works hb hroom hvb hwb hdst
      (fun h => absurd h Bool.false_ne_true) fun _ => rfl
  · refine succeeds_arith arithDiv_works hb hroom hvb hwb hdst (fun _ => ?_)
      fun h => absurd h Bool.false_ne_true
    rintro rfl
    exact hzero rfl hwc
  · exact succeeds_equality hb hroom hvb hwb hdst true
  · exact succeeds_equality hb hroom hvb hwb hdst false
  · exact succeeds_conjunction hb hroom hvb hwb hdst
  · exact succeeds_disjunction hb v w s.base

/-- What code computes from what the operands hold is selected for them. -/
theorem Selects.of_computes {m : Emit Unit} {v w : Val}
    {f : Felt → Felt → Felt} {σ : FrameSlots} {y z : Felt} (h : m b = .ok () b')
    (htidy : Tidy b b') (hlow : 0 ≤ l.frameSize.toInt) (hy : v.Holds σ y)
    (hz : w.Holds σ z) (hcomputes : ∀ code base t, Standing code base t b' →
      Computes code base l l.frameSize.toInt.toNat b b' v w dst f) :
    Selects l m b σ dst (f y z) := by
  refine ⟨b', h, htidy, fun code base t hst => ?_⟩
  obtain ⟨σ', hleads, hsets⟩ := (hcomputes code base t hst).run hy hz
  exact ⟨σ', hleads, hsets.here,
    fun off hoff hne => hsets.other off (.inl (by omega)) hne⟩

/-- Every operator has code, whatever slots its operands and its result share:
emission answers with separate instructions, the interpreter has a result for
what the operands stand for, and the code leaves it in the slot of the
destination and all else below the top of the frame as it was. -/
theorem operators_select (hl : b.layout = some l) (hlow : 0 ≤ l.frameSize.toInt)
    (hfits : l.frameSize.toInt ≤ Layout.maxFrame.toInt)
    (hd : l.spans[d]? = some s) (hlt : s.base.toInt < l.frameSize.toInt)
    (σ : FrameSlots) :
    (∀ op o y, op = .neg ∨ op = .not → x.Scalar l o → Stands l σ o [y] →
        ∃ v : Felt, v.Canonical ∧ Interp.unaryOp op y = .ok [v.toInt64]
          ∧ Selects l (x.unary op d o) b σ s.base v)
      ∧ ∀ op o o' y z, op ∈ scalarOps → x.Scalar l o → x.Scalar l o' →
        Stands l σ o [y] →
        Stands l σ o' [z] → (op = .div → z ≠ 0) →
        ∃ v : Felt, v.Canonical ∧ Interp.binaryOp op [y] [z] = .ok [v.toInt64]
          ∧ Selects l (x.binary op d o o') b σ s.base v := by
  have hS := Stage.here hl hlow hfits
  have hdst : s.base.toInt < l.frameSize.toInt.toNat := by omega
  refine ⟨fun op o y hop ho hy => ?_,
    fun op o o' y z hop ho ho' hy hz hdiv => ?_⟩
  · obtain ⟨⟨⟩, b', h, htidy, -⟩ :=
      unary_succeeds (x := x) hl hlow hfits hd hlt ho hop
    obtain ⟨s', w, k, f, hs', hw, hcomputes, hcan, hresult⟩ :=
      unary_computes hS h
    rw [hd, Option.some.injEq] at hs'
    subst hs'
    obtain ⟨a, rfl, ha⟩ := hw.holds hy
    exact ⟨_, hcan _ _, hresult a ha.canonical,
      .of_computes h htidy hlow ha (Val.holds_ofInt k σ)
      (hcomputes (ho.below hw) hdst)⟩
  · have hzero : op = .div → ¬ x.Chosen l o' (.const 0) := by
      intro hop hchosen
      obtain ⟨c, rfl, rfl, -⟩ := hchosen.holds hz
      exact hdiv hop rfl
    obtain ⟨⟨⟩, b', h, htidy, -⟩ :=
      binary_succeeds hl hlow hfits hd hlt ho ho' hop hzero
    obtain ⟨hfield, s', v, w, f, hs', hv, hw, hcomputes, hcan, hresult⟩ :=
      binary_computes hS h
    rw [hd, Option.some.injEq] at hs'
    subst hs'
    obtain ⟨a, rfl, ha⟩ := hv.holds hy
    obtain ⟨c, rfl, hc⟩ := hw.holds hz
    have hnonzero (hop : op = .div) : c.isZero = false := by
      rw [← Bool.not_eq_true, ← Felt.toInt64_eq_zero_iff]
      exact hdiv hop
    refine ⟨_, hcan _ _, ?_, .of_computes h htidy hlow ha hc
      (hcomputes (ho.below hv) (ho'.below hw) hdst)⟩
    rw [Interp.binaryOp, if_neg (by simp [hfield]),
      Felt.ofInt64_toInt64 ha.canonical, Felt.ofInt64_toInt64 hc.canonical]
    exact hresult a c hnonzero

/-- A function with one slot, that of one value. -/
def cell : Builder :=
  { func := "cell",
    layout := some { name := "cell", spans := (∅ : Std.ExtTreeMap ValueId Span).insert 0 ⟨0, 1⟩,
                     order := [0], frameSize := 1 } }

-- A scope with a value in one slot, at which the hypotheses are met.
def cellScope : Scope := { module := ⟨[]⟩, func := Func.named "cell" }

/-- A value compared to itself, the answer put in its own slot: the code can be
linked, and leads to one in that slot. -/
theorem operators_select_cell :
    ∃ (l : Layout) (b' : Builder) (σ : FrameSlots) (v : Felt),
      cell.layout = some l
      ∧ 0 ≤ l.frameSize.toInt ∧ l.frameSize.toInt ≤ Layout.maxFrame.toInt
      ∧ l.spans[(0 : ValueId)]? = some ⟨0, 1⟩
      ∧ (0 : Int32).toInt < l.frameSize.toInt
      ∧ .eq ∈ scalarOps ∧ cellScope.Scalar l
      (.value 0) ∧ Stands l σ (.value 0) [5]
      ∧ Interp.binaryOp .eq [5] [5] = .ok [v.toInt64]
      ∧ cellScope.binary .eq 0 (.value 0) (.value 0) cell = .ok () b'
      ∧ ∃ p t, link [b'] = .ok p ∧ Standing p.code 0 t b'
        ∧ ∃ σ', Leads p.code 0 0 σ b'.code.length σ' ∧ σ' 0 = some v := by
  obtain ⟨l, hl, hspan, hsize⟩ : ∃ l, cell.layout = some l
      ∧ l.spans[(0 : ValueId)]? = some ⟨0, 1⟩ ∧ l.frameSize = 1 :=
    ⟨_, rfl, Std.ExtTreeMap.getElem?_insert_self, rfl⟩
  have hlow : 0 ≤ l.frameSize.toInt := by rw [hsize]; decide
  have hfits : l.frameSize.toInt ≤ Layout.maxFrame.toInt := by
    rw [hsize]; decide
  have hlt : (0 : Int32).toInt < l.frameSize.toInt := by rw [hsize]; decide
  obtain ⟨σ, hσ⟩ : ∃ σ : FrameSlots, σ 0 = some (Felt.ofInt64 5) :=
    ⟨fun _ => _, rfl⟩
  have hscalar : cellScope.Scalar l (.value 0) :=
    ⟨Std.ExtTreeMap.not_mem_empty, _, hspan, hlt⟩
  have hstands : Stands l σ (.value 0) [5] := by
    refine ⟨_, hspan, fun i y hi => ?_⟩
    obtain ⟨rfl, rfl⟩ : i = 0 ∧ 5 = y := by
      cases i with
      | zero => exact ⟨rfl, Option.some.inj hi⟩
      | succ i => cases hi
    exact ⟨_, Felt.canonical_ofInt64 5, by decide, by rw [add_ofNat_zero, hσ]⟩
  obtain ⟨v, -, hv, b', hb', -, hruns⟩ :=
    (operators_select (x := cellScope) hl hlow hfits hspan hlt
    σ).2 .eq (.value 0) (.value 0) 5 5 (by decide) hscalar
      hscalar hstands hstands
    fun h => BinaryOp.noConfusion h
  -- the code that is emitted names only labels of its own, and names them once
  obtain ⟨hnd, hnamed, hlen⟩ : b'.defs.Nodup
      ∧ (∀ i ∈ b'.code, i.imm.isLabel = true →
      ∃ n ∈ b'.defs, i.imm = .label n) ∧ b'.code.length = 7 := by
    obtain ⟨b₁, hb₁, hfacts⟩ :
        ∃ b₁, cellScope.binary .eq 0 (.value 0) (.value 0) cell = .ok () b₁
        ∧ b₁.defs.Nodup ∧ (∀ i ∈ b₁.code, i.imm.isLabel = true →
          ∃ n ∈ b₁.defs, i.imm = .label n) ∧ b₁.code.length = 7 :=
      ⟨_, rfl, by decide, by decide, rfl⟩
    rw [hb', EStateM.Result.ok.injEq] at hb₁
    rwa [hb₁.2]
  obtain ⟨t, bs', ht, hres, hlink⟩ := link_spec
    (show ([b'].flatMap Builder.defs).Nodup by simpa using hnd) (by
    rintro c hc i hi n hn
    obtain rfl := List.mem_singleton.mp hc
    obtain ⟨k, hk, heq⟩ := hnamed i hi (by rw [hn]; rfl)
    obtain rfl : n = k := Imm.label.inj (hn.symm.trans heq)
    simpa using hk)
  have hstanding : Standing (Link.assemble t bs').code 0 t b' := by
    refine hres.standing ht (List.nil_append [b']).symm ?_
    rw [Link.code_assemble, List.length_flatMap, hres.map_length,
      List.map_singleton, hlen]
    decide
  obtain ⟨σ', hleads, hhere, -⟩ := hruns _ _ _ hstanding
  exact ⟨l, b', σ, v, hl, hlow, hfits, hspan, hlt, by decide, hscalar, hstands,
    hv, hb', _, t, hlink, hstanding, σ', hleads, hhere⟩

end MirBackend.Asm
