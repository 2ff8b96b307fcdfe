/-
What emission does to a builder, whatever is emitted.

Selection builds its code from few operations on a builder: appending an
instruction (`Plain`), growing the frame (`Roomy`), and the pieces of code that
bring labels of their own. A relation between builders that these operations
keep to is kept to by the selection of every instruction and every terminator.
So is one that allows fresh slots only where code is emitted along with them,
piece by piece (`Closed`). `refs` are the labels that instructions may name: of
the blocks of the function and of the functions of the module.
-/
import Mathlib
import MirBackend.Asm.Select
import MirBackend.Proofs.Interp.Exec

namespace MirBackend.Asm

open Interp (bind_ok_iff)

variable {α β : Type} {R : Builder → Builder → Prop} {refs : String → Prop}

-- =================================================================== steps

/-- What follows a step that answered. -/
theorem bind_of_ok {ε σ : Type} {m : EStateM ε σ α} {k : α → EStateM ε σ β}
    {a : α} {s s' : σ} (h : m s = .ok a s') : (m >>= k) s = k a s' := by
  show EStateM.bind m k s = _
  rw [EStateM.bind, h]

/-- Asking for a value that may be missing leaves the builder alone. -/
theorem need_ok_iff {o : Option α} {a : α} {b b' : Builder} :
    need o b = .ok a b' ↔ o = some a ∧ b = b' := by
  cases o with
  | none =>
      constructor
      · intro h
        cases h
      · rintro ⟨h, -⟩
        cases h
  | some x =>
      constructor
      · intro h
        cases h
        exact ⟨rfl, rfl⟩
      · rintro ⟨hx, rfl⟩
        cases hx
        rfl

/-- An emission that fails answers nothing. -/
theorem failWith_ne_ok {c : Cause} {a : α} {b b' : Builder} :
    failWith c b ≠ .ok a b' :=
  fun h => by cases h

/-- The heading of a failure does not change what is emitted. -/
theorem under_ok_iff {heading : String} {m : Emit α} {a : α} {b b' : Builder} :
    under heading m b = .ok a b' ↔ m b = .ok a b' := by
  rw [under]
  rcases m b with ⟨a₁, b₁⟩ | ⟨e | h, b₁⟩ <;> simp

/-- A step made for every element answers once for each. -/
theorem length_of_mapM {g : α → Emit β} {as : List α}
    {bs : List β} {b b' : Builder} (h : as.mapM g b = .ok bs b') :
    bs.length = as.length := by
  induction as generalizing b bs with
  | nil =>
      rw [List.mapM_nil] at h
      cases h
      rfl
  | cons a as ih =>
      rw [List.mapM_cons] at h
      obtain ⟨c, b₁, -, h⟩ := bind_ok_iff.mp h
      obtain ⟨cs, b₂, hcs, h⟩ := bind_ok_iff.mp h
      cases h
      rw [List.length_cons, List.length_cons, ih hcs]

/-- Whatever a step of emission does, it takes builders along a relation. -/
def Emitting (R : Builder → Builder → Prop) (m : Emit α) : Prop :=
  ∀ b a b', m b = .ok a b' → R b b'

/-- An instruction as selection writes it. It may name the label that it names;
its number has no name yet; and there is no comment, or that it stores an array,
or the name of what it calls. -/
structure Insn.Selected (refs : String → Prop) (x : Insn) : Prop where
  named : ∀ n, x.imm = .label n → refs n
  unnamed : ∀ v n, x.imm = .literal v n → n = ""
  comment : x.comment = "" ∨ x.comment = "array" ∨ ∃ n, x.imm = .label n
    ∧ x.comment = "call " ++ n

/-- Relations that allow code without labels of its own. -/
structure Plain (refs : String → Prop)
    (R : Builder → Builder → Prop) : Prop where
  refl : ∀ b, R b b
  trans : ∀ b c d, R b c → R c d → R b d
  emit : ∀ b x, x.Selected refs → R b { b with code := b.code ++ [x] }

/-- Relations that allow any number of fresh slots, too. -/
structure Roomy (refs : String → Prop) (R : Builder → Builder → Prop) : Prop
    extends Plain refs R where
  reserve : ∀ b l n, b.layout = some l →
    R b { b with layout := some (l.reserve n).2 }

/-- The stems of the labels that the code of an instruction brings. -/
def stems : List String := ["nz", "end", "or", "data"]

/-- Relations that allow labels and data, whatever they are called and hold. -/
structure Labelling (R : Builder → Builder → Prop) :
    Prop extends Plain (fun _ => True) R where
  newLabel : ∀ stem ∈ stems, Emitting R (Builder.newLabel stem)
  label : ∀ name, Emitting R (Builder.label name)
  dataLabel : ∀ name, Emitting R (Builder.dataLabel name)
  pushData : ∀ vs, Emitting R (Builder.pushData vs)

/-- Relations that allow all that selection does for the functions of a
module. -/
structure Closed (m : Module) (refs : String → Prop)
    (R : Builder → Builder → Prop) : Prop
    extends Plain refs R where
  arith : ∀ op l r dst, Emitting R (Builder.arith op l r dst)
  difference : ∀ l r, Emitting R (Builder.temp >>= fun diff =>
    Builder.sub l r diff >>= fun _ => Pure.pure diff)
  normalize : ∀ x dst invert, Emitting R (Builder.normalize x dst invert)
  anyNonzero : ∀ xs dst, Emitting R (Builder.anyNonzero xs dst)
  makeArray : ∀ d es t, Emitting R (Scope.makeArray d es t)
  call : ∀ (x : Scope) ds callee args, x.module = m →
    Emitting R (x.call ds callee args)

namespace Plain

variable (hR : Plain refs R)
include hR

/-- Emitting nothing is a step of any relation, by reflexivity. -/
theorem pure (a : α) : Emitting R (Pure.pure a : Emit α) := fun b _ _ h => by
  cases h
  exact hR.refl b

/-- Emissions in turn are steps in turn, by transitivity. -/
theorem bind {m : Emit α} {k : α → Emit β} (hm : Emitting R m)
    (hk : ∀ a, Emitting R (k a)) : Emitting R (m >>= k) := by
  intro b c b' h
  obtain ⟨a, b₁, hm', hk'⟩ := bind_ok_iff.mp h
  exact hR.trans _ _ _ (hm _ _ _ hm') (hk a _ _ _ hk')

theorem need (o : Option α) : Emitting R (need o) := fun b _ _ h => by
  obtain ⟨-, rfl⟩ := need_ok_iff.mp h
  exact hR.refl b

omit hR in
/-- What follows a value that may be missing may use that it is there. -/
theorem need_bind {o : Option α} {k : α → Emit β}
    (hk : ∀ a, o = some a → Emitting R (k a)) :
    Emitting R (Asm.need o >>= k) := by
  intro b c b' h
  obtain ⟨a, b₁, hm, hk'⟩ := bind_ok_iff.mp h
  obtain ⟨ho, rfl⟩ := need_ok_iff.mp hm
  exact hk a ho _ _ _ hk'

omit hR in
/-- Reading the builder is no step. What follows may depend on what was read. -/
theorem get_bind {k : Builder → Emit β} (hk : ∀ s, Emitting R (k s)) :
    Emitting R ((MonadState.get : Emit Builder) >>= k) :=
      fun b c b' h => hk b b c b' h

-- The cases in which nothing is emitted at all.
omit hR in
theorem fail (c : Cause) : Emitting R (failWith c : Emit α) := fun _ _ _ h =>
  absurd h failWith_ne_ok

omit hR in
theorem headed {heading : String} {m : Emit α} (hm : Emitting R m) :
    Emitting R (Asm.under heading m) :=
      fun _ _ _ h => hm _ _ _ (under_ok_iff.mp h)

omit hR in
/-- A check, and what follows it. -/
theorem guard {c : Prop} [Decidable c] {e : Cause} {k : PUnit → Emit β}
    (hk : Emitting R (k ())) :
    Emitting R (if c then failWith e >>= k else k ()) := by
  split
  · intro b a b' h
    obtain ⟨u, b₁, hfail, -⟩ := bind_ok_iff.mp h
    exact absurd hfail failWith_ne_ok
  · exact hk

/-- A step that is only made under a condition. -/
theorem when {c : Prop} [Decidable c] {m : Emit Unit} (hm : Emitting R m) :
    Emitting R (if c then m else Pure.pure ()) := by
  split
  · exact hm
  · exact hR.pure ()

/-- A loop emits if its body does, by induction on the list. -/
theorem forM {g : α → Emit PUnit} (as : List α) (hg : ∀ a, Emitting R (g a)) :
    Emitting R (as.forM g) := by
  induction as with
  | nil => exact hR.pure ()
  | cons a as ih => exact hR.bind (hg a) fun _ => ih

theorem mapM {g : α → Emit β} (as : List α) (hg : ∀ a, Emitting R (g a)) :
    Emitting R (as.mapM g) := by
  induction as with
  | nil => exact hR.pure []
  | cons a as ih =>
      rw [List.mapM_cons]
      exact hR.bind (hg a) fun _ => hR.bind ih fun _ => hR.pure _

-- ================================================================= builder

-- The builder's own routines: each emits instructions that refer to names that
-- are taken, or to none.
theorem selected {x : Insn} (hx : x.Selected refs) :
    Emitting R (Builder.emit x) := by
  intro b a b' h
  cases h
  exact hR.emit b x hx

/-- An instruction without a label. -/
theorem literal (op : Opcode) (off0 off1 off2 n : Int32) :
    Emitting R (Builder.emit ⟨op, off0, off1, off2, .literal n, ""⟩) :=
  hR.selected ⟨nofun, fun _ _ h => (Imm.literal.inj h).2.symm, Or.inl rfl⟩

/-- An instruction that names a label. -/
theorem named (op : Opcode) (off0 off1 off2 : Int32)
    {n : String} (hn : refs n) :
    Emitting R (Builder.emit ⟨op, off0, off1, off2, .label n, ""⟩) :=
  hR.selected ⟨fun _ h => Imm.label.inj h ▸ hn, nofun, Or.inl rfl⟩

theorem calls (frame : Int32) {n : String} (hn : refs n) :
    Emitting R (Builder.call frame n) :=
  hR.selected ⟨fun _ h => Imm.label.inj h ▸ hn, nofun,
    Or.inr (Or.inr ⟨n, rfl, rfl⟩)⟩

theorem storesArray (dst : Int32) {n : String} (hn : refs n) :
    Emitting R (Builder.storeImm (.label n) dst "array") :=
  hR.selected ⟨fun _ h => Imm.label.inj h ▸ hn, nofun, Or.inr (Or.inl rfl)⟩

theorem storeLit (n dst : Int32) : Emitting R (Builder.storeLit n dst) :=
  hR.literal _ _ _ _ _

theorem copy (src dst : Int32) : Emitting R (Builder.copy src dst) := by
  unfold Builder.copy
  split
  · exact hR.pure ()
  · exact hR.literal _ _ _ _ _

theorem copyRun (src dst : Int32) (n : Nat) :
    Emitting R (Builder.copyRun src dst n) := by
  induction n generalizing src dst with
  | zero => exact hR.pure ()
  | succ n ih => exact hR.bind (hR.copy src dst) fun _ => ih _ _

theorem move (v : Val) (dst : Int32) : Emitting R (Builder.move v dst) := by
  cases v with
  | const n => exact hR.storeLit n dst
  | slot off => exact hR.copy off dst

-- ================================================================ operands

variable (x : Scope)

-- The scope's routines, in the order in which selection calls them. Nothing in
-- them depends on which relation of builders is meant.
theorem layout (e : Except LayoutError α) : Emitting R (fromLayout e) := by
  cases e with
  | ok a => exact hR.pure a
  | error e => exact fail _

theorem offset (v : ValueId) : Emitting R (Scope.offset v) := by
  unfold Scope.offset
  exact get_bind fun s => need_bind fun l _ => hR.layout (l.offset v)

theorem val (v : Operand) : Emitting R (x.val v) := by
  cases v with
  | value v =>
      show Emitting R (if x.isStatic v = true then failWith (.addressAsValue v)
        else Scope.offset v >>= fun off => Pure.pure (Val.slot off))
      split
      · exact fail _
      · exact hR.bind (hR.offset v) fun _ => hR.pure _
  | int n => exact hR.pure (Val.ofInt n)
  | bool c => exact hR.pure (Val.ofInt (if c then 1 else 0))
  | _ => exact fail _

theorem moveTo (v : Operand) (dst : Int32) (n : Int64) :
    Emitting R (x.moveTo v dst n) := by
  unfold Scope.moveTo
  split
  · exact hR.pure ()
  · split
    · refine hR.bind (hR.val x _) fun s => ?_
      cases s with
      | slot off => exact hR.copyRun _ _ _
      | const n => exact hR.pure ()
    · exact guard (hR.bind (hR.val x v) fun _ => hR.move _ _)

theorem define (d : ValueId) (v : Operand) (n : Int64) :
    Emitting R (x.define d v n) :=
  hR.bind (hR.offset d) fun _ => hR.moveTo x v _ n

theorem aggregate (v : Operand) : Emitting R (x.aggregate v) := by
  unfold Scope.aggregate
  split
  · refine hR.bind (hR.val x _) fun s => ?_
    cases s with
    | slot off => exact hR.pure _
    | const n => exact hR.pure _
  · exact fail _

theorem extract (d : ValueId) (agg : Operand) (off n : Int64) :
    Emitting R (x.extract d agg off n) :=
  hR.bind (hR.aggregate x agg) fun _ =>
    hR.bind (hR.offset d) fun _ => hR.copyRun _ _ _

theorem insert (d : ValueId) (agg : Operand) (size : Int64)
    (v : Operand) (off n : Int64) : Emitting R (x.insert d agg size v off n) :=
  hR.bind (hR.aggregate x agg) fun _ => hR.bind (hR.offset d) fun _ =>
    hR.bind (hR.copyRun _ _ _) fun _ => hR.moveTo x v _ n

-- =================================================================== calls

theorem moveArgs (args : List ((Operand × Ty) × Nat)) (off : Int32) :
    Emitting R (x.moveArgs args off) := by
  induction args generalizing off with
  | nil => exact hR.pure ()
  | cons a args ih => exact hR.bind (headed (hR.moveTo x _ _ _)) fun _ => ih _

theorem copyResults (ds : List (ValueId × Ty)) (off : Int32) :
    Emitting R (Scope.copyResults ds off) := by
  induction ds generalizing off with
  | nil => exact hR.pure ()
  | cons d ds ih =>
      exact hR.bind (hR.offset _) fun _ =>
        hR.bind (hR.copyRun _ _ _) fun _ => ih _

-- ================================================================== memory

theorem memSlots (t : Ty) : Emitting R (Scope.memSlots t) := by
  unfold Scope.memSlots
  split
  · exact hR.pure _
  · exact hR.bind (hR.need _) fun _ => guard (hR.pure _)

theorem loadWords (p dst i : Int32) (n : Nat) :
    Emitting R (Scope.loadWords p dst i n) := by
  induction n generalizing i with
  | zero => exact hR.pure ()
  | succ n ih => exact hR.bind (hR.literal _ _ _ _ _) fun _ => ih _

theorem load (d : ValueId) (t : Ty) (a : Operand) :
    Emitting R (x.load d t a) := by
  unfold Scope.load
  refine hR.bind (hR.offset d) fun dst => hR.bind (hR.memSlots t) fun n => ?_
  split
  · split
    · exact hR.copyRun _ _ _
    · refine hR.bind (hR.val x _) fun s => ?_
      cases s with
      | slot p => exact hR.loadWords _ _ _ _
      | const c => exact hR.pure ()
  · exact fail _

theorem store (a v : Operand) (t : Ty) : Emitting R (x.store a v t) := by
  unfold Scope.store
  refine hR.bind (hR.memSlots _) fun n => ?_
  split
  · split
    · exact hR.moveTo x _ _ _
    · exact fail _
  · exact fail _

-- ============================================================== aggregates

theorem tupleElems (dst : Int32) (ts : List Ty) (es : List (Operand × Nat)) :
    Emitting R (x.tupleElems dst ts es) := by
  induction es with
  | nil => exact hR.pure ()
  | cons e es ih =>
      exact hR.bind (hR.need _) fun _ =>
        hR.bind (headed (hR.moveTo x _ _ _)) fun _ => ih

theorem structFields (dst : Int32) (r : Record) (fs : List (String × Operand)) :
    Emitting R (x.structFields dst r fs) := by
  induction fs with
  | nil => exact hR.pure ()
  | cons a fs ih =>
      obtain ⟨n, v⟩ := a
      unfold Scope.structFields
      split
      · exact fail _
      · exact hR.bind (headed (hR.moveTo x _ _ _)) fun _ => ih

theorem extractTuple (d : ValueId) (v : Operand) (i : Int) :
    Emitting R (x.extractTuple d v i) := by
  unfold Scope.extractTuple
  split
  · split
    · exact fail _
    · exact hR.extract x _ _ _ _
  · exact fail _

theorem insertTuple (d : ValueId) (agg : Operand) (i : Int)
    (v : Operand) (ts : List Ty) : Emitting R (x.insertTuple d agg i v ts) := by
  unfold Scope.insertTuple
  split
  · exact fail _
  · exact hR.insert x _ _ _ _ _ _

theorem extractField (d : ValueId) (v : Operand) (n : String) :
    Emitting R (x.extractField d v n) := by
  unfold Scope.extractField
  split
  · exact fail _
  · split
    · exact fail _
    · exact hR.extract x _ _ _ _

theorem insertField (d : ValueId) (agg : Operand) (n : String)
    (v : Operand) (r : Record) : Emitting R (x.insertField d agg n v r) := by
  unfold Scope.insertField
  split
  · exact fail _
  · exact hR.insert x _ _ _ _ _ _

-- ============================================================= terminators

/-- Jumps refer to the labels of the scope, which have to be among the names. -/
theorem jumpTo (hlabels : ∀ n ∈ x.labels, refs n) (b : BlockId) :
    Emitting R (x.jumpTo b) := by
  unfold Scope.jumpTo
  refine guard (hR.when ?_)
  exact need_bind fun n hn =>
    hR.named _ _ _ _ (hlabels n (List.mem_of_getElem? hn))

theorem branchOn (hlabels : ∀ n ∈ x.labels, refs n)
    (cond : Int32) (t e : BlockId) : Emitting R (x.branchOn cond t e) := by
  unfold Scope.branchOn
  refine guard ?_
  dsimp only
  split
  · exact need_bind fun n hn => hR.bind
      (hR.named _ _ _ _ (hlabels n (List.mem_of_getElem? hn))) fun _ =>
      hR.jumpTo x hlabels e
  · exact hR.jumpTo x hlabels e

theorem branch (hlabels : ∀ n ∈ x.labels, refs n) (v : Val) (t e : BlockId) :
    Emitting R (x.branch v t e) := by
  cases v with
  | slot off => exact hR.branchOn x hlabels _ _ _
  | const n => exact hR.jumpTo x hlabels _

theorem moveReturns (vs : List ((Operand × Ty) × Nat)) (off : Int32) :
    Emitting R (x.moveReturns vs off) := by
  induction vs generalizing off with
  | nil => exact hR.pure ()
  | cons v vs ih => exact hR.bind (headed (hR.moveTo x _ _ _)) fun _ => ih _

end Plain

namespace Roomy

open Plain (get_bind fail guard)

variable (hR : Roomy refs R)
include hR

-- ============================================================= fresh slots

-- What reserves a slot behind the frame needs a relation that allows the layout
-- to grow, so these stand apart from those above.
theorem room (n : Int64) : Emitting R (Builder.reserve n) := by
  intro b a b' h
  obtain ⟨s, b₁, hget, h⟩ := bind_ok_iff.mp h
  cases hget
  obtain ⟨l, b₂, hneed, h⟩ := bind_ok_iff.mp h
  obtain ⟨hl, rfl⟩ := need_ok_iff.mp hneed
  cases h
  exact hR.reserve b l n hl

theorem temp : Emitting R Builder.temp := hR.room 1

theorem toTemp (off : Int32) : Emitting R (Builder.toTemp off) :=
  hR.bind hR.temp fun t => hR.bind (hR.copy off t) fun _ => hR.pure t

/-- A slot that is copied to a fresh one if it is in the way. -/
theorem outOfTheWay {c : Prop} [Decidable c] {off : Int32} {k : Int32 → Emit β}
    (hk : ∀ o, Emitting R (k o)) :
    Emitting R
      (if c then Builder.toTemp off >>= k else Pure.pure off >>= k) := by
  split
  · exact hR.bind (hR.toTemp off) hk
  · exact hR.bind (hR.pure off) hk

theorem arithSlotConst (op : Builder.Arith) (l n dst : Int32) :
    Emitting R (Builder.arithSlotConst op l n dst) := by
  unfold Builder.arithSlotConst
  exact guard (hR.outOfTheWay fun _ => hR.literal _ _ _ _ _)

theorem arithSlots (op : Builder.Arith) (l r dst : Int32) :
    Emitting R (Builder.arithSlots op l r dst) := by
  unfold Builder.arithSlots
  exact hR.outOfTheWay fun _ => hR.outOfTheWay fun _ => hR.literal _ _ _ _ _

theorem arith (op : Builder.Arith) (l r : Val) (dst : Int32) :
    Emitting R (Builder.arith op l r dst) := by
  unfold Builder.arith
  split
  · split
    · exact fail _
    · exact hR.storeLit _ _
  · split
    · exact hR.arithSlotConst _ _ _ _
    · exact hR.bind hR.temp fun _ => hR.bind (hR.storeLit _ _) fun _ =>
        hR.arithSlots _ _ _ _
  · exact hR.arithSlotConst _ _ _ _
  · exact hR.arithSlots _ _ _ _

-- =================================================================== calls

variable (x : Scope)

/-- Arguments go to slots behind the frame that are reserved for the call. -/
theorem passArgs (args : List Operand) (ds : List ValueId) (ps rs : List Ty) :
    Emitting R (x.passArgs args ds ps rs) := by
  refine get_bind fun s => hR.bind (hR.need _) fun l => ?_
  dsimp only
  split
  · exact hR.bind (hR.room _) fun _ => hR.pure _
  · split
    · exact hR.pure _
    · exact hR.bind (hR.room _) fun _ =>
        hR.bind (hR.moveArgs x _ _) fun _ => hR.pure _

/-- A call refers to a function of the module by its name. -/
theorem call (hcalls : ∀ g ∈ x.module.functions, refs g.name)
    (ds : List ValueId) (callee : FuncId) (args : List Operand) :
    Emitting R (x.call ds callee args) := by
  unfold Scope.call
  split
  · exact fail _
  · rename_i g hg
    have hmem : g ∈ x.module.functions := by
      cases callee with
      | ofNat i => exact List.mem_of_getElem? hg
      | negSucc i => cases hg
    exact guard (guard (hR.bind (hR.passArgs x _ _ _ _) fun _ =>
      hR.bind (hR.calls _ (hcalls g hmem)) fun _ => hR.copyResults _ _))

/-- Where any number of fresh slots is allowed, they are where code is emitted
along with them. -/
theorem closed {m : Module} (hcalls : ∀ g ∈ m.functions, refs g.name)
    (hnormalize : ∀ x dst invert, Emitting R (Builder.normalize x dst invert))
    (hanyNonzero : ∀ xs dst, Emitting R (Builder.anyNonzero xs dst))
    (hmakeArray : ∀ d es t, Emitting R (Scope.makeArray d es t)) :
    Closed m refs R where
  toPlain := hR.toPlain
  arith := hR.arith
  difference _ _ := hR.bind hR.temp fun _ =>
    hR.bind (hR.arith _ _ _ _) fun _ => hR.pure _
  normalize := hnormalize
  anyNonzero := hanyNonzero
  makeArray := hmakeArray
  call x ds callee args hx := hR.call x (hx ▸ hcalls) ds callee args

end Roomy

namespace Labelling

open Plain (fail guard need_bind)

variable (hR : Labelling R)
include hR

-- ================================================== pieces with own labels

/-- Normalizing a truth value takes labels of its own, so that from here on the
relation has to allow labels to be placed. -/
theorem normalize (x dst : Int32) (invert : Bool) :
    Emitting R (Builder.normalize x dst invert) := by
  refine hR.bind (hR.newLabel _ (by decide)) fun nonzero =>
    hR.bind (hR.newLabel _ (by decide)) fun done => ?_
  refine hR.bind (hR.named _ _ _ _ trivial) fun _ =>
    hR.bind (hR.storeLit _ _) fun _ => ?_
  refine hR.bind (hR.named _ _ _ _ trivial) fun _ =>
    hR.bind (hR.label _) fun _ => ?_
  exact hR.bind (hR.storeLit _ _) fun _ => hR.label _

/-- The slots that are looked at may have to be copied out of the way before. -/
theorem anyNonzero {xs : List Int32} {dst : Int32} (haside : Emitting R
      (xs.mapM fun x => if x = dst then Builder.toTemp x else Pure.pure x)) :
    Emitting R (Builder.anyNonzero xs dst) := by
  refine hR.bind haside fun ys =>
    hR.bind (hR.newLabel _ (by decide)) fun yes => ?_
  refine hR.bind (hR.newLabel _ (by decide)) fun done =>
    hR.bind (hR.storeLit _ _) fun _ => ?_
  refine hR.bind (hR.forM ys fun y => hR.named _ _ _ _ trivial) fun _ => ?_
  refine hR.bind (hR.named _ _ _ _ trivial) fun _ =>
    hR.bind (hR.label _) fun _ => ?_
  exact hR.bind (hR.storeLit _ _) fun _ => hR.label _

/-- An array's words go to the data, under a label of their own. -/
theorem arrayWords (es : List (Operand × Nat)) :
    Emitting R (Scope.arrayWords es) := by
  induction es with
  | nil => exact hR.pure _
  | cons e es ih =>
      obtain ⟨e, i⟩ := e
      rw [Scope.arrayWords]
      split
      · exact fail _
      · exact hR.bind ih fun _ => hR.pure _

theorem makeArray (d : ValueId) (es : List Operand) (t : Ty) :
    Emitting R (Scope.makeArray d es t) := by
  have hstored : Emitting R (Scope.arrayWords es.zipIdx >>= fun words =>
      Scope.offset d >>= fun dst => Builder.newLabel "data" >>= fun name =>
        Builder.dataLabel name >>= fun _ => Builder.pushData words >>= fun _ =>
          Builder.storeImm (.label name) dst "array") := by
    refine hR.bind (hR.arrayWords _) fun words =>
      hR.bind (hR.offset d) fun dst => ?_
    refine hR.bind (hR.newLabel _ (by decide)) fun name =>
      hR.bind (hR.dataLabel _) fun _ => ?_
    exact hR.bind (hR.pushData _) fun _ => hR.storesArray _ trivial
  rw [Scope.makeArray]
  split
  · exact need_bind fun n _ => guard hstored
  · exact hstored

/-- Where fresh slots are allowed as well, so is all that selection does. -/
theorem closed (hroom : Roomy (fun _ => True) R) (m : Module) :
    Closed m (fun _ => True) R := by
  refine hroom.closed (fun _ _ => trivial) hR.normalize
    (fun xs dst => ?_) hR.makeArray
  refine hR.anyNonzero (hR.mapM xs fun x => ?_)
  split
  · exact hroom.toTemp x
  · exact hR.pure x

end Labelling

namespace Closed

open Plain (fail guard headed get_bind need_bind)

variable {m : Module} (hR : Closed m refs R)
include hR

variable (x : Scope)

-- =============================================================== operators

theorem unary (op : UnaryOp) (d : ValueId) (v : Operand) :
    Emitting R (x.unary op d v) := by
  refine hR.bind (hR.offset d) fun dst => hR.bind (hR.val x v) fun s => ?_
  cases op with
  | neg => exact hR.arith _ _ _ _
  | not =>
      cases s with
      | const n => exact hR.storeLit _ _
      | slot off => exact hR.normalize _ _ _
  | unassigned n => exact fail _

theorem equality (equal : Bool) (l r : Val) (dst : Int32) :
    Emitting R (Scope.equality equal l r dst) := by
  unfold Scope.equality
  split
  · exact hR.storeLit _ _
  · exact hR.bind (hR.arith _ _ _ _) fun _ => hR.normalize _ _ _
  · exact hR.bind (hR.arith _ _ _ _) fun _ => hR.normalize _ _ _

theorem conjunction (l r : Val) (dst : Int32) :
    Emitting R (Scope.conjunction l r dst) := by
  have hone (n off : Int32) : Emitting R (if n = 0 then Builder.storeLit 0 dst
      else Builder.normalize off dst false) := by
    split
    · exact hR.storeLit _ _
    · exact hR.normalize _ _ _
  unfold Scope.conjunction
  split
  · exact hR.storeLit _ _
  · exact hone _ _
  · exact hone _ _
  · exact hR.bind (hR.arith _ _ _ _) fun _ => hR.normalize _ _ _

theorem disjunction (l r : Val) (dst : Int32) :
    Emitting R (Scope.disjunction l r dst) := by
  unfold Scope.disjunction
  split
  · exact hR.storeLit _ _
  · split
    · exact hR.storeLit _ _
    · exact hR.anyNonzero _ _

/-- Each operator goes to the routine for its kind. -/
theorem binary (op : BinaryOp) (d : ValueId) (l r : Operand) :
    Emitting R (x.binary op d l r) := by
  unfold Scope.binary
  refine guard (hR.bind (hR.offset d) fun dst =>
    hR.bind (headed (hR.val x l)) fun a =>
      hR.bind (headed (hR.val x r)) fun b => ?_)
  split
  · exact hR.arith _ _ _ _
  · exact hR.arith _ _ _ _
  · exact hR.arith _ _ _ _
  · exact hR.arith _ _ _ _
  · exact hR.equality _ _ _ _
  · exact hR.equality _ _ _ _
  · exact hR.conjunction _ _ _
  · exact hR.disjunction _ _ _
  · exact fail _

theorem elementPtr (d : ValueId) (base off : Operand) :
    Emitting R (x.elementPtr d base off) := by
  unfold Scope.elementPtr
  exact guard (hR.bind (hR.offset d) fun _ =>
    hR.bind (hR.val x base) fun _ =>
      hR.bind (hR.val x off) fun _ => hR.arith _ _ _ _)

-- ============================================================ instructions

/-- An instruction emits by one of the routines above, whichever it is. -/
theorem code (hx : x.module = m) (i : Instr) : Emitting R (x.code i) := by
  cases i with
  | missing => exact fun _ _ _ h => by cases h
  | assign d v t => exact hR.define x _ _ _
  | unary op d v => exact hR.unary x _ _ _
  | binary op d l r => exact hR.binary x _ _ _ _
  | call ds callee args t => exact hR.call x _ _ _ hx
  | load d t a => exact hR.load x _ _ _
  | store a v t => exact hR.store x _ _ _
  | elementPtr d b o => exact hR.elementPtr x _ _ _
  | cast d v a b =>
      show Emitting R (if a.slots ≠ b.slots then failWith (.cast a b)
        else x.define d v b.slots)
      split
      · exact fail _
      · exact hR.define x _ _ _
  | frameAlloc d t => exact fail _
  | addressOf d v => exact fail _
  | debug m vs => exact hR.pure ()
  | nop => exact hR.pure ()
  | phi d t ss => exact fail _
  | makeTuple d es ts => exact hR.bind (hR.offset _) fun _ => hR.tupleElems x _ _ _
  | extractTuple d v i t => exact hR.extractTuple x _ _ _
  | insertTuple d agg i v ts => exact hR.insertTuple x _ _ _ _ _
  | makeStruct d fs r =>
      exact hR.bind (hR.offset _) fun _ => hR.structFields x _ _ _
  | extractField d v n t => exact hR.extractField x _ _ _
  | insertField d agg n v r => exact hR.insertField x _ _ _ _ _
  | makeArray d es t => exact hR.makeArray _ _ _

/-- The code of an instruction keeps to the relation. -/
theorem instr (hx : x.module = m) (i : Instr) : Emitting R (x.instr i) := by
  unfold Scope.instr
  split
  · exact hR.pure ()
  · exact hR.code x hx i

-- ============================================================= terminators

/-- The difference of two operands in a fresh slot, and a branch on it. -/
theorem branchOnDifference (hlabels : ∀ n ∈ x.labels, refs n)
    (l r : Val) (t e : BlockId) :
    Emitting R (Builder.temp >>= fun diff => Builder.sub l r diff >>= fun _ =>
      x.branchOn diff t e) := by
  intro b u b' h
  obtain ⟨diff, b₁, h₁, h⟩ := bind_ok_iff.mp h
  obtain ⟨_, b₂, h₂, h⟩ := bind_ok_iff.mp h
  exact hR.trans _ _ _
    (hR.difference l r b diff b₂
    ((bind_of_ok h₁).trans ((bind_of_ok h₂).trans rfl)))
    (hR.branchOn x hlabels _ _ _ _ _ _ h)

/-- A branch on two values refers to the labels of both its targets. -/
theorem branchNeq (hlabels : ∀ n ∈ x.labels, refs n)
    (l r : Val) (t e : BlockId) : Emitting R (x.branchNeq l r t e) := by
  unfold Scope.branchNeq
  split
  · exact hR.branch x hlabels _ _ _
  · exact hR.branchOnDifference x hlabels _ _ _ _
  · exact hR.branchOnDifference x hlabels _ _ _ _

/-- The code of a terminator keeps to the relation. -/
theorem term (hlabels : ∀ n ∈ x.labels, refs n) (t : Option Terminator) :
    Emitting R (x.term t) := by
  unfold Scope.term
  split
  · exact fail _
  · exact hR.jumpTo x hlabels _
  · exact hR.bind (hR.val x _) fun _ => hR.branch x hlabels _ _ _
  · refine guard (hR.bind (hR.val x _) fun _ =>
      hR.bind (hR.val x _) fun _ => ?_)
    split
    · exact hR.branchNeq x hlabels _ _ _ _
    · exact hR.branchNeq x hlabels _ _ _ _
  · exact guard (get_bind fun _ => need_bind fun _ _ =>
      hR.bind (hR.moveReturns x _ _) fun _ => hR.literal _ _ _ _ _)
  · exact hR.pure ()

/-- The instructions of a block keep to the relation. -/
theorem instrs (hx : x.module = m) (is : List (Instr × Nat)) :
    Emitting R
      (is.forM fun (i, j) => Asm.under ("instr " ++ toString j) (x.instr i)) :=
  hR.forM is fun i => headed (hR.instr x hx i.1)

omit x in
/-- Two relations at once. -/
theorem and {R' : Builder → Builder → Prop} (hR' : Closed m refs R') :
    Closed m refs fun b b' => R b b' ∧ R' b b' where
  refl b := ⟨hR.refl b, hR'.refl b⟩
  trans b c d h h' := ⟨hR.trans b c d h.1 h'.1, hR'.trans b c d h.2 h'.2⟩
  emit b i hi := ⟨hR.emit b i hi, hR'.emit b i hi⟩
  arith op l r dst b u b' h :=
    ⟨hR.arith op l r dst b u b' h, hR'.arith op l r dst b u b' h⟩
  difference l r b u b' h :=
    ⟨hR.difference l r b u b' h, hR'.difference l r b u b' h⟩
  normalize y dst invert b u b' h :=
    ⟨hR.normalize y dst invert b u b' h, hR'.normalize y dst invert b u b' h⟩
  anyNonzero ys dst b u b' h :=
    ⟨hR.anyNonzero ys dst b u b' h, hR'.anyNonzero ys dst b u b' h⟩
  makeArray d es t b u b' h :=
    ⟨hR.makeArray d es t b u b' h, hR'.makeArray d es t b u b' h⟩
  call x ds callee args hx b u b' h :=
    ⟨hR.call x ds callee args hx b u b' h,
    hR'.call x ds callee args hx b u b' h⟩

end Closed

end MirBackend.Asm
