/-
How far a frame grows while code is emitted.

A frame grows by slots for operands that are in the way and by room for
arguments and results of calls, and wherever it does, instructions are emitted.
`Grows` keeps the account: each instruction pays for as many slots as a frame
may have, and what was taken beyond that is owed. No instruction and no
terminator owes anything when its code is complete (`Grows.closed`), so the size
of a frame cannot wrap in a program of addressable length. As it is small enough
at the end of a function, it was small enough at every point on the way
(`Grows.framed`).

`Turn` tells where an instruction of a function is emitted on that way.
-/
import Mathlib
import MirBackend.Proofs.Asm.Placement

namespace MirBackend.Asm

open Interp (bind_ok_iff)

variable {α β : Type} {m : Module} {f : Func} {L : Layout}
  {b b' c B : Builder} {x : Scope} {u : Unit} {k owed owed' : Int}

-- ================================================================ accounts

/-- The slots that one instruction pays for. -/
def fare : Int := 16777216

/-- The frame grew, at most by what the instructions that were added pay for and
what is owed. -/
def Grows (owed : Int) (b b' : Builder) : Prop :=
  ∀ l, b.layout = some l → ∃ k : Nat,
    b'.layout = some { l with frameSize := l.frameSize + Int64.ofNat k }
      ∧ (k : Int) ≤ fare * ((b'.code.length : Int) - b.code.length) + owed

/-- Code that takes no fresh slot. -/
theorem Grows.of_layout_eq (hlayout : b'.layout = b.layout) (howed :
    0 ≤ fare * ((b'.code.length : Int) - b.code.length) + owed) :
      Grows owed b b' := by
  intro l hl
  refine ⟨0, ?_, howed⟩
  rw [hlayout, hl]
  simp

/-- What changes neither layout nor code owes nothing. -/
theorem Grows.of_eq (hlayout : b'.layout = b.layout)
    (hlen : b'.code.length = b.code.length) : Grows 0 b b' :=
  .of_layout_eq hlayout (by rw [hlen]; omega)

/-- What two steps owe adds up. -/
theorem Grows.trans (h : Grows owed b c) (h' : Grows owed' c b') :
    Grows (owed + owed') b b' := by
  intro l hl
  obtain ⟨k, hk, hle⟩ := h l hl
  obtain ⟨k', hk', hle'⟩ := h' _ hk
  refine ⟨k + k', ?_, ?_⟩
  · rw [hk', Int64.ofNat_add]
    dsimp only
    rw [Int64.add_assoc]
  · push_cast
    rw [fare] at hle hle' ⊢
    omega

/-- What a step owes is a bound from above. -/
theorem Grows.mono (h : Grows owed b b') (hle : owed ≤ owed') :
    Grows owed' b b' := by
  intro l hl
  obtain ⟨k, hk, hk'⟩ := h l hl
  exact ⟨k, hk, by omega⟩

namespace Grows

theorem mono_emitting {n : Emit α} (h : Emitting (Grows owed) n)
    (hle : owed ≤ owed') :
    Emitting (Grows owed') n := fun _ _ _ hn => (h _ _ _ hn).mono hle

/-- So do two emissions in turn. -/
theorem bind {n : Emit α} {k : α → Emit β} (hn : Emitting (Grows owed) n)
    (hk : ∀ a, Emitting (Grows owed') (k a)) :
    Emitting (Grows (owed + owed')) (n >>= k) := by
  intro b d b' h
  obtain ⟨a, b₁, h₁, h⟩ := bind_ok_iff.mp h
  exact (hn _ _ _ h₁).trans (hk a _ _ _ h)

/-- An instruction pays. -/
theorem emit (i : Insn) : Emitting (Grows (-fare)) (Builder.emit i) := by
  intro b u b' h
  obtain ⟨hcode, -, -, hlayout⟩ := emit_getElem? h
  refine of_layout_eq hlayout ?_
  rw [hcode, List.length_append, List.length_singleton, fare]
  omega

/-- Labels cost nothing. -/
theorem labelling : Labelling (Grows 0) where
  refl b := of_eq rfl rfl
  trans b c d h h' := (h.trans h').mono (by omega)
  emit b i _ := mono_emitting (emit i) (by decide) b () _ rfl
  newLabel stem _ b name b' h := by
    obtain ⟨hcode, -, hlayout⟩ := Extends.newLabel h
    exact of_eq hlayout (by rw [hcode])
  label name b u b' h := by
    cases h
    exact of_eq rfl rfl
  dataLabel name b u b' h := by
    cases h
    exact of_eq rfl rfl
  pushData vs b u b' h := by
    cases h
    exact of_eq rfl rfl

-- ============================================================= fresh slots

/-- Room for some slots is owed for. -/
theorem room {n : Nat} :
    Emitting (Grows n) (Builder.reserve (Int64.ofNat n)) := by
  intro b a b' h
  obtain ⟨s, b₁, hget, h⟩ := bind_ok_iff.mp h
  cases hget
  obtain ⟨l, b₂, hneed, h⟩ := bind_ok_iff.mp h
  obtain ⟨hl, rfl⟩ := need_ok_iff.mp hneed
  cases h
  intro l' hl'
  rw [hl, Option.some.injEq] at hl'
  subst hl'
  refine ⟨n, rfl, ?_⟩
  dsimp only
  omega

-- What each routine of the builder owes. Where the operands of an operation
-- leave it a slot, the fare, it owes one less.
theorem temp : Emitting (Grows 1) Builder.temp := room (n := 1)

theorem toTemp (off : Int32) : Emitting (Grows 1) (Builder.toTemp off) :=
  mono_emitting (bind temp fun t => bind (labelling.copy off t) fun _ =>
    labelling.pure t) le_rfl

/-- A slot that is copied to a fresh one if it is in the way. -/
theorem outOfTheWay {p : Prop} [Decidable p] {off : Int32} {k : Int32 → Emit β}
    (hk : ∀ o, Emitting (Grows owed) (k o)) :
    Emitting (Grows (1 + owed))
      (if p then Builder.toTemp off >>= k else pure off >>= k) := by
  split
  · exact bind (toTemp off) hk
  · exact mono_emitting (bind (labelling.pure off) hk) (by omega)

theorem arithSlotConst (op : Builder.Arith) (l n dst : Int32) :
    Emitting (Grows (1 - fare)) (Builder.arithSlotConst op l n dst) := by
  unfold Builder.arithSlotConst
  exact Plain.guard (outOfTheWay fun _ => emit _)

theorem arithSlots (op : Builder.Arith) (l r dst : Int32) :
    Emitting (Grows (2 - fare)) (Builder.arithSlots op l r dst) := by
  unfold Builder.arithSlots
  exact mono_emitting (outOfTheWay fun _ => outOfTheWay fun _ =>
    emit _) (by decide)

theorem arith (op : Builder.Arith) (l r : Val) (dst : Int32) :
    Emitting (Grows (2 - fare)) (Builder.arith op l r dst) := by
  unfold Builder.arith
  split
  · split
    · exact Plain.fail _
    · exact mono_emitting (emit _) (by decide)
  · split
    · exact mono_emitting (arithSlotConst _ _ _ _) (by decide)
    · exact mono_emitting (bind temp fun _ => bind (emit _) fun _ =>
        arithSlots _ _ _ _) (by decide)
  · exact mono_emitting (arithSlotConst _ _ _ _) (by decide)
  · exact arithSlots _ _ _ _

/-- As many slots may be copied out of the way as there are, and each is jumped
on. -/
theorem anyNonzero (xs : List Int32) (dst : Int32) :
    Emitting (Grows 0) (Builder.anyNonzero xs dst) := by
  have haside (xs : List Int32) : Emitting (Grows xs.length)
      (xs.mapM fun x => if x = dst then Builder.toTemp x else pure x) := by
    induction xs with
    | nil => exact labelling.pure []
    | cons y xs ih =>
        rw [List.mapM_cons]
        have hone : Emitting (Grows 1) (if y = dst then Builder.toTemp y
            else pure y) := by
          split
          · exact toTemp y
          · exact mono_emitting (labelling.pure y) (by decide)
        refine mono_emitting (bind hone fun _ => bind ih fun _ =>
          labelling.pure _) ?_
        rw [List.length_cons]
        push_cast
        omega
  have hjumps (ys : List Int32) (name : String) : Emitting (Grows (-ys.length))
      (ys.forM (Builder.jumpIf · name)) := by
    induction ys with
    | nil => exact labelling.pure ()
    | cons y ys ih =>
        refine mono_emitting (bind (emit _) fun _ => ih) ?_
        rw [List.length_cons, fare]
        push_cast
        omega
  intro b u b' h
  obtain ⟨ys, b₁, h₁, h⟩ := bind_ok_iff.mp h
  have hrest : Emitting (Grows (-ys.length))
    (Builder.newLabel "or" >>= fun yes =>
      Builder.newLabel "end" >>= fun done => Builder.storeLit 0 dst >>= fun _ =>
        ys.forM (Builder.jumpIf · yes) >>= fun _ =>
          Builder.jump done >>= fun _ =>
          Builder.label yes >>= fun _ => Builder.storeLit 1 dst >>= fun _ =>
            Builder.label done) := by
    refine mono_emitting (bind (labelling.newLabel _ (by decide)) fun yes =>
      bind (labelling.newLabel _ (by decide)) fun done =>
        bind (labelling.storeLit _ _) fun _ => bind (hjumps ys yes) fun _ =>
        bind (labelling.named _ _ _ _ trivial) fun _ =>
          bind (labelling.label _) fun _ =>
          bind (labelling.storeLit _ _) fun _ => labelling.label _) (by omega)
  refine ((haside xs _ _ _ h₁).trans (hrest _ _ _ h)).mono ?_
  rw [length_of_mapM h₁]
  omega

-- =================================================================== calls

/-- A call takes room for arguments and results at most. -/
theorem passArgs (args : List Operand) (ds : List ValueId) {ps rs : List Ty}
    (hfit : Ty.widthOfList ps + Ty.widthOfList rs ≤ 16777216) :
    Emitting (Grows fare) (x.passArgs args ds ps rs) := by
  have hroom {n : Nat} (hn : n ≤ 16777216) {k : Int32 → Emit Int32}
      (hk : ∀ o, Emitting (Grows 0) (k o)) :
      Emitting (Grows fare) (Builder.reserve (Int64.ofNat n) >>= k) :=
    mono_emitting (bind room hk) (by rw [fare]; omega)
  rw [Scope.passArgs, Ty.slotsOfList_eq_ofNat, Ty.slotsOfList_eq_ofNat]
  refine Plain.get_bind fun s => Plain.need_bind fun l _ => ?_
  dsimp only
  split
  · exact hroom (by omega) fun _ => labelling.pure _
  · split
    · exact mono_emitting (labelling.pure _) (by decide)
    · rw [← Int64.ofNat_add]
      exact hroom hfit fun _ => mono_emitting
        (bind (labelling.moveArgs x _ _) fun _ => labelling.pure _) le_rfl

/-- The instruction that calls pays for the room. -/
theorem call (hfit : ∀ g ∈ x.module.functions,
      Layout.widthOf g g.params + Ty.widthOfList g.returns ≤ 16777216)
    (ds : List ValueId) (callee : FuncId) (args : List Operand) :
    Emitting (Grows 0) (x.call ds callee args) := by
  unfold Scope.call
  split
  · exact Plain.fail _
  · rename_i g hg
    refine Plain.guard (Plain.guard ?_)
    refine mono_emitting
      (bind (passArgs args ds (hfit g (Module.mem_of_func? hg))) fun _ =>
      bind (emit _) fun _ => labelling.copyResults _ _) (by decide)

/-- What is emitted for an instruction or a terminator pays for the slots that
it takes. -/
theorem closed (hfit : ∀ g ∈ m.functions,
      Layout.widthOf g g.params + Ty.widthOfList g.returns ≤ 16777216) :
    Closed m (fun _ => True) (Grows 0) where
  toPlain := labelling.toPlain
  arith op l r dst := mono_emitting (arith op l r dst) (by decide)
  difference l r := mono_emitting
    (bind temp fun _ => bind (arith _ _ _ _) fun _ =>
    labelling.pure _) (by decide)
  normalize := labelling.normalize
  anyNonzero := anyNonzero
  makeArray := labelling.makeArray
  call x ds callee args hx := call (hx ▸ hfit) ds callee args

-- =============================================================== functions

/-- A frame that is small enough at the end was so before, and never less than
at the start. -/
theorem framed {b₀ : Builder} {last : Layout} (h : Grows 0 b₀ b)
    (h' : Grows 0 b B) (hlayout : b₀.layout = some L)
    (hlow : 0 ≤ L.frameSize.toInt) (hL : L.frameSize.toInt ≤ 16777216)
    (hlast : B.layout = some last) (hfits : last.frameSize.toInt ≤ 16777216)
    (hlen : B.code.length ≤ 2 ^ 30) :
    ∃ n : Nat, b.layout = some { L with frameSize := Int64.ofNat n }
        ∧ L.frameSize.toInt ≤ n
      ∧ n ≤ 16777216 := by
  obtain ⟨k, hk, hpaid⟩ := h L hlayout
  obtain ⟨k', hk', hpaid'⟩ := h' _ hk
  rw [hlast, Option.some.injEq] at hk'
  have hstart : L.frameSize = Int64.ofNat L.frameSize.toInt.toNat := by
    rw [← Int64.toInt_inj, Int64.toInt_ofNat_of_lt (by omega)]
    omega
  refine ⟨L.frameSize.toInt.toNat + k, ?_, by omega, ?_⟩
  · rw [hk, Int64.ofNat_add, ← hstart]
  -- the sum of all that was taken does not wrap
  · rw [hk'] at hfits
    dsimp only at hfits
    rw [hstart, ← Int64.ofNat_add, ← Int64.ofNat_add,
      Int64.toInt_ofNat_of_lt] at hfits
    · omega
    · rw [fare] at hpaid hpaid'
      omega

end Grows

-- =================================================================== turns

/-- The `j`-th instruction of a block is emitted: behind the label of the block
and the instructions before it, and the code of the function goes on behind
it. -/
structure Turn (x : Scope) (B : Builder) (c : BlockId) (j : Nat) (i : Instr)
    (b b' : Builder) : Prop where
  behind : ∃ blk name start, x.func.block? c = some blk
    ∧ blk.instrs[j]? = some i
    ∧ x.labels[c.toNat]? = some name
    ∧ ⟨name, false, start.code.length⟩ ∈ B.labels
    ∧ ((blk.instrs.zipIdx.take j).forM fun (i, j) =>
      under ("instr " ++ toString j) (x.instr i))
      start = .ok () b
  emits : x.instr i b = .ok () b'
  whole : Extends b' B

/-- One step of many. -/
theorem forM_split {g : α → Emit PUnit} {as : List α} {j : Nat} {a : α}
    (ha : as[j]? = some a) (h : as.forM g b = .ok u b') :
    ∃ b₁ b₂, (as.take j).forM g b = .ok () b₁ ∧ g a b₁ = .ok () b₂
      ∧ (as.drop (j + 1)).forM g b₂ = .ok () b' := by
  induction as generalizing j b with
  | nil => simp at ha
  | cons a' as ih =>
      obtain ⟨_, b₁, h₁, hrest⟩ := bind_ok_iff.mp h
      cases j with
      | zero =>
          cases ha
          exact ⟨b, b₁, rfl, h₁, hrest⟩
      | succ j =>
          obtain ⟨b₂, b₃, hbefore, hhere, hbehind⟩ := ih ha hrest
          exact ⟨b₂, b₃, (bind_of_ok h₁).trans hbefore, hhere, hbehind⟩

section

variable {R : Builder → Builder → Prop} {id : BlockId} {ids : List BlockId}
  (hR : Closed x.module (fun _ => True) R)
  (hlabel : ∀ name, Emitting R (Builder.label name))
include hR hlabel

/-- One block of many. -/
theorem blocks_split (hid : id ∈ ids) (h : Generator.blocks x ids b = .ok u B) :
    ∃ blk name next b₁ b₂, x.func.block? id = some blk
        ∧ x.labels[id.toNat]? = some name
      ∧ R b b₁ ∧ Generator.block { x with next } blk name b₁
      = .ok () b₂ ∧ R b₂ B := by
  induction ids generalizing b with
  | nil => cases hid
  | cons id' ids ih =>
      obtain ⟨blk, b₁, h₁, hnamed⟩ := bind_ok_iff.mp h
      obtain ⟨hblk, rfl⟩ := need_ok_iff.mp h₁
      obtain ⟨name, b₂, h₂, hcode⟩ := bind_ok_iff.mp hnamed
      obtain ⟨hname, rfl⟩ := need_ok_iff.mp h₂
      obtain ⟨_, b₃, h₃, hrest⟩ := bind_ok_iff.mp hcode
      have h₃ := under_ok_iff.mp h₃
      rcases List.mem_cons.mp hid with rfl | hid
      · exact ⟨blk, name, _, b, b₃, hblk, hname, hR.refl b, h₃,
          Closed.blocks hR hlabel ids _ _ _ hrest⟩
      · obtain ⟨blk', name', next, b₄, b₅, hblk', hname', hbefore, hhere,
            hbehind⟩ := ih hid hrest
        exact ⟨blk', name', next, b₄, b₅, hblk', hname', hR.trans _ _ _
          (Closed.block (x := { x with next := ids.headD noBlock }) hR hlabel
          blk name _ _ _ h₃)
          hbefore, hhere, hbehind⟩

/-- One instruction of a block. -/
theorem block_turn (hext : ∀ b b', R b b' → Extends b b')
    {blk : Block} {name : String} {b₁ b₂ : Builder} {j : Nat} {i : Instr}
    (hblk : x.func.block? id = some blk)
    (hname : x.labels[id.toNat]? = some name) (hi : blk.instrs[j]? = some i)
    (h : Generator.block x blk name b₁ = .ok u b₂) (hbehind : R b₂ B) :
    ∃ b b', Turn x B id j i b b' ∧ R b₁ b ∧ R b b' ∧ R b' B := by
  obtain ⟨_, start, hstart, hcode⟩ := bind_ok_iff.mp h
  obtain ⟨_, b₃, hinstrs, hterm⟩ := bind_ok_iff.mp hcode
  have hij : blk.instrs.zipIdx[j]? = some (i, j) := by
    rw [List.getElem?_zipIdx, hi, Option.map_some, Nat.zero_add]
  obtain ⟨b, b', htake, hemits, hdrop⟩ := forM_split hij hinstrs
  have hemits : x.instr i b = .ok () b' := under_ok_iff.mp hemits
  have hrest : R b' B :=
    hR.trans _ _ _ (hR.trans _ _ _ (hR.instrs x rfl _ _ _ _ hdrop)
    (hR.term x (fun _ _ => trivial) _ _ _ _ (under_ok_iff.mp hterm))) hbehind
  have hfirst : R start b := hR.instrs x rfl _ _ _ _ htake
  have hinstr : R b b' := hR.instr x rfl i _ _ _ hemits
  refine ⟨b, b', ⟨⟨blk, name, start, hblk, hi, hname, ?_, htake⟩,
    hemits, hext _ _ hrest⟩,
    hR.trans _ _ _ (hlabel name _ _ _ hstart) hfirst, hinstr, hrest⟩
  refine (hext _ _ (hR.trans _ _ _ (hR.trans _ _ _ hfirst hinstr)
    hrest)).labels.subset ?_
  cases hstart
  exact List.mem_append_right _ List.mem_cons_self

end

/-- Every instruction of every block has its turn, and the account of the frame
is kept from the frame that was laid out to the end. -/
theorem Generator.Parts.turn {names : Names} {j : Nat} {i : Instr}
    {blk : Block} {id : BlockId}
    (p : Generator.Parts m f (Generator.emptyBuilder f L names) B)
    (hfit : ∀ g ∈ m.functions,
      Layout.widthOf g g.params + Ty.widthOfList g.returns ≤ 16777216)
    (hblk : f.block? id = some blk) (hi : blk.instrs[j]? = some i) :
    ∃ next b b', Turn { p.scope with next } B id j i b b'
      ∧ Grows 0 (Generator.emptyBuilder f L names) b ∧ Grows 0 b b'
      ∧ Grows 0 b' B := by
  have hR := (Extends.closed m).and (Grows.closed hfit)
  have hlabel (name : String) :=
    fun b u b' (h : Builder.label name b = .ok u b') =>
    And.intro (Extends.emitting_label name b u b' h)
      (Grows.labelling.label name b u b' h)
  have hid := p.order.2 id (Func.hasBlock_of_block? hblk)
  obtain ⟨blk', name, next, b₁, b₂, hblk', hname, hbefore, hhere, hbehind⟩ :=
    blocks_split (x := p.scope) hR hlabel hid p.hblocks
  obtain rfl : blk = blk' := Option.some.inj (hblk.symm.trans hblk')
  obtain ⟨b, b', hturn, hfirst, hinstr, hrest⟩ :=
    block_turn (x := { p.scope with next })
    hR hlabel (fun _ _ h => h.1) hblk hname hi hhere hbehind
  -- labels were taken before, and the name of the function was defined
  obtain ⟨taken, hlabelled⟩ := blockLabels_same rfl p.hlabels
  refine ⟨next, b, b', hturn,
    .mono (.trans (.of_eq ?_ ?_) (hbefore.2.trans hfirst.2)) le_rfl,
    hinstr.2, hrest.2⟩
  · rw [hlabelled]
  · rw [hlabelled]

end MirBackend.Asm
