/-
Where the code of blocks stands.

Blocks are emitted one after the other, each behind its label, and each knows
which comes next. So the builder before a block (`Starts`) says where its label
stands, and what is emitted for a block ends where the next one begins. This is
what the code that leaves a block relies on (`Scope.Joins`).

`Scope.Remains` tells the code of a block as the run of a block needs it: one
instruction after the other, then the terminator, with something known of the
builder before each of them. That the frame is in a stage is known because every
instruction takes it from one to the next (`Starts.coded`). What lies between
the first builder and the last is known without that (`Starts.coded_between`).
-/
import Mathlib
import MirBackend.Proofs.Asm.Control
import MirBackend.Proofs.Asm.Linking

namespace MirBackend.Asm

open Interp (bind_ok_iff)

variable {code : List Insn} {base : Nat} {t : Link.Table} {L : Layout} {n : Nat}
  {b b' b₁ B : Builder} {x : Scope} {u u' : Unit} {pos : BlockId → Nat}
  {is : List Instr} {tm : Option Terminator} {ids : List BlockId}
  {start : BlockId → Builder}

-- ================================================================ one block

/-- What is emitted for the rest of a block: its instructions one after the
other, then its terminator, with something known of the builder before each of
them and behind the last. -/
inductive Scope.Remains (x : Scope) (P : Builder → Prop)
    (pos : BlockId → Nat) (B : Builder) (tm : Option Terminator) : List Instr →
    Builder → Prop where
  | term {b b' : Builder} (known : P b) (emits : x.term tm b = .ok () b')
      (joins : x.Joins pos b' B) (behind : P b') : Remains x P pos B tm [] b
  | instr {b b' : Builder} {i : Instr} {is : List Instr} (known : P b)
      (emits : x.instr i b = .ok () b') (rest : Remains x P pos B tm is b') :
      Remains x P pos B tm (i :: is) b

/-- The frame is in some stage on its way from how it was laid out. -/
def Staged (L : Layout) (b : Builder) : Prop := ∃ n, Stage L 0 n b

section

variable {P : Builder → Prop}

/-- Something is known of the builder before what remains. -/
theorem Scope.Remains.known (h : x.Remains P pos B tm is b) : P b := by
  cases h with
  | term known _ _ _ => exact known
  | instr known _ _ => exact known

/-- Half way through a block, what was emitted is part of the whole. -/
theorem Scope.Remains.whole (h : x.Remains P pos B tm is b) : Extends b B := by
  have hR := Extends.closed x.module
  induction h with
  | term _ emits joins _ =>
    exact (hR.term x (fun _ _ => trivial) _ _ _ _ emits).trans joins.whole
  | instr _ emits _ ih => exact (hR.instr x rfl _ _ _ _ emits).trans ih

/-- For every instruction there is what was emitted for it. -/
theorem Scope.Remains.emitted (h : x.Remains P pos B tm is b)
    {i : Instr} (hi : i ∈ is) :
    ∃ b₀ b₁, P b₀ ∧ x.instr i b₀ = .ok () b₁ ∧ Extends b₁ B := by
  induction h with
  | term => cases hi
  | instr known emits rest ih =>
      rcases List.mem_cons.mp hi with rfl | hi
      · exact ⟨_, _, known, emits, rest.whole⟩
      · exact ih hi

end

/-- A terminator leaves the frame in a stage. -/
theorem term_stage (hx : x.Laid L) (hS : Stage L 0 n b)
    (hst : Standing code base t B) (hj : x.Joins pos b' B)
    (hfits : ∀ tm', tm = some tm' → tm'.Fits x.func)
    (h : x.term tm b = .ok u b') : ∃ n', Stage L 0 n' b' := by
  cases tm with
  | none => exact absurd h failWith_ne_ok
  | some tm =>
      by_cases hret : ∃ vs, tm = .ret vs
      · obtain ⟨vs, rfl⟩ := hret
        exact ⟨n,
          (term_returns hx hS (hst.of_extends hj.whole) (hfits _ rfl) h).1⟩
      · obtain ⟨n', -, hS'⟩ := (term_goes hx hS hst hj (hfits _ rfl)
          (fun vs hvs => hret ⟨vs, hvs⟩) h).stage
        exact ⟨n', hS'⟩

/-- Instructions and a terminator that were emitted remain, as they should. -/
theorem rest_remains (hx : x.Laid L) (hst : Standing code base t B)
    (hj : x.Joins pos b' B) (hfits : ∀ i ∈ is, i.FitsFrame x.func)
    (hterm : ∀ tm', tm = some tm' → tm'.Fits x.func)
    (hS : Stage L 0 n b) {k : Nat}
    (h : ((is.zipIdx k).forM fun (i, j) =>
      under ("instr " ++ toString j) (x.instr i)) b = .ok u b₁)
    (h' : x.term tm b₁ = .ok u' b') : x.Remains (Staged L) pos B tm is b
      ∧ Staged L b' := by
  have hR := Extends.closed x.module
  induction is generalizing b k n with
  | nil =>
      cases h
      have hS' := term_stage hx hS hst hj hterm h'
      exact ⟨.term ⟨n, hS⟩ h' hj hS', hS'⟩
  | cons i is ih =>
      obtain ⟨_, b₂, h₂, h⟩ := bind_ok_iff.mp h
      have h₂ : x.instr i b = .ok () b₂ := under_ok_iff.mp h₂
      have hext : Extends b₂ B := ((hR.instrs x rfl _ _ _ _ h).trans
        (hR.term x (fun _ _ => trivial) _ _ _ _ h')).trans hj.whole
      obtain ⟨n₂, -, hS₂⟩ :=
        instr_stage hx (hfits i List.mem_cons_self) hS (hst.of_extends hext) h₂
      obtain ⟨hrest, hS'⟩ :=
        ih (fun i hi => hfits i (List.mem_cons_of_mem _ hi)) hS₂ h
      exact ⟨.instr ⟨n, hS⟩ h₂ hrest, hS'⟩

open Interp in
/-- At the end of a block control goes where the interpreter goes. -/
theorem term_leads (hx : x.Laid L) (hS : Stage L 0 n b)
    (hst : Standing code base t B) (hj : x.Joins pos b' B)
    (h : x.term tm b = .ok u b')
    (hfits : ∀ tm', tm = some tm' → tm'.Fits x.func)
    {fr : Frame} {σ : FrameSlots} (hfr : x.Mirrors L fr σ) {k : BlockId}
    (hnext : nextOf fr tm = some (.block k)) :
    x.func.hasBlock k = true ∧ ∃ σ', Leads code base b.code.length σ (pos k) σ'
      ∧ ∀ off : Int32, off.toInt < n ∨ b'.top ≤ off.toInt → σ' off = σ off := by
  cases tm with
  | none => cases hnext
  | some tm =>
      have hret (vs : List Operand) : tm ≠ .ret vs := by
        rintro rfl
        obtain ⟨ys, -, hys⟩ := Option.map_eq_some_iff.mp hnext
        cases hys
      exact (term_goes hx hS hst hj (hfits _ rfl) hret h).run σ
        k ⟨fr, hfr, hnext⟩

open Interp in
/-- What returns is a return, and it returns what its operands are. -/
theorem returned_of_nextOf {fr : Frame} {vs : List Interp.Value}
    (h : nextOf fr tm = some (.ret vs)) :
    ∃ os, tm = some (.ret os) ∧ os.mapM (look fr) = some vs := by
  have hblock {α : Type} {o : Option α} {k : α → BlockId}
      (h : (o.map fun a => Next.block (k a)) = some (.ret vs)) : False := by
    obtain ⟨a, -, ha⟩ := Option.map_eq_some_iff.mp h
    cases ha
  match tm with
  | some (.ret os) =>
      obtain ⟨ys, hys, hvs⟩ := Option.map_eq_some_iff.mp h
      cases hvs
      exact ⟨os, rfl, hys⟩
  | some (.jump k) => cases h
  | some (.branch c k e) => exact (hblock h).elim
  | some (.branchCmp op l r k e) => exact (hblock h).elim
  | some .unreachable => cases h
  | none => cases h

open Interp in
/-- At a return the values are moved to the results. -/
theorem term_delivers (hx : x.Laid L) (hS : Stage L 0 n b)
    (hst : Standing code base t B) (hj : x.Joins pos b' B)
    (h : x.term tm b = .ok u b')
    (hfits : ∀ tm', tm = some tm' → tm'.Fits x.func)
    {fr : Frame} {σ : FrameSlots} (hfr : x.Mirrors L fr σ)
    {vs : List Interp.Value} (hnext : nextOf fr tm = some (.ret vs)) :
    ∃ e σ', B.code[e]? = some { opcode := .ret }
      ∧ (vs.flatMap (·.slots)).length = Ty.widthOfList x.func.returns
      ∧ Leads code base b.code.length σ e σ'
      ∧ Puts n b'.top (Int32.ofInt (Layout.resultsAt x.func))
      (vs.flatMap (·.slots)) σ σ' := by
  obtain ⟨os, rfl, hys⟩ := returned_of_nextOf hnext
  obtain ⟨-, e, he, hrun⟩ :=
    term_returns hx hS (hst.of_extends hj.whole) (hfits _ rfl) h
  obtain ⟨hlen, σ', hleads, hputs⟩ := hrun σ fr vs hfr hys
  exact ⟨e, σ', hj.whole.getElem? he, hlen, hleads, hputs⟩

-- =============================================================== all blocks

/-- The builder before each block of a list: its code is emitted there, and
where it ends, the next block begins. What `R` says of a builder and another
that it grew to, it says from the first block to each of them and from each of
them to the end. -/
def Starts (x : Scope) (R : Builder → Builder → Prop) (ids : List BlockId)
    (start : BlockId → Builder) (b B : Builder) : Prop :=
  ∀ before id rest, ids = before ++ id :: rest →
    ∃ blk name b', x.func.block? id = some blk
    ∧ x.labels[id.toNat]? = some name ∧ R b (start id)
    ∧ Generator.block { x with next := rest.headD noBlock } blk name (start id)
    = .ok () b'
    ∧ R b' B ∧ ∀ k, rest.head? = some k → start k = b'

section

variable {R : Builder → Builder → Prop} (hR : Closed x.module (fun _ => True) R)
  (hlabel : ∀ name, Emitting R (Builder.label name))
include hR hlabel

/-- What selection and labels keep to, blocks keep to. -/
theorem Closed.block (blk : Block) (name : String) :
    Emitting R (Generator.block x blk name) :=
  hR.bind (hlabel name) fun _ => hR.bind (hR.instrs x rfl _) fun _ =>
    Plain.headed (hR.term x (fun _ _ => trivial) _)

/-- The blocks of a function emit one after the other, by induction on the list
of blocks. -/
theorem Closed.blocks (ids : List BlockId) :
    Emitting R (Generator.blocks x ids) := by
  induction ids with
  | nil => exact hR.pure ()
  | cons id ids ih =>
      refine Plain.need_bind fun blk _ => Plain.need_bind fun name _ =>
        hR.bind ?_ fun _ => ih
      exact Plain.headed
        (Closed.block (x := { x with next := ids.headD noBlock })
        hR hlabel blk name)

/-- Blocks that were emitted, each once, have their beginnings. -/
theorem blocks_start (hnd : ids.Nodup)
    (h : Generator.blocks x ids b = .ok u B) :
    ∃ start, (∀ k, ids.head? = some k → start k = b)
        ∧ Starts x R ids start b B := by
  induction ids generalizing b with
  | nil =>
      cases h
      refine ⟨fun _ => B, fun _ _ => rfl, fun before id rest hsplit => ?_⟩
      simp at hsplit
  | cons id ids ih =>
      rw [List.nodup_cons] at hnd
      obtain ⟨blk, b₁, h₁, h⟩ := bind_ok_iff.mp h
      obtain ⟨hblk, rfl⟩ := need_ok_iff.mp h₁
      obtain ⟨name, b₂, h₂, h⟩ := bind_ok_iff.mp h
      obtain ⟨hname, rfl⟩ := need_ok_iff.mp h₂
      obtain ⟨_, b₃, h₃, h⟩ := bind_ok_iff.mp h
      have h₃ := under_ok_iff.mp h₃
      have hhere : R b b₃ :=
        Closed.block (x := { x with next := ids.headD noBlock }) hR hlabel
        blk name _ _ _ h₃
      obtain ⟨start, hfirst, hstart⟩ := ih hnd.2 h
      have hother {k : BlockId} (hk : k ∈ ids) :
          Function.update start id b k = start k :=
        Function.update_of_ne (by rintro rfl; exact hnd.1 hk) _ _
      refine ⟨Function.update start id b, ?_, ?_⟩
      · rintro k hk
        cases hk
        exact Function.update_self _ _ _
      · rintro before c rest hsplit
        cases before with
        | nil =>
            cases hsplit
            refine ⟨blk, name, b₃, hblk, hname, ?_, ?_,
              Closed.blocks hR hlabel ids _ _ _ h, fun k hk => ?_⟩
            · rw [Function.update_self]
              exact hR.refl b
            · rw [Function.update_self]
              exact h₃
            · rw [hother (List.mem_of_head? hk), hfirst k hk]
        | cons c₀ before =>
            rw [List.cons_append, List.cons.injEq] at hsplit
            obtain ⟨rfl, hsplit⟩ := hsplit
            obtain ⟨blk', name', b', hblk', hname', hbefore, hemits,
                hbehind, hnext⟩ :=
              hstart before c rest hsplit
            refine ⟨blk', name', b', hblk', hname', ?_, ?_,
              hbehind, fun k hk => ?_⟩
            · rw [hother (by rw [hsplit]; simp)]
              exact hR.trans _ _ _ hhere hbefore
            · rw [hother (by rw [hsplit]; simp)]
              exact hemits
            · rw [hother (by rw [hsplit]; simp [List.mem_of_head? hk]),
                hnext k hk]

end

/-- What is emitted for some blocks stands before what is emitted for the rest.
-/
theorem blocks_extends (h : Generator.blocks x ids b = .ok u B) : Extends b B :=
  (Extends.closed x.module).blocks Extends.emitting_label ids _ _ _ h

section

variable {R : Builder → Builder → Prop} (hext : ∀ b b', R b b' → Extends b b')
include hext

/-- The labels of blocks stand where the blocks begin. -/
theorem Starts.joins (hs : Starts x R ids start b B)
    (hall : ∀ k, x.func.hasBlock k = true → k ∈ ids)
    {before rest : List BlockId} {id : BlockId}
    (hsplit : ids = before ++ id :: rest) (hwhole : Extends b' B)
    (hnext : ∀ k, rest.head? = some k → start k = b') :
    Scope.Joins { x with next := rest.headD noBlock }
      (fun k => (start k).code.length) b' B := by
  refine ⟨hwhole, fun k name hk hname => ?_, fun hk => ?_⟩
  · obtain ⟨before', rest', hsplit'⟩ := List.append_of_mem (hall k hk)
    obtain ⟨blk, name', b₁, -, hname', -, hemits, hbehind, -⟩ :=
      hs before' k rest' hsplit'
    have hname : x.labels[k.toNat]? = some name := hname
    rw [hname, Option.some.injEq] at hname'
    subst hname'
    obtain ⟨_, b₂, h₂, hemits⟩ := bind_ok_iff.mp hemits
    obtain ⟨_, b₃, h₃, hemits⟩ := bind_ok_iff.mp hemits
    have hR := Extends.closed x.module
    have hinstrs :=
      hR.instrs { x with next := rest'.headD noBlock } rfl _ _ _ _ h₃
    have hext₂ : Extends b₂ B := (hinstrs.trans
      (hR.term _ (fun _ _ => trivial) _ _ _ _ (under_ok_iff.mp hemits))).trans
      (hext _ _ hbehind)
    refine hext₂.labels.subset ?_
    cases h₂
    exact List.mem_append_right _ List.mem_cons_self
  · cases rest with
    | nil => cases hk
    | cons k rest => exact congrArg (fun b => b.code.length) (hnext k rfl)

end

/-- The code of every block stands at its position. -/
def Scope.Coded (x : Scope) (P : Builder → Prop) (pos : BlockId → Nat)
    (B : Builder) : Prop :=
  ∀ id blk, x.func.block? id = some blk → ∃ next b, b.code.length = pos id
    ∧ Scope.Remains { x with next } P pos B blk.term blk.instrs b

section

variable {R : Builder → Builder → Prop} {P : Builder → Prop}
  (hR : Closed x.module (fun _ => True) R) (hP : ∀ c, R b c → R c B → P c)
include hR hP

/-- What is known of every builder between the first and the last is known
within a block. -/
theorem remains_between {c c₁ c' : Builder} {k : Nat}
    (h : ((is.zipIdx k).forM fun (i, j) =>
      under ("instr " ++ toString j) (x.instr i)) c = .ok u c₁)
    (h' : x.term tm c₁ = .ok u' c') (hbefore : R b c) (hbehind : R c' B)
    (hj : x.Joins pos c' B) : x.Remains P pos B tm is c := by
  induction is generalizing c k with
  | nil =>
      cases h
      have hterm := hR.term x (fun _ _ => trivial) _ _ _ _ h'
      exact .term (hP _ hbefore (hR.trans _ _ _ hterm hbehind)) h' hj
        (hP _ (hR.trans _ _ _ hbefore hterm) hbehind)
  | cons i is ih =>
      obtain ⟨_, c₂, h₂, h⟩ := bind_ok_iff.mp h
      have h₂ : x.instr i c = .ok () c₂ := under_ok_iff.mp h₂
      have hinstr : R c c₂ := hR.instr x rfl _ _ _ _ h₂
      have hrest : R c₂ B :=
        hR.trans _ _ _ (hR.trans _ _ _ (hR.instrs x rfl _ _ _ _ h)
        (hR.term x (fun _ _ => trivial) _ _ _ _ h')) hbehind
      exact .instr (hP _ hbefore (hR.trans _ _ _ hinstr hrest)) h₂
        (ih h (hR.trans _ _ _ hbefore hinstr))

/-- What is known of every builder between the first and the last is known
within all blocks. -/
theorem Starts.coded_between (hs : Starts x R ids start b B)
    (hlabel : ∀ name, Emitting R (Builder.label name))
    (hext : ∀ b b', R b b' → Extends b b')
    (hall : ∀ k, x.func.hasBlock k = true → k ∈ ids) :
    x.Coded P (fun k => (start k).code.length) B := by
  intro id blk hblk
  obtain ⟨before, rest, hsplit⟩ :=
    List.append_of_mem (hall id (Func.hasBlock_of_block? hblk))
  obtain ⟨blk', name, b', hblk', -, hbefore, hemits, hbehind, hnext⟩ :=
    hs before id rest hsplit
  rw [hblk, Option.some.injEq] at hblk'
  subst hblk'
  have hj := hs.joins hext hall hsplit (hext _ _ hbehind) hnext
  obtain ⟨_, b₁, hhead, hbody⟩ := bind_ok_iff.mp hemits
  obtain ⟨_, b₂, hinstrs, hlast⟩ := bind_ok_iff.mp hbody
  have hcode : b₁.code = (start id).code := by
    cases hhead
    rfl
  exact ⟨_, b₁, by rw [hcode],
    remains_between (x := { x with next := rest.headD noBlock }) hR hP
    hinstrs (under_ok_iff.mp hlast)
      (hR.trans _ _ _ hbefore (hlabel name _ _ _ hhead)) hbehind hj⟩

end

/-- Where each instruction takes the frame from a stage to a stage, it is in one
all the way. -/
theorem Starts.coded (hs : Starts x Extends ids start b B)
    (hall : ∀ k, x.func.hasBlock k = true → k ∈ ids) (hx : x.Laid L)
    (hst : Standing code base t B)
    (hfits : ∀ i, x.func.HasInstr i → i.FitsFrame x.func)
    (hterm : ∀ id blk tm, x.func.block? id = some blk →
      blk.term = some tm → tm.Fits x.func)
    (hS : ∀ k, ids.head? = some k → ∃ n, Stage L 0 n (start k)) :
    x.Coded (Staged L) (fun k => (start k).code.length) B := by
  have hrest (rest : List BlockId) : ∀ before, ids = before ++ rest →
      (∀ k, rest.head? = some k → ∃ n, Stage L 0 n (start k)) →
        ∀ id ∈ rest, ∀ blk,
        x.func.block? id = some blk → ∃ next b,
          b.code.length = (start id).code.length
          ∧ Scope.Remains { x with next } (Staged L)
            (fun k => (start k).code.length) B blk.term
            blk.instrs b := by
    induction rest with
    | nil => simp
    | cons id rest ih =>
        intro before hsplit hS
        obtain ⟨n, hS⟩ := hS id rfl
        obtain ⟨blk, name, b', hblk, -, -, hemits, hext, hnext⟩ :=
          hs before id rest hsplit
        have hj := hs.joins (fun _ _ h => h) hall hsplit hext hnext
        have hx' : Scope.Laid { x with next := rest.headD noBlock } L :=
          ⟨hx.toLaid, hx.address, hx.len⟩
        obtain ⟨_, b₁, hlabel, hbody⟩ := bind_ok_iff.mp hemits
        obtain ⟨_, b₂, hinstrs, hlast⟩ := bind_ok_iff.mp hbody
        have hlayout : b₁.layout = (start id).layout
            ∧ b₁.code = (start id).code := by
          cases hlabel
          exact ⟨rfl, rfl⟩
        obtain ⟨hhere, hS'⟩ := rest_remains hx' hst hj
          (fun i hi => hfits i ⟨id, blk, hblk, hi⟩)
          (fun tm htm => hterm id blk tm hblk htm)
          (hS.keep hlayout.1 (by rw [hlayout.2])) hinstrs
          (under_ok_iff.mp hlast)
        intro k hk blk' hblk'
        rcases List.mem_cons.mp hk with rfl | hk
        · rw [hblk, Option.some.injEq] at hblk'
          subst hblk'
          exact ⟨_, b₁, by rw [hlayout.2], hhere⟩
        · refine ih (before ++ [id]) (by rw [hsplit]; simp)
            (fun c hc => ?_) k hk blk' hblk'
          rw [hnext c hc]
          exact hS'
  intro id blk hblk
  exact hrest ids [] rfl hS id (hall id (Func.hasBlock_of_block? hblk)) blk hblk

end MirBackend.Asm
