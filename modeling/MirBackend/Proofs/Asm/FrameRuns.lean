/-
A whole run in both worlds.

What was generated for a function tells all that the steps need: frame and
addresses are laid out as they should be (`Parts.framed`), and the code of every
block stands at its position (`Parts.coded`). Then a run of the interpreter is
followed step by step (`run_leads`): an instruction keeps the agreement, and so
does the way from one block to the next. At the end the returned values are in
the slots of the results, and the code is about to return.

What this takes is that frame addresses have one definition, that values lend
their slots to one address at a time (`AddressLocal`), and that the run keeps to
what it is given (`KeepsHome`). A function that takes no address of a value
lends nothing (`FrameLocal.address`).
-/
import Mathlib
import MirBackend.Proofs.Asm.BlockCode
import MirBackend.Proofs.Asm.FrameSteps
import MirBackend.Proofs.Interp.EdgeSplit

namespace MirBackend.Asm

open Interp
open Generator (derivation)

/-- A function that works on values and on memory of its own frame: everything
has the slots it should have, and addresses of allocations have one definition,
which control passes before every use. -/
structure FrameLocal (f : Func) : Prop where
  instr : ∀ i, f.HasInstr i → i.Fits f
  term : ∀ b blk tm, f.block? b = some blk → blk.term = some tm → tm.Fits f
  param : ∀ p ∈ f.params, (f.typeOf p).slots = 1
  sized : Layout.Sized f
  fixed : Fixed f

/-- A function that works on values and on memory of its own frame, some of
which values lend. -/
structure AddressLocal (f : Func) : Prop where
  instr : ∀ i, f.HasInstr i → i.FitsFrame f
  term : ∀ b blk tm, f.block? b = some blk → blk.term = some tm → tm.Fits f
  param : ∀ p ∈ f.params, (f.typeOf p).slots = 1
  sized : Layout.Sized f
  fixed : Fixed f
  lends : LendsOnce f

/-- What is read at a place of a block: by the instruction there, or by the
terminator. -/
def readAt (blk : Block) (j : Nat) : List ValueId :=
  match blk.instrs[j]? with
  | some i => i.uses
  | none => usesOf blk.term

/-- What is asked of a call that comes to the function: every access keeps to
its place, and a value that has lent its slots is read only while the words at
the address are its own. -/
structure KeepsHome (m : Module) (start : FuncId) (given : List Value)
    (w₀ : Interp.Machine) (k : FuncId) (f : Func) : Prop where
  inside : ∀ cur i is fr w, Visits m start given w₀ k cur (i :: is) fr w →
    InsideHome f fr w.memory i
  current : ∀ cur blk j fr w, f.block? cur = some blk → j ≤ blk.instrs.length →
    Visits m start given w₀ k cur (blk.instrs.drop j) fr w →
      ∀ r v, v ∈ readAt blk j →
      f.HasInstr (.addressOf r v) → Lent f r v cur j → Current fr w.memory r v

/-- A function whose addresses are all of frame cells takes no value's address.
-/
theorem FrameLocal.no_addressOf {f : Func} (hf : FrameLocal f) (d h : ValueId) :
    ¬ f.HasInstr (.addressOf d h) := fun hi => hf.instr _ hi

/-- So its addresses are local in the wider sense. -/
theorem FrameLocal.address {f : Func} (hf : FrameLocal f) : AddressLocal f :=
  ⟨fun i hi => .fits (hf.instr i hi), hf.term, hf.param, hf.sized, hf.fixed,
    .of_none hf.no_addressOf⟩

variable {code : List Insn} {base : Nat} {t : Link.Table} {L : Layout} {n : Nat}
  {b b' B : Builder} {x : Scope} {u : Unit} {σ σ' : FrameSlots}
  {pos : BlockId → Nat} {f : Func} {m : Module} {live : ValueId → Prop}
  {place : ValueId → Nat} {fr : Frame} {mem : Memory}
  {d v : ValueId} {i : Instr}

-- ============================================================== what is known

/-- An address of an allocation has one slot. -/
theorem AddressLocal.slots_eq (hf : AddressLocal f) (h : FrameAddress f v) :
    (f.typeOf v).slots = 1 := by
  induction h with
  | home hhome =>
      obtain ⟨i, hi, hhome⟩ := hhome
      cases hf.instr i hi with
      | fits hfits =>
          cases i <;> cases hhome
          · exact hfits
          · exact hfits.elim
      | addressOf one =>
          cases hhome
          exact one
  | @step i d b off hi hderives _ ih =>
      obtain hfits | _ := hf.instr i hi
      swap
      · cases hderives
      cases i with
      | assign d' o ty =>
          cases o <;> cases hderives
          exact hfits.1.symm.trans ih
      | cast d' o ty ty' =>
          cases o <;> cases hderives
          exact ((hfits.1.trans hfits.2.1).trans hfits.2.2).symm.trans ih
      | elementPtr d' l r =>
          have hd := (dests_of_derivation hderives).1
          cases hd
          exact hfits.1
      | _ => cases hderives

/-- Values that are no known addresses have the slots of their types. -/
theorem len_eq_slots {static : Std.ExtTreeMap ValueId Int32}
    (hL : Layout.Laid f L) (hhome : ∀ d h, Home f d h → d ∈ static) {s : Span}
    (hs : L.spans[v]? = some s) (hv : v ∉ static) :
    s.len = (f.typeOf v).slots := by
  by_cases hp : v ∈ f.params
  · obtain ⟨i, hi, hlast⟩ := Layout.exists_last hp
    rw [hL.param i v hi hlast, Option.some.injEq] at hs
    rw [← hs]
  · obtain ⟨i, hi, hmem, hslots⟩ := hL.traced v s hs hp
    refine Layout.eq_slots_of_destSlots ?_ hslots
    rintro r ty rfl
    obtain rfl := List.mem_singleton.mp hmem
    exact hv (hhome v v ⟨_, hi, rfl⟩)

/-- The scope of a function with local addresses is laid out as its values are.
-/
theorem AddressLocal.laid (hf : AddressLocal x.func) (hL : Layout.Laid x.func L)
    (he : Explained x.func L x.static)
    (hhome : ∀ d h, Home x.func d h → d ∈ x.static) : x.Laid L := by
  refine ⟨hL, fun v hv => ?_, fun v s hs hv => len_eq_slots hL hhome hs hv⟩
  obtain ⟨a, ha⟩ :=
    Option.isSome_iff_exists.mp (Std.ExtTreeMap.mem_iff_isSome_getElem?.mp hv)
  exact hf.slots_eq (he.known v a ha)

/-- A value that is derived from a known address would not have been emitted. -/
theorem instr_base_computed (hx : x.Laid L) (hfits : i.Fits x.func)
    (hS : Stage L 0 n b) (h : x.instr i b = .ok u b') {off : Int32}
    (hderives : derivation i = some (d, v, off)) (hd : d ∉ x.static) :
    v ∉ x.static := by
  rw [Scope.instr, (dests_of_derivation hderives).1, List.any_cons,
    List.any_nil, Bool.or_false,
    Scope.isStatic, if_neg (by rwa [Std.ExtTreeMap.contains_iff_mem])] at h
  have hdefine {o : Operand} {k : Int64} (hk : (x.func.operandType o).slots = k)
      (h : x.define d o k b = .ok u b') (w : ValueId) (ho : o = .value w) :
          w ∉ x.static := by
    obtain ⟨_, b₁, h₁, h⟩ := bind_ok_iff.mp h
    obtain ⟨rfl, -⟩ := offset_ok hS h₁
    exact moveTo_computed hx hS h hk w ho
  cases i with
  | assign d' o ty =>
      cases o <;> cases hderives
      exact hdefine (hfits.1.trans (slots_of_assign hfits).symm) h v rfl
  | cast d' o ty ty' =>
      cases o <;> cases hderives
      have h : (if ty.slots ≠ ty'.slots then failWith (.cast ty ty')
        else x.define d (.value v) ty'.slots) b = .ok u b' := h
      rw [if_neg (not_not.mpr hfits.2.1)] at h
      exact hdefine (hfits.1.trans hfits.2.1) h v rfl
  | elementPtr d' l r =>
      cases l with
      | value v' =>
          obtain ⟨k, -, hderives⟩ := Option.map_eq_some_iff.mp hderives
          cases hderives
          have h : x.elementPtr d (.value v) r b = .ok u b' := h
          rw [Scope.elementPtr] at h
          split at h
          · obtain ⟨_, _, hfail, -⟩ := bind_ok_iff.mp h
            exact absurd hfail failWith_ne_ok
          · rename_i hnot
            exact fun hstatic => hnot
              (Std.ExtTreeMap.contains_iff_mem.mpr hstatic)
      | _ => cases hderives
  | _ => cases hderives

/-- All frame addresses are known: one that is not would have been computed, and
it cannot. -/
theorem AddressLocal.known (hf : AddressLocal x.func) (hx : x.Laid L)
    (hhome : ∀ d h, Home x.func d h → d ∈ x.static)
    (hcoded : x.Coded (Staged L) pos B) (h : FrameAddress x.func v) :
    v ∈ x.static := by
  induction h with
  | home hh => exact hhome _ _ hh
  | @step i d b off hi hderives hbase ih =>
      by_contra hd
      obtain ⟨c, blk, hblk, hmem⟩ := id hi
      obtain ⟨next, b₀, -, hrem⟩ := hcoded c blk hblk
      obtain ⟨b₁, b₂, ⟨n, hS⟩, hemits, -⟩ := hrem.emitted hmem
      obtain hfits | _ := hf.instr i hi
      · exact instr_base_computed (x := { x with next }) (hx.at next) hfits hS
          hemits hderives hd ih
      · cases hderives

/-- And each address it places statically lies within the frame. -/
theorem AddressLocal.framed (hf : AddressLocal x.func) (hx : x.Laid L)
    (he : Explained x.func L x.static)
    (hhome : ∀ d h, Home x.func d h → d ∈ x.static)
    (hcoded : x.Coded (Staged L) pos B) : x.Framed L := by
  refine ⟨hx, hf.fixed, hf.lends,
    fun v => ⟨fun hv => ?_, hf.known hx hhome hcoded⟩, he,
    fun i r h s hi hplace hs => ?_⟩
  · obtain ⟨a, ha⟩ :=
      Option.isSome_iff_exists.mp (Std.ExtTreeMap.mem_iff_isSome_getElem?.mp hv)
    exact he.known v a ha
  · cases i with
    | frameAlloc d ty =>
        cases hplace
        have haddr : FrameAddress x.func r := .home ⟨_, hi, rfl⟩
        obtain ⟨i, hi', hmem, hslots⟩ :=
          hx.traced r s hs (hf.fixed.once r haddr).2
        obtain rfl := hf.fixed.instr_unique haddr hi hi' List.mem_cons_self hmem
        rw [Layout.destSlots] at hslots
        split at hslots
        · cases hslots
        · rwa [Memory.liftChecked_eq_ok, Memory.orFault_eq_ok] at hslots
    | addressOf d v =>
        cases hplace
        have hv : h ∉ x.static := fun hv => by
          obtain ⟨a, ha⟩ := Option.isSome_iff_exists.mp
            (Std.ExtTreeMap.mem_iff_isSome_getElem?.mp hv)
          exact hf.lends.value r h hi (he.known h a ha)
        exact congrArg some (hx.len h s hs hv).symm
    | _ => cases hplace

-- ======================================================= what was generated

/-- Labels are taken for the blocks, and nothing else happens. -/
theorem blockLabels_same {bs : List (Block × Nat)}
    {labels : List String} {names : Names} (hb : b.taken = some names)
    (h : (bs.mapM fun (blk, i) => Generator.blockLabel f blk i :
    Emit (List String)) b
      = .ok labels b') : ∃ taken, b' = { b with taken } := by
  induction bs generalizing b labels names with
  | nil =>
      cases h
      exact ⟨_, rfl⟩
  | cons blk bs ih =>
      obtain ⟨blk, k⟩ := blk
      rw [List.mapM_cons] at h
      obtain ⟨name, b₁, hname, h⟩ := bind_ok_iff.mp h
      obtain ⟨rest, b₂, hrest, h⟩ := bind_ok_iff.mp h
      cases h
      obtain ⟨name', hlabel, -⟩ := Generator.blockLabel_eq f blk k hb
      have hname : Generator.blockLabel f blk k b = .ok name b₁ := hname
      rw [hname] at hlabel
      cases hlabel
      obtain ⟨taken, rfl⟩ := ih rfl hrest
      exact ⟨taken, rfl⟩

/-- What selection knows about a function that was generated. -/
def Generator.Parts.scope (p : Generator.Parts m f b b') : Scope :=
  { module := m, func := f, static := p.static, labels := p.labels }

/-- The addresses that are known are those of homes and those derived from
them. -/
theorem Generator.Parts.explained {names : Names}
    (p : Generator.Parts m f (Generator.emptyBuilder f L names) B) :
    Explained f L p.static ∧ ∀ d h, Home f d h → d ∈ p.static := by
  have hstatic := p.hstatic
  rw [← Option.some.inj p.hlayout] at hstatic
  refine staticAddresses_explained (fun i => ?_) hstatic
  simp only [List.mem_flatMap,
    Func.mem_blocks_iff (Generator.blocks_eq_map p.hbs)]
  exact ⟨fun ⟨blk, ⟨c, hc⟩, hi⟩ => ⟨c, blk, hc, hi⟩,
    fun ⟨c, blk, hc, hi⟩ => ⟨blk, ⟨c, hc⟩, hi⟩⟩

/-- Every block is emitted, and none twice. -/
theorem Generator.Parts.order (p : Generator.Parts m f b B) :
    (Generator.blockOrder f).Nodup ∧ ∀ k, f.hasBlock k = true →
    k ∈ Generator.blockOrder f := by
  obtain ⟨blk, hentry⟩ := (Generator.blocks_emits (fun _ _ => trivial)
    (fun _ _ => trivial) p.hblocks).2 f.entry List.mem_cons_self
  have hperm := Generator.blockOrder_perm (Func.hasBlock_of_block? hentry)
  refine ⟨?_, fun k hk => ?_⟩
  · rw [hperm.nodup_iff]
    exact List.nodup_range.map fun i j hij => Int.ofNat.inj hij
  · obtain ⟨i, rfl, hi⟩ := Func.hasBlock_iff.mp hk
    exact hperm.mem_iff.mpr (List.mem_map_of_mem (List.mem_range.mpr hi))

/-- The blocks have their beginnings, the entry where nothing has been emitted
yet. -/
theorem Generator.Parts.starts {names : Names} {R : Builder → Builder → Prop}
    (hR : Closed m (fun _ => True) R)
    (hlabel : ∀ name, Emitting R (Builder.label name))
    (p : Generator.Parts m f (Generator.emptyBuilder f L names) B) :
    ∃ start b₀, Starts p.scope R (Generator.blockOrder f) start b₀ B
        ∧ start f.entry = b₀
      ∧ b₀.code = [] ∧ b₀.layout = some L := by
  obtain ⟨start, hfirst, hstarts⟩ :=
    blocks_start (x := p.scope) hR hlabel p.order.1 p.hblocks
  obtain ⟨taken, hlabelled⟩ := blockLabels_same rfl p.hlabels
  refine ⟨start, _, hstarts, hfirst f.entry rfl, ?_, ?_⟩
    <;> rw [hlabelled] <;> rfl

/-- A function is laid out as it should be, and its code stands block by block,
the entry first. -/
theorem Generator.Parts.spec {names : Names} (hf : AddressLocal f)
    (hcompute : Layout.compute f = .ok L)
    (p : Generator.Parts m f (Generator.emptyBuilder f L names) B)
    (hst : Standing code base t B) :
    p.scope.Framed L ∧ ∃ pos, p.scope.Coded
      (Staged L) pos B ∧ pos f.entry = 0 := by
  have hlaid := Layout.compute_laid hf.sized hcompute
  obtain ⟨he, hhome⟩ := p.explained
  have hx : p.scope.Laid L := AddressLocal.laid hf hlaid he hhome
  obtain ⟨start, b₀, hstarts, hfirst, hempty, hlayout⟩ :=
    p.starts (Extends.closed _) Extends.emitting_label
  have hcoded := hstarts.coded p.order.2 hx hst hf.instr hf.term (fun k hk => by
    cases hk
    exact ⟨_, Stage.here (hfirst ▸ hlayout) hlaid.nonneg hlaid.fits⟩)
  refine ⟨AddressLocal.framed hf hx he hhome hcoded, _, hcoded, ?_⟩
  rw [hfirst, hempty]
  rfl

-- ================================================================= the run

/-- What changes no slot below the top of the frame keeps the agreement. -/
theorem Agrees.keep (h : Agrees x L live place fr mem σ) (hx : x.Framed L)
    (hn : L.frameSize.toInt ≤ n)
    (hsame : ∀ off : Int32, off.toInt < n → σ' off = σ off) :
    Agrees x L live place fr mem σ' := by
  refine { h with
    values := fun w z hw hz => ?_, room :=
      fun r u s hr hlr hs => ?_, link := ?_ }
  · obtain ⟨s, hs, hlen, hshows⟩ := h.values w z hw hz
    exact ⟨s, hs, hlen, fun hfree =>
      (hshows hfree).keep fun i hi =>
      hsame _ (hx.laid.slot_lt hn hs (by omega))⟩
  · exact (h.room r u s hr hlr hs).keep fun i hi =>
      hsame _ (hx.laid.slot_lt hn hs hi)
  · rw [hsame (-1) (by show (-1 : Int) < n; omega),
      hsame (-2) (by show (-2 : Int) < n; omega)]
    exact h.link

/-- What comes next in the code does not matter. -/
theorem Scope.Framed.at (hx : x.Framed L) (next : BlockId) :
    Scope.Framed { x with next } L :=
  ⟨hx.laid.at next, hx.fixed, hx.lends, hx.known, hx.explained, hx.room⟩

/-- What memory and frame agree on does not depend on which block is next. -/
theorem Agrees.at (h : Agrees x L live place fr mem σ) (next : BlockId) :
    Agrees { x with next } L live place fr mem σ :=
  ⟨h.values, h.address, h.room, h.whole, h.single, h.apart, h.fresh, h.pos,
  h.bounded, h.link⟩

/-- The code comes to a return with these slots in the results, and the link as
it was. -/
def Delivers (code : List Insn) (base : Nat) (f : Func) (B : Builder)
    (j : Nat) (σ : FrameSlots) (xs : Slots) : Prop :=
  ∃ e σ', B.code[e]? = some { opcode := .ret } ∧ Leads code base j σ e σ'
    ∧ xs.length = Ty.widthOfList f.returns
    ∧ Shows σ' (Int32.ofInt (Layout.resultsAt f)) xs
    ∧ σ' (-1) = some (.ofWord stopPc) ∧ σ' (-2) = some (.ofWord 0)

/-- A run to a point that delivers the results delivers them. -/
theorem Delivers.of_leads {j k : Nat} {xs : Slots}
    (h : Leads code base j σ k σ') (h' : Delivers code base f B k σ' xs) :
    Delivers code base f B j σ xs := by
  obtain ⟨e, σ'', he, hleads, hrest⟩ := h'
  exact ⟨e, σ'', he, h.trans hleads, hrest⟩

/-- What the terminator reads is in its slots. -/
theorem KeepsHome.mirrors_term {start k : FuncId} {given : List Value}
    {w₀ w : Interp.Machine} (hkeeps : KeepsHome m start given w₀ k x.func)
    (hx : x.Framed L) {cur : BlockId} {blk : Block}
    (hb : x.func.block? cur = some blk)
    (hv : Visits m start given w₀ k cur [] fr w)
    (hlive : LiveAt x.func live cur blk.instrs.length)
    (hA : Agrees x L live place fr w.memory σ) :
    x.Mirrors L (only fr (usesOf blk.term)) σ := by
  refine hA.mirrors_only hx fun r v huse hi hlr => ?_
  refine hkeeps.current cur blk _ fr w hb le_rfl
    (by rwa [List.drop_length]) r v ?_ hi
    (hlive.lent r v hi hlr)
  rwa [readAt, List.getElem?_eq_none le_rfl]

/-- Where control goes is read off what the terminator reads. -/
theorem nextOf_only (fr : Frame) (tm : Option Terminator) :
    nextOf (only fr (usesOf tm)) tm = nextOf fr tm := by
  cases tm with
  | none => rfl
  | some tm => exact (nextOf_congr (agree_only fr tm.operands)).symm

/-- The code of a block does what the interpreter does from there on. -/
theorem run_leads {start k : FuncId} {given : List Value} {w₀ : Interp.Machine}
    (hf : AddressLocal x.func) (hx : x.Framed L)
    (hcoded : x.Coded (Staged L) pos B) (hst : Standing code base t B)
    (hk : m.func? k = some x.func)
    (hkeeps : KeepsHome m start given w₀ k x.func) {cur : BlockId}
    {is : List Instr} {w w' : Interp.Machine} {N : Nat} {vs : List Value}
    (h : Returns m .none k cur is fr w N vs w')
    (hv : Visits m start given w₀ k cur is fr w) {blk : Block} {j : Nat}
    {next : BlockId} (hb : x.func.block? cur = some blk)
    (hreach : x.func.Reachable cur) (his : blk.instrs.drop j = is)
    (hj : j ≤ blk.instrs.length)
    (hrem : Scope.Remains { x with next } (Staged L) pos B blk.term is b)
    (hlive : LiveAt x.func live cur j)
    (hA : Agrees x L live place fr w.memory σ) :
    Delivers code base x.func B b.code.length σ (vs.flatMap (·.slots)) := by
  have hterm (c : BlockId) (blk : Block) (hb :
      x.func.block? c = some blk) (tm : Terminator)
      (htm : blk.term = some tm) : tm.Fits x.func := hf.term c blk tm hb htm
  have hend {is : List Instr} (his : is = []) {blk : Block} {j : Nat}
      (hdrop : blk.instrs.drop j = is) (hj : j ≤ blk.instrs.length) :
          j = blk.instrs.length :=
    le_antisymm hj (List.drop_eq_nil_iff.mp (hdrop.trans his))
  -- the function has no calls, so the run stays in it
  induction h generalizing blk j next b place live σ with
  -- one instruction, by the step lemma, and then the rest of the block
  | @instr k f₀ cur i is fr fr₁ w w₁ w' N vs func run rest ih =>
      rw [hk, Option.some.injEq] at func
      subst func
      have hi : blk.instrs[j]? = some i := by
        rw [← List.head?_drop, his, List.head?_cons]
      cases hrem with
      | instr known emits hrest =>
          obtain ⟨n, stage⟩ := known
          have hcurrent (r v : ValueId) (huse : v ∈ i.uses)
              (hr : x.func.HasInstr (.addressOf r v))
              (hlent : Lent x.func r v cur j) : Current fr w.memory r v :=
            hkeeps.current cur blk j fr w hb hj (his ▸ hv) r v
              (by rwa [readAt, hi]) hr hlent
          obtain ⟨live', place', σ', hleads, hA', hlive'⟩ :=
            instr_keeps (hx.at next)
            (hf.instr i ⟨cur, blk, hb, List.mem_of_getElem? hi⟩)
            hb hreach hi stage
            (hst.of_extends hrest.whole) emits (hkeeps.inside cur i is fr w hv)
            hlive hcurrent run
            (hA.at next)
          have hdrop : blk.instrs.drop (j + 1) = is := by
            rw [← List.drop_drop, his, List.drop_one, List.tail_cons]
          exact .of_leads hleads (ih hk hkeeps (hv.instr hk run) hb hreach hdrop
            (List.getElem?_eq_some_iff.mp hi).1 hrest hlive' (hA'.at x.next))
  -- a function with local addresses calls nothing
  | @call k c g gb cur ds as sig is fr w w₁ w' xs rs vs ps n₁ n₂ callee args
      count entry phis body
      results rest ihbody ihrest =>
      have hi : x.func.HasInstr (.call ds c as sig) :=
        ⟨cur, blk, hb, List.mem_of_mem_drop (his ▸ List.mem_cons_self)⟩
      obtain hfits | _ := hf.instr _ hi
      exact hfits.elim
  -- the block ends in a jump: the code of the next one begins where it leads,
  -- and there are no phis to be set
  | @jump k f₀ cur nxt b₀ nb fr w w' ps N vs func block keeps term there
    target phis rest ih =>
      rw [hk, Option.some.injEq] at func
      subst func
      rw [hb, Option.some.injEq] at block
      subst block
      obtain rfl := hend rfl his hj
      cases hrem with
      | term known emits joins =>
          obtain ⟨n, stage⟩ := known
          obtain ⟨hhere, σ', hleads, hsame⟩ :=
            term_leads (hx.at next).laid stage hst joins emits
            (hterm cur blk hb) (hkeeps.mirrors_term hx hb hv hlive hA)
            ((nextOf_only fr blk.term).trans term)
          have hedge : x.func.HasEdge cur nxt :=
            ⟨blk, hb, mem_targets_of_nextOf term⟩
          have hphi : ∀ i ∈ nb.instrs, i.isPhi = false := fun i hi =>
            (hf.instr i ⟨nxt, nb, target, hi⟩).not_phi
          have hv' := hv.jump hk hb term target phis
          rw [Func.leadingPhis_eq_nil hphi] at phis
          cases phis
          rw [Func.body_eq_instrs hphi] at rest ih hv'
          obtain ⟨next', b', hpos, hrem'⟩ := hcoded nxt nb target
          have hA' : Agrees x L live place fr w.memory σ' :=
            hA.keep hx stage.low fun off hoff => hsame off (.inl hoff)
          rw [← hpos] at hleads
          exact .of_leads hleads
            (ih hk hkeeps hv' target (hreach.step hedge hhere) List.drop_zero
            (Nat.zero_le _) hrem' (hlive.edge hb hedge hhere) hA')
  -- the block returns: the results are at their place, and the saved registers
  -- are as they were on entry
  | @ret k f₀ cur b₀ fr w vs func block term =>
      rw [hk, Option.some.injEq] at func
      subst func
      rw [hb, Option.some.injEq] at block
      subst block
      obtain rfl := hend rfl his hj
      cases hrem with
      | term known emits joins =>
          obtain ⟨n, stage⟩ := known
          obtain ⟨e, σ', he, hlen, hleads, hputs⟩ :=
            term_delivers (hx.at next).laid stage hst joins
            emits (hterm cur blk hb) (hkeeps.mirrors_term hx hb hv hlive hA)
            ((nextOf_only fr blk.term).trans term)
          have hlen : (vs.flatMap (·.slots)).length
              = Ty.widthOfList x.func.returns := hlen
          have hputs :
              Puts n _ (Int32.ofInt (Layout.resultsAt x.func)) _ σ σ' := hputs
          have hlink (off : Int32) (hoff : off.toInt = -1 ∨ off.toInt = -2) :
              σ' off = σ off := by
            refine hputs.other off (.inl (by omega)) fun i hi heq => ?_
            rw [heq, hx.laid.result_place (hlen ▸ hi.le),
              Layout.resultsAt] at hoff
            omega
          refine ⟨e, σ', he, hleads, hlen, hputs.here, ?_⟩
          rw [hlink (-1) (Or.inl rfl), hlink (-2) (Or.inr rfl)]
          exact hA.link
  -- a block without a terminator has no code
  | @leave k f₀ cur b₀ fr w func block term =>
      rw [hk, Option.some.injEq] at func
      subst func
      rw [hb, Option.some.injEq] at block
      subst block
      obtain rfl := hend rfl his hj
      cases hrem with
      | term known emits joins =>
          obtain ⟨n, stage⟩ := known
          obtain ⟨hhere, -⟩ := term_leads (hx.at next).laid stage hst joins
            emits (hterm cur blk hb)
            (hkeeps.mirrors_term hx hb hv hlive hA)
            ((nextOf_only fr blk.term).trans term)
          cases hhere

end MirBackend.Asm
