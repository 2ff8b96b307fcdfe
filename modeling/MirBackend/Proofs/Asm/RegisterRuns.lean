/-
A run of a typed module in both worlds.

What the interpreter does from a point in a block on, the code does from there
on (`run_finishes`). The induction is on the run of the interpreter, which ends,
and it goes through calls: the run of a callee is part of that of its caller. So
a call of a function of a typed module answers what the interpreter answers,
unless the addresses come round in its frames, and that takes the interpreter at
least 254 steps (`generate_preserves_register_answers`).
-/
import Mathlib
import MirBackend.Proofs.Asm.RegisterCalls

namespace MirBackend.Asm

open Interp

variable {m : Module} {f : Func} {p : Program} {code : List Insn}
  {base : Nat} {t : Link.Table} {x : Scope} {L : Layout} {b B : Builder}
  {pos : BlockId → Nat} {fr : Frame} {first : Int32}

/-- The code of every function of a module stands in a program. -/
def CompiledAll (m : Module) (code : List Insn) (t : Link.Table) : Prop :=
  ∀ f ∈ m.functions, ∃ x L B base pos, x.func = f
    ∧ Compiled m code t x L B base pos

namespace Compiled

/-- A terminator of a typed function has its types. -/
theorem fits (hc : Compiled m code t x L B base pos)
    {cur : BlockId} {blk : Block} (hb : x.func.block? cur = some blk) :
    ∀ tm, blk.term = some tm → tm.Fits x.func :=
  fun tm htm => (hc.typed.term cur blk tm hb htm).fits

/-- A block of a typed function begins with no phi. -/
theorem no_phis (hc : Compiled m code t x L B base pos)
    {prev cur : BlockId} {blk : Block} (hb : x.func.block? cur = some blk)
    {ps : List (ValueId × Value)}
    (phis : phiLooks fr prev blk.leadingPhis = some ps) :
    ps = [] ∧ blk.body = blk.instrs := by
  have hphi : ∀ i ∈ blk.instrs, i.isPhi = false := fun i hi =>
    (hc.typed.instr i ⟨cur, blk, hb, hi⟩).not_phi
  rw [Func.leadingPhis_eq_nil hphi] at phis
  exact ⟨(Option.some.inj phis).symm, Func.body_eq_instrs hphi⟩

/-- The code of a function begins with that of its first block. -/
theorem entry_remains (hc : Compiled m code t x L B base pos) {blk : Block}
    (hb : x.func.block? x.func.entry = some blk) :
    ∃ next b, base + b.code.length = base
      ∧ Scope.Remains { x with next }
      (Grown L) pos B blk.term blk.instrs b := by
  obtain ⟨next, b, hpos, hrem⟩ := hc.coded _ blk hb
  exact ⟨next, b, by rw [hpos, hc.entry, Nat.add_zero], hrem⟩

/-- What is returned has the declared types. -/
theorem widths (hc : Compiled m code t x L B base pos) {os : List Operand}
    (hos : List.Forall₂ (fun v t => v.Suits x.func t) os x.func.returns)
    {σ : FrameSlots} (hfr : x.Mirrors L fr σ) {vs : List Value}
    (hvs : os.mapM (look fr) = some vs) :
    List.Forall₂ (fun ty (v : Value) => v.slots.length = ty.width)
        x.func.returns vs := by
  have htypes : (os.zip x.func.returns).map (·.2) = x.func.returns :=
    List.map_snd_zip hos.length_eq.ge
  have hvalues : (os.zip x.func.returns).map (·.1) = os :=
    List.map_fst_zip hos.length_eq.le
  have hsig := hc.laid.signature
  have hstands : List.Forall₂ (fun p z => Stands L σ p.1 z
      ∧ z.length = p.2.width)
      (os.zip x.func.returns) (vs.map (·.slots)) :=
    hfr.stand_all hc.laid (fun p hp => (Operand.Suits.zip hos p hp).slots)
      (fun _ _ v _ => hc.plain v) (by rw [htypes]; omega) (by rw [hvalues, hvs])
  have hwidths := hstands.imp fun p z h => h.2
  rw [List.forall₂_map_right_iff] at hwidths
  rw [← htypes, List.forall₂_map_left_iff]
  exact hwidths

/-- A call in a typed function has its code. -/
theorem call_code (hc : Compiled m code t x L B base pos) {k : FuncId}
    {ds : List ValueId} {args : List Operand} {sig : Signature} {g : Func}
    (hg : m.func? k = some g)
    (htyped : (Instr.call ds k args sig).Typed m x.func)
    {next : BlockId} {b' : Builder} (known : Grown L b)
    (emits : Scope.instr { x with next } (.call ds k args sig) b = .ok () b')
    (known' : Grown L b') (whole : Extends b' B)
    (hsig : Layout.widthOf g g.params + Ty.widthOfList g.returns ≤ 16777216)
    {entry : Int32} (hentry : t.addresses[g.name]? = some entry) :
    ∃ start F q, CallCode code base entry
      { x with next } L g ds args b b' start F q := by
  obtain ⟨n, hl, hlow, hn⟩ := known
  obtain ⟨n', hl', -, hn'⟩ := known'
  have hmodule := hc.module
  have hcode : Scope.call { x with next } ds k args b = .ok () b' := by
    rw [Scope.instr, if_neg] at emits
    · exact emits
    · simp [Scope.isStatic, hc.plain]
  refine Asm.call_code (x := { x with next }) hc.laid.toLaid
    hc.laid.len hl hlow hn
    (hmodule.symm ▸ hg) hsig (htyped.callSuits hg) (fun d _ => hc.plain d)
    (hc.standing.of_extends whole) hentry hcode fun l hl => ?_
  rw [hl', Option.some.injEq] at hl
  rw [← hl]
  show (Int64.ofNat n').toInt ≤ 16777216
  rw [Int64.toInt_ofNat_of_lt (by omega)]
  omega

/-- An instruction that is not a call is done in the frame. -/
theorem instr_goes (hc : Compiled m code t x L B base pos) {next : BlockId}
    {term : Option Terminator} {i : Instr} {is : List Instr}
    (hrem : Scope.Remains { x with next } (Grown L) pos B term (i :: is) b)
    (hi : x.func.HasInstr i) {fr₁ : Frame} {w w₁ : Interp.Machine}
    (run : exec ⟨[]⟩ refuse x.func fr i w = .ok fr₁ w₁) {s : Machine}
    (hpc : s.pc = Int32.ofNat (base + b.code.length)) {a : Nat}
    (hfp : s.Above first a) (hfr : x.Mirrors L fr s.slot?) :
    ∃ s₁ b₁, Machine.Goes code s s₁ ∧ s₁.pc = Int32.ofNat
      (base + b₁.code.length)
      ∧ s.Stays a s₁ ∧ x.Mirrors L fr₁ s₁.slot?
      ∧ Scope.Remains { x with next } (Grown L) pos B term is b₁ := by
  have hreach : reach = 16777218 := rfl
  cases hrem with
  | instr known emits hrest =>
      obtain ⟨n, hlow, hx, hS⟩ := known.stage (hc.laid.at next)
      obtain ⟨σ', hleads, hfr', hkept⟩ :=
        instr_follows (x := { x with next }) hx hc.plain hS
        (hc.standing.of_extends hrest.whole)
        (hc.module ▸ hc.typed) hi emits run hfr
      obtain ⟨s₁, hgo, hpc₁, hfp₁, rfl⟩ := hleads s hpc rfl
      have htop := hrest.known.top_le
      have hroom := hfp.room
      refine ⟨s₁, _, hgo, hpc₁,
        ⟨hfp₁, fun z hlow hneg => hkept _ ?_⟩, hfr', hrest⟩
      have hplace := toInt_slot (z := z) (by omega) (by omega)
      omega

/-- A terminator that goes on to a block leads there. -/
theorem jump_goes (hc : Compiled m code t x L B base pos)
    {cur nxt next : BlockId} {blk nb : Block}
    (hb : x.func.block? cur = some blk)
    (hrem : Scope.Remains { x with next } (Grown L) pos B blk.term [] b)
    (term : nextOf fr blk.term = some (.block nxt))
    (target : x.func.block? nxt = some nb) {s : Machine}
    (hpc : s.pc = Int32.ofNat (base + b.code.length)) {a : Nat}
    (hfp : s.Above first a) (hfr : x.Mirrors L fr s.slot?) :
    ∃ s₁ next₁ b₁, Machine.Goes code s s₁ ∧ s₁.pc = Int32.ofNat
      (base + b₁.code.length)
      ∧ s.Stays a s₁ ∧ x.Mirrors L fr s₁.slot?
      ∧ Scope.Remains { x with next := next₁ }
      (Grown L) pos B nb.term nb.instrs b₁ := by
  have hreach : reach = 16777218 := rfl
  cases hrem with
  | term known emits joins behind =>
      obtain ⟨n, hlow, hx, hS⟩ := known.stage (hc.laid.at next)
      obtain ⟨-, σ', hleads, hsame⟩ := term_leads hx hS hc.standing joins emits
        (hc.fits hb) hfr term
      obtain ⟨s₁, hgo, hpc₁, hfp₁, rfl⟩ := hleads s hpc rfl
      obtain ⟨next₁, b₁, hpos, hrem₁⟩ := hc.coded nxt nb target
      have htop := behind.top_le
      have hroom := hfp.room
      refine ⟨s₁, next₁, b₁, hgo, hpos ▸ hpc₁,
        ⟨hfp₁, fun z hlowz hneg => hsame _ ?_⟩,
        hfr.below hc.laid fun off hoff => hsame off (by omega), hrem₁⟩
      have hplace := toInt_slot (z := z) (by omega) (by omega)
      omega

/-- A terminator that returns puts the results in their slots. -/
theorem ret_finishes (hc : Compiled m code t x L B base pos)
    {cur next : BlockId} {blk : Block} (hb : x.func.block? cur = some blk)
    (hrem : Scope.Remains { x with next } (Grown L) pos B blk.term [] b)
    {vs : List Value} (term : nextOf fr blk.term = some (.ret vs)) {s : Machine}
    (hpc : s.pc = Int32.ofNat (base + b.code.length)) {a : Nat}
    (hfp : s.Above first a) (hfr : x.Mirrors L fr s.slot?) {N : Nat} :
    Finishes code first x B base vs a N s := by
  have hreach : reach = 16777218 := rfl
  cases hrem with
  | term known emits joins behind =>
      obtain ⟨n, hlow, hx, hS⟩ := known.stage (hc.laid.at next)
      obtain ⟨e, σ', he, hlen, hleads, hputs⟩ :=
        term_delivers hx hS hc.standing joins emits
        (hc.fits hb) hfr term
      obtain ⟨s₁, hgo, hpc₁, hfp₁, rfl⟩ := hleads s hpc rfl
      obtain ⟨os, htm, hos⟩ := returned_of_nextOf term
      have htop := behind.top_le
      have hroom := hfp.room
      refine Or.inr ⟨s₁, hgo, ⟨e, he, hpc₁⟩, hfp₁,
        hc.widths (hc.typed.term cur blk _ hb htm) hfr hos, hputs.here,
        fun z hlowz hneg hz => ?_⟩
      have hplace := toInt_slot (z := z) (by omega) (by omega)
      refine hputs.other _ (by omega) fun i hi heq => ?_
      have hlen : (vs.flatMap (·.slots)).length
          = Ty.widthOfList x.func.returns := hlen
      have hresult := hc.laid.result_place (i := i) (by omega)
      have heq : Int32.ofInt z = Int32.ofInt (Layout.resultsAt x.func)
          + Int32.ofNat i := heq
      rw [← heq, Layout.resultsAt] at hresult
      rw [Layout.resultsAt] at hz
      omega

/-- No terminator leaves the function without a return. -/
theorem not_leaves (hc : Compiled m code t x L B base pos)
    {cur next : BlockId} {blk : Block} (hb : x.func.block? cur = some blk)
    (hrem : Scope.Remains { x with next } (Grown L) pos B blk.term [] b)
    {σ : FrameSlots} (hfr : x.Mirrors L fr σ) :
    nextOf fr blk.term ≠ some (.block noBlock) := by
  intro term
  cases hrem with
  | term known emits joins =>
      obtain ⟨n, hlow, hx, hS⟩ := known.stage (hc.laid.at next)
      obtain ⟨hhere, -⟩ :=
        term_leads hx hS hc.standing joins emits (hc.fits hb) hfr term
      cases hhere

end Compiled

/-- The code does what the interpreter does from a point in a block on. -/
theorem run_finishes (hall : CompiledAll m code t) {k : FuncId}
    {cur : BlockId} {is : List Instr} {w w' : Interp.Machine}
    {N : Nat} {vs : List Value} (h : Returns m .none k cur is fr w N vs w')
    (hc : Compiled m code t x L B base pos) (hk : m.func? k = some x.func)
    {blk : Block} {next : BlockId} (hb : x.func.block? cur = some blk)
    (his : ∀ i ∈ is, x.func.HasInstr i)
    (hrem : Scope.Remains { x with next } (Grown L) pos B blk.term is b)
    {s : Machine} (hpc : s.pc = Int32.ofNat (base + b.code.length)) {a : Nat}
    (hfp : s.Above first a) (hfr : x.Mirrors L fr s.slot?) :
    Finishes code first x B base vs a N s := by
  induction h generalizing x L B base pos blk next b s a with
  -- an instruction, and then what is left of the block
  | instr func run rest ih =>
      rw [hk, Option.some.injEq] at func
      subst func
      obtain ⟨s₁, b₁, hgo, hpc₁, hstays, hfr₁, hrem₁⟩ := hc.instr_goes hrem
        (his _ List.mem_cons_self) run hpc hfp hfr
      exact .of_goes hgo hstays (Nat.le_succ _) (ih hc hk hb
        (fun i hi => his i (List.mem_cons_of_mem _ hi)) hrem₁ hpc₁
        (hfp.stays hstays) hfr₁)
  -- the callee runs in a frame above, or the frames come round on the way; its
  -- steps leave room for those of the rest
  | @call k c g gb cur ds as sig is fr w w₁ w' xs rs vs ps n₁ n₂ callee args
      count entry phis body
      results rest ihbody ihrest =>
      cases hrem with
      | @instr _ b₁ _ _ known emits hrest =>
          obtain ⟨y, Lg, Bg, baseg, posg, rfl, hg⟩ :=
            hall g (Module.mem_of_func? callee)
          have htyped := hc.typed.instr _ (his _ List.mem_cons_self)
          obtain ⟨start, F, q, hcall⟩ :=
            hc.call_code callee htyped known emits hrest.known
            hrest.whole hg.laid.signature hg.address
          obtain ⟨hargs, hdests⟩ := htyped _ callee
          have hfixed := hc.typed.fixed _ (his _ List.mem_cons_self)
          obtain ⟨hover, hlong⟩ | ⟨s₁, hgo, hpc₁, hstays, hfr₁⟩ :=
            hcall.finishes (N := n₁)
            (hc.laid.at next) hc.plain hfixed hg.laid.toLaid rfl hg.standing
            hargs hdests args hfr
            hpc hfp fun s₁ a₁ hentry hfp₁ hmirrors => by
              obtain ⟨rfl, hbody⟩ := hg.no_phis entry phis
              obtain ⟨next', b', hpos, hrem'⟩ := hg.entry_remains entry
              rw [hbody] at ihbody
              exact ihbody hg callee entry
                (fun i hi => ⟨_, gb, entry, hi⟩) hrem'
                (by rw [hpos, hentry]) hfp₁ hmirrors
          · have hmore : (n₁ + 3) * reach ≤ (n₁ + n₂ + 1 + 2) * reach :=
              Nat.mul_le_mul_right _ (by omega)
            exact Or.inl ⟨hover, by omega⟩
          · exact .of_goes hgo hstays (by omega) (ihrest hc hk hb
              (fun i hi => his i (List.mem_cons_of_mem _ hi)) hrest hpc₁
              (hfp.stays hstays) hfr₁)
  -- control goes to the code of the next block, which has no phis
  | @jump k f₀ cur nxt b₀ nb fr w w' ps N vs func block keeps term there
    target phis rest ih =>
      rw [hk, Option.some.injEq] at func
      subst func
      rw [hb, Option.some.injEq] at block
      subst block
      obtain ⟨rfl, hbody⟩ := hc.no_phis target phis
      rw [hbody] at rest ih
      obtain ⟨s₁, next₁, b₁, hgo, hpc₁, hstays, hfr₁, hrem₁⟩ :=
        hc.jump_goes hb hrem term target
        hpc hfp hfr
      exact .of_goes hgo hstays (Nat.le_succ _)
        (ih hc hk target (fun i hi => ⟨nxt, nb, target, hi⟩)
        hrem₁ hpc₁ (hfp.stays hstays) hfr₁)
  | ret func block term =>
      rw [hk, Option.some.injEq] at func
      subst func
      rw [hb, Option.some.injEq] at block
      subst block
      exact hc.ret_finishes hb hrem term hpc hfp hfr
  -- a block without a terminator is not coded
  | leave func block term =>
      rw [hk, Option.some.injEq] at func
      subst func
      rw [hb, Option.some.injEq] at block
      subst block
      exact absurd term (hc.not_leaves hb hrem hfr)

/-- What a call of a typed function answers, the code does from its entry point
on. -/
theorem answers_finishes (hall : CompiledAll m code t) {k : FuncId}
    {xs vs : List Value} {w w' : Interp.Machine} {N : Nat}
    (h : Answers m .none k xs w N vs w') (hc : Compiled m code t x L B base pos)
    (hk : m.func? k = some x.func) {s : Machine} (hpc : s.pc = Int32.ofNat base)
    {a : Nat} (hfp : s.Above first a)
    (hfr : x.Mirrors L (argFrame x.func xs) s.slot?) :
    Finishes code first x B base vs a N s := by
  obtain ⟨f, blk, ps, hf, -, hblk, hps, hn⟩ := h
  rw [hk, Option.some.injEq] at hf
  subst hf
  obtain ⟨rfl, hbody⟩ := hc.no_phis hblk hps
  rw [hbody] at hn
  obtain ⟨next, b, hpos, hrem⟩ := hc.entry_remains hblk
  exact run_finishes hall hn hc hk hblk (fun i hi => ⟨_, blk, hblk, hi⟩) hrem
    (by rw [hpc, hpos])
    hfp hfr

-- ================================================================= answers

/-- In a module of typed functions the code of a function answers what the
interpreter answers, if the addresses do not come round in its frames. In a
short run they do not. -/
theorem generate_preserves_register_answers {metadata : Metadata}
    (hnames : (m.functions.map (·.name)).Nodup)
    (hgen : generate m metadata = .ok p) (hsize : p.items.length ≤ 2 ^ 30)
    (htyped : ∀ g ∈ m.functions, g.Typed m) (hf : f ∈ m.functions)
    (hparam : ∀ v ∈ f.params, (f.typeOf v).width = 1) {args r : List Int64}
    {limit : Int} {w : Interp.Machine}
    (hcall : Interp.call m f.name args { limit } = .ok r w) :
    (∃ least, ∀ fuel, least ≤ fuel → p.call f.name args fuel = some r)
      ∨ 254 ≤ w.steps ∧ ∃ e s, p.entrypoints[f.name]? = some e
        ∧ s = p.startCall e (args.map Felt.ofInt64)
        ∧ s.Overruns p.code s.fp := by
  obtain ⟨t, hall⟩ := generate_compiled hnames hgen hsize htyped
  obtain ⟨x, L, B, base, pos, rfl, hc, hentry⟩ := hall f hf
  obtain ⟨i, hi⟩ := List.mem_iff_getElem?.mp hf
  have hk : m.func? (Int.ofNat i) = some x.func := hi
  have hlaid := hc.laid.toLaid
  have hsig := hlaid.signature
  have hone (v : ValueId) (hv : v ∈ x.func.params) :
      (x.func.typeOf v).slots = 1 :=
    Ty.slots_eq_one (hparam v hv)
  obtain ⟨k, vs, n, hlookup, rfl, hanswers, hspent⟩ := Interp.call_answers hcall
  rw [Module.lookup_of_nodup hnames hk, Option.some.injEq] at hlookup
  subst hlookup
  have hlen : args.length = x.func.params.length := by
    obtain ⟨f, -, -, hf, hcount, -⟩ := hanswers
    rw [hk, Option.some.injEq] at hf
    rw [hf, ← hcount, argValues, List.length_map]
  have hwidth := widthOf_eq_length hone (by omega)
  obtain ⟨e, he⟩ : ∃ e : Entrypoint, e = ⟨Int32.ofNat base,
    Generator.slotCounts (x.func.params.map L.slots),
    Generator.slotCounts (x.func.returns.map Ty.slots)⟩ := ⟨_, rfl⟩
  rw [← he] at hentry
  have hargs : Program.slotTotal e.args = args.length := by
    rw [he, hlen]
    exact slotTotal_params hlaid hone
  have hreturns : Program.slotTotal e.returns
      = Ty.widthOfList x.func.returns := by
    rw [he]
    exact slotTotal_returns (by omega)
  obtain ⟨hstart, hstarts⟩ :=
    startCall_starts (p := p) (args.map Felt.ofInt64) hreturns
    (by rw [List.length_map]; omega)
  obtain ⟨s, hs⟩ : ∃ s, s = p.startCall e (args.map Felt.ofInt64) := ⟨_, rfl⟩
  rw [← hs] at hstart hstarts
  have harg (i : Nat) (a : Int64) (ha : args[i]? = some a) :
      s.slot? (Int32.ofInt (Layout.paramAt x.func i))
        = some (Felt.ofInt64 a) := by
    have hlt := (List.getElem?_eq_some_iff.mp ha).1
    have hthis := hstarts.arg i _ (by rw [List.getElem?_map, ha]; rfl)
    rw [List.length_map, hlen] at hthis
    rwa [paramAt_of_one hlaid hone (by omega)]
  have hmirrors := mirrors_argValues hlaid hone hlen harg
  have hpc : s.pc = Int32.ofNat base := by rw [hstart, he]
  have hall' : CompiledAll m p.code t := fun g hg => by
    obtain ⟨y, Lg, Bg, baseg, posg, hy, hg, -⟩ := hall g hg
    exact ⟨y, Lg, Bg, baseg, posg, hy, hg⟩
  have hreach : reach = 16777218 := rfl
  have hfirst : s.Above s.fp 0 := ⟨(Int32.add_zero _).symm, by omega⟩
  rcases answers_finishes hall' hanswers hc hk hpc hfirst hmirrors with
    ⟨hover, hlong⟩ | ⟨s', hgo, hdone⟩
  · have hsteps : w.steps = n := hspent.steps.trans (Nat.zero_add n)
    rw [hreach] at hlong
    exact Or.inr ⟨by omega, e, s, hentry, hs, hover⟩
  · obtain ⟨j, hret, hpc'⟩ := hdone.ret
    have hlink (off : Int32) (hoff : off.toInt = -1 ∨ off.toInt = -2) :
        s'.slot? off = s.slot? off := by
      have hkept :=
        hdone.kept off.toInt (by omega) (by omega) (Or.inr (by omega))
      rwa [Int32.ofInt_toInt] at hkept
    refine Or.inl (call_of_goes hc.standing hentry hargs hreturns (by omega)
      (hs ▸ hgo) hret hpc'
      (hs ▸ hdone.fp) hdone.length_eq hdone.results ?_ ?_)
    · rw [hlink _ (Or.inl rfl), hstarts.link.1]
    · rw [hlink _ (Or.inr rfl), hstarts.link.2]

/-- Count down to zero by calls, and answer what was given. The function has a
value of the type that is not used. -/
def descent (t : Ty) : Func :=
  { name := "deep"
    params := [0]
    returns := [.felt]
    types := .ofList ([(0, .felt), (1, t), (2, .felt), (3, .felt)] :
        List (ValueId × Ty))
    nextValue := 4
    blocks := [some { name := "entry", term := some (.branch (.value 0) 2 3) },
      some { name := "spare", term := some .unreachable,
             instrs := [.assign 1 (.value 1) t] },
      some { name := "down", term := some (.ret [.value 0]),
             instrs := [.binary .sub 2 (.value 0) (.int 1),
               .call [3] 0 [.value 2] ⟨[.felt], [.felt]⟩] },
      some { name := "done", term := some (.ret [.int 0]) }] }

-- The descent has a loop of calls and a block no run comes to. All its parts
-- are listed here once.
theorem descent_block {t : Ty} {b : BlockId} {blk : Block}
    (h : (descent t).block? b = some blk) :
    blk = { name := "entry", term := some (.branch (.value 0) 2 3) }
      ∨ blk
      = { name := "spare", term := some .unreachable,
          instrs := [.assign 1 (.value 1) t] }
      ∨ blk = { name := "down", term := some (.ret [.value 0]),
                instrs := [.binary .sub 2 (.value 0) (.int 1),
                  .call [3] 0 [.value 2] ⟨[.felt], [.felt]⟩] }
      ∨ blk = { name := "done", term := some (.ret [.int 0]) } := by
  obtain ⟨i, rfl, hi⟩ := Func.block?_eq_some_iff.mp h
  match i with
  | 0 | 1 | 2 | 3 => cases hi; simp
  | i + 4 => cases hi

theorem descent_instr {t : Ty} {i : Instr} (h : (descent t).HasInstr i) :
    i = .assign 1 (.value 1) t ∨ i = .binary .sub 2 (.value 0) (.int 1)
      ∨ i = .call [3] 0 [.value 2] ⟨[.felt], [.felt]⟩ := by
  obtain ⟨b, blk, hb, hi⟩ := h
  rcases descent_block hb with rfl | rfl | rfl | rfl
  · cases hi
  · exact Or.inl (List.mem_singleton.mp hi)
  · exact Or.inr (List.mem_pair.mp hi)
  · cases hi

/-- It is well typed at any type of a size, whatever its spare value is. -/
theorem descent_typed {t : Ty} (ht : t.width < 2 ^ 63) :
    (descent t).Typed ⟨[descent t]⟩ := by
  have hfelt : Ty.width .felt < 2 ^ 63 := by decide
  have hone : Ty.width .felt = 1 := rfl
  refine ⟨fun i hi => ?_, fun b blk tm hb htm => ?_, fun i hi d hd => ?_, ?_,
    fun i hi d hd => ?_⟩
  · rcases descent_instr hi with rfl | rfl | rfl
    · exact ⟨rfl, fun _ => rfl⟩
    · exact ⟨rfl, rfl, rfl⟩
    · intro g hg
      cases hg
      exact ⟨.cons rfl .nil, rfl⟩
  · rcases descent_block hb with rfl | rfl | rfl | rfl <;> cases htm
    · exact hone
    · trivial
    · exact .cons rfl .nil
    · exact .cons rfl .nil
  · have hparam : d ∈ (descent t).params → d = 0 := List.mem_singleton.mp
    rcases descent_instr hi with rfl | rfl | rfl <;> obtain rfl :=
      List.mem_singleton.mp hd
    · exact fun h => absurd (hparam h) (by decide)
    · exact fun h => absurd (hparam h) (by decide)
    · exact fun h => absurd (hparam h) (by decide)
  · show Ty.width .felt + 0 + (Ty.width .felt + 0) < 2 ^ 63
    omega
  · rcases descent_instr hi with rfl | rfl | rfl <;> obtain rfl :=
      List.mem_singleton.mp hd
    · exact ht
    · exact hfelt
    · exact hfelt

/-- The run is short, so the code answers. -/
theorem generate_preserves_register_answers_descent :
    (descent .u32).Typed ⟨[descent .u32]⟩
    ∧ (∃ w, call ⟨[descent .u32]⟩ "deep" [3] { limit := 20 } = .ok [3] w)
    ∧ ∃ p, generate ⟨[descent .u32]⟩ {} = .ok p ∧ p.items.length = 8
      ∧ ∃ least, ∀ fuel, least ≤ fuel → p.call "deep" [3] fuel = some [3] := by
  have hgen : (generate ⟨[descent .u32]⟩ {}).toOption.map (·.items.length)
      = some 8 := by
    decide +kernel
  cases hp : generate ⟨[descent .u32]⟩ {} with
  | error e =>
      rw [hp] at hgen
      cases hgen
  | ok p =>
      rw [hp] at hgen
      have hitems : p.items.length = 8 := Option.some.inj hgen
      have htyped : (descent .u32).Typed ⟨[descent .u32]⟩ :=
        descent_typed (by decide)
      obtain ⟨w, hw, hsteps⟩ :
          ∃ w, call ⟨[descent .u32]⟩ "deep" [3] { limit := 20 } = .ok [3] w
        ∧ w.steps = 14 := ⟨_, rfl, rfl⟩
      refine ⟨htyped, ⟨w, hw⟩, p, rfl, hitems, ?_⟩
      rcases generate_preserves_register_answers (f := descent .u32)
        (by decide) hp (by omega)
        (fun g hg => List.mem_singleton.mp hg ▸ htyped) List.mem_cons_self
        (fun v hv => List.mem_singleton.mp hv ▸ rfl) hw
        with hanswers | ⟨hlong, -⟩
      · exact hanswers
      · omega

end MirBackend.Asm
