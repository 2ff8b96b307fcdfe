/-
The frames of caller and callee.

Whichever way the arguments of a call are passed, the callee finds its
parameters where its layout has them, its frame is above all values of the
caller, and no value changes but those that the results get into. `CallFrame`
says so from both sides. `call_frame` proves it of one call, and
`generate_call_frames` of all calls of a generated program whose sizes have not
wrapped. Where one has, the frames may overlap (`generate_overlaps`).
-/
import Mathlib
import MirBackend.Proofs.Asm.FrameGrowth
import MirBackend.Proofs.Asm.Passing

namespace MirBackend.Asm

open Interp (Slots bind_ok_iff)

variable {code : List Insn} {base : Nat} {t : Link.Table} {L : Layout} {n : Nat}
  {b b' : Builder} {x : Scope} {u : Unit} {start : Int32} {v : ValueId}
  {args : List Operand} {ds : List ValueId}

-- ================================================================ the call

/-- A call is resolved to the entry of the callee. -/
theorem resolve_call {name : String} {entry : Int32}
    (hentry : t.addresses[name]? = some entry) (pc : Nat) (F : Int32)
    (comment : String) :
    Link.resolve t pc
      { opcode := .callAbsImm, off0 := F, imm := .label name, comment }
      = .ok { opcode := .callAbsImm, off0 := F, imm := .literal entry name, comment } := by
  rw [Link.resolve]
  dsimp only
  rw [hentry]
  rfl

/-- A call goes to the entry of the callee, in a frame of its own above the
slots for the link. -/
theorem Standing.calls (hst : Standing code base t b)
    {q : Nat} {F entry : Int32} {name comment : String} (hx : b.code[q]? = some
      { opcode := .callAbsImm, off0 := F, imm := .label name, comment })
    (hentry : t.addresses[name]? = some entry) {s : Machine}
    (hpc : s.pc = Int32.ofNat (base + q)) :
    ∃ s', Machine.step code s = some s' ∧ s'.pc = entry ∧ s'.fp = s.fp + (F + 2)
      ∧ s'.slot? (-2) = some (.ofWord s.fp)
      ∧ s'.slot? (-1) = some (.ofWord (Int32.ofNat (base + (q + 1))))
      ∧ ∀ off, off ≠ F → off ≠ F + 1 → s'.slot?
      (off - (F + 2)) = s.slot? off := by
  obtain ⟨linked, hlinked⟩ : ∃ linked : Machine, linked
      = (s.setSlot F (.ofWord s.fp)).setSlot (F + 1) (.ofWord (s.pc + 1)) :=
        ⟨_, rfl⟩
  have hslot : linked.slot?
      = Function.update (Function.update s.slot? F (some (.ofWord s.fp)))
      (F + 1) (some (.ofWord (s.pc + 1))) := by
    rw [hlinked, Machine.slot?_setSlot, Machine.slot?_setSlot]
  have hfp : linked.fp = s.fp := by rw [hlinked]; rfl
  have hnew (off : Int32) :
      ({ linked with pc := entry, fp := s.fp + (F + 2) } : Machine).slot? off
      = linked.slot? (off + (F + 2)) := by
    show linked.read? (s.fp + (F + 2) + off)
      = linked.read? (linked.fp + (off + (F + 2)))
    rw [hfp]
    congr 1
    grind
  have hne : F ≠ F + 1 := by grind
  refine ⟨{ linked with pc := entry, fp := s.fp + (F + 2) },
    ?_, rfl, rfl, ?_, ?_, fun off hF hF' => ?_⟩
  · rw [hst.step_eq hx (resolve_call hentry _ _ _) hpc,
      if_pos (by rfl), hlinked]
    rfl
  · rw [hnew, show (-2 : Int32) + (F + 2) = F by grind, hslot,
      Function.update_of_ne hne, Function.update_self]
  · rw [hnew, show (-1 : Int32) + (F + 2) = F + 1 by grind, hslot,
      Function.update_self, hpc, Standing.ofNat_succ]
  · rw [hnew, show off - (F + 2) + (F + 2) = off by grind, hslot,
      Function.update_of_ne hF', Function.update_of_ne hF]

/-- As many slots are passed as the callee takes, and as many are taken as it
gives. -/
structure CallSuits (f g : Func) (ds : List ValueId)
    (args : List Operand) : Prop where
  args : List.Forall₂ (fun o p => (f.operandType o).slots
    = (g.typeOf p).slots) args g.params
  dests : List.Forall₂ (fun d ty => (f.typeOf d).slots = ty.slots) ds g.returns

namespace CallSuits

variable {f g : Func} {static : Std.ExtTreeMap ValueId Int32}

/-- An argument has the slots of its parameter. -/
theorem arg_len (h : CallSuits f g ds args)
    (hlen : ∀ (v : ValueId) (s : Span), L.spans[v]? = some s → v ∉ static →
      s.len = (f.typeOf v).slots) :
    ∀ a ∈ args.zip g.paramTypes, ∀ v s, a.1 = .value v → v ∉ static →
      L.spans[v]? = some s →
      s.len = a.2.slots := by
  intro a ha v s hv hstatic hs
  rw [Func.paramTypes, List.zip_map_right, List.mem_map] at ha
  obtain ⟨⟨o, p⟩, hop, rfl⟩ := ha
  obtain rfl : o = .value v := hv
  exact (hlen v s hs hstatic).trans (List.forall₂_zip h.args hop)

/-- A destination has the slots of its result. -/
theorem dest_len (h : CallSuits f g ds args)
    (hlen : ∀ (v : ValueId) (s : Span), L.spans[v]? = some s → v ∉ static →
      s.len = (f.typeOf v).slots) (hds : ∀ d ∈ ds, d ∉ static) :
    ∀ r ∈ ds.zip g.returns, ∀ s, L.spans[r.1]? = some s →
      s.len = r.2.slots := fun r hr s hs =>
  (hlen r.1 s hs (hds r.1 (List.of_mem_zip hr).1)).trans
  (List.forall₂_zip h.dests hr)

end CallSuits

/-- The code of a call: arguments get to the slots from `start` on, with room
for the results between them and the link, which is at the offset `F`. The call
itself is at `q`. -/
structure CallCode (code : List Insn) (base : Nat) (entry : Int32)
    (x : Scope) (L : Layout) (g : Func) (ds : List ValueId)
    (args : List Operand) (b b' : Builder) (start F : Int32)
    (q : Nat) : Prop where
  /-- The instruction at `q` is the call. -/
  insn : ∃ comment, b'.code[q]? = some
    { opcode := .callAbsImm, off0 := F, imm := .label g.name, comment }
  /-- The machine finds it there. -/
  found : ∀ s : Machine, s.pc = Int32.ofNat (base + q) →
    ∃ y, Machine.fetch? code s.pc = some y
    ∧ y.opcode = .callAbsImm ∧ y.off0 = F
  nonneg : 0 ≤ start.toInt
  /-- Arguments and results are below the link. -/
  top : F.toInt = start.toInt + Layout.widthOf g g.params
    + Ty.widthOfList g.returns
  low : L.frameSize.toInt ≤ F.toInt
  high : F.toInt ≤ 16777216
  /-- Where the results are, there is no value but those that they are meant
  for. -/
  apart : ∀ (v : ValueId) (s : Span) (i : Nat), v ∉ ds → L.spans[v]? = some s →
    (i : Int) < s.len.toInt →
      (s.base + Int32.ofNat i).toInt < start.toInt + Layout.widthOf g g.params
  /-- No argument that takes a slot is an address known beforehand. -/
  plain : ∀ a ∈ args.zip g.paramTypes, ∀ v, a.1 = .value v →
    a.2.slots = 0 ∨ v ∉ x.static
  /-- When the call is executed, the arguments are there, and all but the room
  for the call at the top of the frame is as it was. -/
  passes : Carries code base L F.toInt b.code.length q
    (args.zip g.paramTypes) start
  /-- The call enters the callee in the frame above the link. -/
  enters : ∀ s : Machine, s.pc = Int32.ofNat (base + q) →
    ∃ s', Machine.step code s = some s'
    ∧ s'.pc = entry ∧ s'.fp = s.fp + (F + 2)
    ∧ s'.slot? (-2) = some (.ofWord s.fp)
    ∧ s'.slot? (-1) = some (.ofWord (Int32.ofNat (base + (q + 1))))
    ∧ ∀ off, off ≠ F → off ≠ F + 1 → s'.slot? (off - (F + 2)) = s.slot? off
  /-- When the callee is back, the results get into their values, and no other
  slot changes. -/
  collects : Fetches code base L (2 ^ 31) (q + 1) b'.code.length ds g.returns
    (start + Int32.ofNat (Layout.widthOf g g.params))

/-- The frames on both sides of a call: the code `b'` of the caller has the call
at `q`, with the link to the frame of the callee at the offset `F`. -/
structure CallFrame (code : List Insn) (base : Nat) (entry : Int32)
    (x : Scope) (L : Layout) (g : Func) (Lg : Layout) (ds : List ValueId)
    (args : List Operand) (b b' : Builder) (F : Int32) (q : Nat) : Prop where
  /-- The instruction at `q` is the call. -/
  insn : ∃ comment, b'.code[q]? = some
    { opcode := .callAbsImm, off0 := F, imm := .label g.name, comment }
  /-- All values of the caller end below the frame of the callee. -/
  values : ∀ (v : ValueId) (s : Span), L.spans[v]? = some s →
    s.base.toInt + s.len.toInt ≤ F.toInt
  /-- Neither the link nor a slot of the frame of the callee belongs to a value
  of the caller. -/
  outside : ∀ off : Int32, -2 ≤ off.toInt → off.toInt ≤ Layout.maxFrame.toInt →
    ¬ L.Taken (F + 2 + off)
  /-- The parameters of the callee are side by side below its results, counted
  from the caller. -/
  param : ∀ (i : Nat) p, g.params[i]? = some p →
    p ∉ g.params.drop (i + 1) → ∃ s,
    Lg.spans[p]? = some s ∧ s.len = (g.typeOf p).slots
      ∧ F + 2 + s.base = F - Lg.returnSlots.toInt32 - Lg.paramSlots.toInt32
        + Int32.ofNat (Layout.widthOf g (g.params.take i))
  /-- The results of the callee are below its link, counted from the caller. -/
  returns : F + 2 + Lg.returnOffset = F - Lg.returnSlots.toInt32
  /-- No argument that takes a slot is an address known beforehand. -/
  plain : ∀ a ∈ args.zip g.paramTypes, ∀ v, a.1 = .value v →
    a.2.slots = 0 ∨ v ∉ x.static
  /-- When the call is executed, the arguments are there, and all values are as
  they were. -/
  passes : Brings code base L b.code.length q (args.zip g.paramTypes)
    (F - Lg.returnSlots.toInt32 - Lg.paramSlots.toInt32)
  /-- The call enters the callee in the frame above the link. -/
  enters : ∀ s : Machine, s.pc = Int32.ofNat (base + q) →
    ∃ s', Machine.step code s = some s'
    ∧ s'.pc = entry ∧ s'.fp = s.fp + (F + 2)
    ∧ s'.slot? (-2) = some (.ofWord s.fp)
    ∧ s'.slot? (-1) = some (.ofWord (Int32.ofNat (base + (q + 1))))
    ∧ ∀ off, off ≠ F → off ≠ F + 1 → s'.slot? (off - (F + 2)) = s.slot? off
  /-- When the callee is back, the results get into their values, and no other
  value changes. -/
  collects : Fetches code base L F.toInt.toNat (q + 1)
    b'.code.length ds g.returns
    (F - Lg.returnSlots.toInt32)

/-- Where a parameter is, counted from a frame that is `F` and the link
below. -/
theorem param_place {g : Func} {Lg : Layout} (hLg : Layout.Laid g Lg)
    (F : Int32) {i : Nat} {p : ValueId} (hp : g.params[i]? = some p)
    (hlast : p ∉ g.params.drop (i + 1)) :
    ∃ s, Lg.spans[p]? = some s ∧ s.len = (g.typeOf p).slots
      ∧ F + 2 + s.base = F - Lg.returnSlots.toInt32 - Lg.paramSlots.toInt32
        + Int32.ofNat (Layout.widthOf g (g.params.take i)) := by
  refine ⟨_, hLg.param i p hp hlast, rfl, ?_⟩
  rw [hLg.returnSlots, hLg.paramSlots, Int64.toInt32_ofNat',
    Int64.toInt32_ofNat', Layout.paramAt, Layout.bottom]
  simp only [Int32.ofInt_add, Int32.ofInt_sub, Int32.ofInt_neg,
    Int32.ofInt_eq_ofNat]
  grind

/-- The callee's results lie below its frame, behind nothing but its return
slots: its layout cancels out. -/
theorem results_place (Lg : Layout) (F : Int32) :
    F + 2 + Lg.returnOffset = F - Lg.returnSlots.toInt32 := by
  rw [Layout.returnOffset, Layout.callerSlots]
  grind

/-- A call has its code, whichever way its arguments are passed. -/
theorem call_code {k : FuncId} {g : Func} {entry : Int32}
    (hL : Layout.Laid x.func L)
    (hlen : ∀ (v : ValueId) (s : Span), L.spans[v]? = some s → v ∉ x.static →
      s.len = (x.func.typeOf v).slots)
    (hl : b.layout = some { L with frameSize := Int64.ofNat n })
    (hlow : L.frameSize.toInt ≤ n) (hn : n ≤ 16777216)
    (hg : x.module.func? k = some g)
    (hsig : Layout.widthOf g g.params + Ty.widthOfList g.returns ≤ 16777216)
    (hsuits : CallSuits x.func g ds args) (hds : ∀ d ∈ ds, d ∉ x.static)
    (hst : Standing code base t b') (hentry : t.addresses[g.name]? = some entry)
    (h : x.call ds k args b = .ok u b')
    (htop : ∀ l, b'.layout = some l → l.frameSize.toInt ≤ 16777216) :
    ∃ start F q, CallCode code base entry x L g ds args b b' start F q := by
  have hps : Ty.widthOfList g.paramTypes = Layout.widthOf g g.params := rfl
  rw [Scope.call, hg] at h
  dsimp only at h
  rw [if_neg (not_not.mpr hsuits.args.length_eq),
    if_neg (not_not.mpr hsuits.dests.length_eq),
    toInt32_slotsOfList, toInt32_slotsOfList] at h
  -- arguments, the call itself, and the results
  obtain ⟨start, b₁, h₁, h⟩ := bind_ok_iff.mp h
  obtain ⟨_, b₂, h₂, hrest⟩ := bind_ok_iff.mp h
  obtain ⟨hcode, hinsn, -, hlayout₂⟩ := emit_getElem? h₂
  have hlayout : b'.layout = b₁.layout :=
    (plain_layout.copyResults _ _ _ _ _ hrest).trans hlayout₂
  have hext₂ : Extends b₂ b' :=
    (Extends.roomy fun _ => True).copyResults _ _ _ _ _ hrest
  have hext₁ : Extends b₁ b₂ :=
    (Extends.roomy fun _ => True).calls _ trivial _ _ _ h₂
  obtain ⟨n₁, hl₁, hle, hnonneg, hsum, hplace, hplain, hcarries⟩ :=
    passArgs_spec hL hl hlow hn
    (by omega) (by rw [Func.paramTypes, List.length_map, hsuits.args.length_eq])
    hsuits.dests.length_eq (hsuits.arg_len hlen)
      (hst.of_extends (hext₁.trans hext₂)) h₁
    (hlayout ▸ htop)
  rw [hps] at hsum hplace hinsn hrest
  have hn₁ : n₁ ≤ 16777216 := by
    have hfits : (Int64.ofNat n₁).toInt ≤ 16777216 := htop _ (hlayout.trans hl₁)
    have := Int32.toInt_lt start
    rw [Int64.toInt_ofNat_of_lt (by omega)] at hfits
    omega
  obtain ⟨F, hF⟩ : ∃ F, F = start + Int32.ofNat (Layout.widthOf g g.params)
    + Int32.ofNat (Ty.widthOfList g.returns) := ⟨_, rfl⟩
  rw [← hF] at hinsn
  have hmid : (start + Int32.ofNat (Layout.widthOf g g.params)).toInt
      = start.toInt + Layout.widthOf g g.params := by
    rw [Int32.toInt_add, Int32.toInt_ofNat_of_lt (by omega)]
    exact Int.bmod_eq_of_le (by omega) (by omega)
  have htopF : F.toInt = n₁ := by
    rw [hF, Int32.toInt_add, Int32.toInt_ofNat_of_lt (by omega), hmid, hsum]
    exact Int.bmod_eq_of_le (by omega) (by omega)
  have hq : b₂.code.length = b₁.code.length + 1 := by
    rw [hcode, List.length_append, List.length_singleton]
  have hat := hext₂.getElem? hinsn
  refine ⟨start, F, b₁.code.length, ⟨_, hat⟩,
    fun s hpc => ⟨_, hst.fetch_eq hat (resolve_call hentry _ _ _) hpc, rfl,
    rfl⟩, hnonneg, by omega, by omega,
    by omega, fun v s i hv hs hi => ?_, hplain, htopF ▸ hcarries,
    fun s hpc => hst.calls hat hentry hpc, ?_⟩
  -- a value that lives on would have to lie where the results come, and no
  -- other value does
  · by_contra hhigh
    have hlt := hL.slot_lt hlow hs hi
    rcases hplace with hat | hfree
    · -- the slot would be one of a destination
      have htypes : (ds.zip g.returns).map (·.2) = g.returns :=
        List.map_snd_zip hsuits.dests.length_eq.ge
      obtain ⟨j, hj⟩ : ∃ j : Nat, (j : Int) = (s.base + Int32.ofNat i).toInt
          - (start.toInt + Layout.widthOf g g.params) :=
            ⟨_, Int.toNat_of_nonneg (by omega)⟩
      obtain ⟨a, ha, s', j', hs', hj', heq⟩ := valuesAt_covers hat (i := j)
        (by rw [htypes]; omega) (by rw [htypes]; omega)
      have hslot : start + Int32.ofNat (Layout.widthOf g g.params)
          + Int32.ofNat j
          = s.base + Int32.ofNat i := by
        rw [← Int32.toInt_inj, Int32.toInt_add, hmid,
          Int32.toInt_ofNat_of_lt (by omega), hj, add_sub_cancel]
        exact Int.bmod_eq_of_le (by omega) (by omega)
      refine hL.slot_ne (fun hva => hv ?_) hs hs' hi hj' (hslot.symm.trans heq)
      rw [hva]
      exact (List.of_mem_zip ha).1
    · obtain ⟨hin, -⟩ := hL.slot_place hs hi
      have := hL.stop_le hs
      omega
  · rw [← hq]
    exact copyResults_fetches hL (hlayout₂.trans hl₁) (by omega) hn₁ hst
      hsuits.dests.length_eq
      (hsuits.dest_len hlen hds) (by omega) (by rwa [hmid]) hrest

namespace CallCode

variable {entry F : Int32} {g : Func} {q : Nat}

/-- The callee's frame stands behind its arguments, its results and the two
saved registers. -/
theorem place (h : CallCode code base entry x L g ds args b b' start F q) :
    F = start + Int32.ofNat (Layout.widthOf g g.params)
      + Int32.ofNat (Ty.widthOfList g.returns) := by
  have htop := h.top
  have hnonneg := h.nonneg
  have hhigh := h.high
  rw [Int32.add_assoc, ← Int32.ofNat_add, ← Int32.toInt_inj, Int32.toInt_add,
    Int32.toInt_ofNat_of_lt (by omega), htop,
      Int.bmod_eq_of_le (by omega) (by omega)]
  push_cast
  omega

/-- The results are read where the callee put them: right behind the arguments.
-/
theorem results_eq {Lg : Layout}
    (h : CallCode code base entry x L g ds args b b' start F q)
    (hLg : Layout.Laid g Lg) :
    F - Lg.returnSlots.toInt32 = start + Int32.ofNat
      (Layout.widthOf g g.params) := by
  rw [hLg.returnSlots, Int64.toInt32_ofNat', h.place]
  grind

/-- The arguments begin where the callee looks for its first parameter. -/
theorem start_eq {Lg : Layout}
    (h : CallCode code base entry x L g ds args b b' start F q)
    (hLg : Layout.Laid g Lg) :
    F - Lg.returnSlots.toInt32 - Lg.paramSlots.toInt32 = start := by
  rw [h.results_eq hLg, hLg.paramSlots, Int64.toInt32_ofNat']
  grind

/-- The call keeps what caller and callee rely on. -/
theorem frame {Lg : Layout}
    (h : CallCode code base entry x L g ds args b b' start F q)
    (hL : Layout.Laid x.func L) (hLg : Layout.Laid g Lg) :
    CallFrame code base entry x L g Lg ds args b b' F q := by
  have hlow := h.low
  have hhigh := h.high
  have hnonneg := hL.nonneg
  refine ⟨h.insn, fun v s hs => (hL.stop_le hs).trans hlow,
    fun off hlo hhi => ?_,
    fun i p hp hlast => param_place hLg F hp hlast, results_place Lg F,
    h.plain, ?_, h.enters, ?_⟩
  · have hmax : Layout.maxFrame.toInt = 16777216 := rfl
    have hlink : (F + 2).toInt = F.toInt + 2 := by
      rw [Int32.toInt_add]
      show (F.toInt + 2).bmod (2 ^ 32) = F.toInt + 2
      exact Int.bmod_eq_of_le (by omega) (by omega)
    have hplace : (F + 2 + off).toInt = F.toInt + 2 + off.toInt := by
      rw [Int32.toInt_add, hlink]
      exact Int.bmod_eq_of_le (by omega) (by omega)
    exact hL.not_taken (by omega)
  · rw [h.start_eq hLg]
    exact h.passes.brings hL
  · rw [h.results_eq hLg]
    exact h.collects.mono (by omega)

/-- The callee starts with the arguments in its parameters and the link below
its frame, and all but the room for the call at the top of the frame of the
caller is as it was. -/
theorem arrives {Lg : Layout}
    (h : CallCode code base entry x L g ds args b b' start F q)
    (hLg : Layout.Laid g Lg)
    (hcount : args.length = g.params.length) {s : Machine}
    (hpc : s.pc = Int32.ofNat (base + b.code.length)) {xss : List Slots}
    (hxs : List.Forall₂ (fun a y => Stands L s.slot? a.1 y
      ∧ y.length = a.2.width) (args.zip g.paramTypes) xss) :
    ∃ s', Machine.Goes code s s' ∧ s'.pc = entry ∧ s'.fp = s.fp + (F + 2)
      ∧ s'.slot? (-2) = some (.ofWord s.fp)
      ∧ s'.slot? (-1) = some (.ofWord (Int32.ofNat (base + (q + 1))))
      ∧ (∀ (i : Nat) p y, g.params[i]? = some p → p ∉ g.params.drop (i + 1) →
          xss[i]? = some y →
        ∃ sp, Lg.spans[p]? = some sp ∧ (y.length : Int) = sp.len.toInt
            ∧ Shows s'.slot? sp.base y)
      ∧ ∀ off : Int32, off.toInt < L.frameSize.toInt ∨ F.toInt + 2 ≤ off.toInt →
        s'.slot? (off - (F + 2)) = s.slot? off := by
  obtain ⟨σ, hleads, hshows, hkept⟩ := h.passes s.slot? xss hxs
  obtain ⟨s₁, hgo, hpc₁, hfp₁, rfl⟩ := hleads s hpc rfl
  obtain ⟨s', hstep, hentry, hfp, hlink, hback, hsame⟩ := h.enters s₁ hpc₁
  have hnonneg := h.nonneg
  have htop := h.top
  have hlow := h.low
  have hhigh := h.high
  -- the call writes the link, and that is above all arguments and values
  have hbelow {off : Int32} (hoff : off.toInt < F.toInt
      ∨ F.toInt + 2 ≤ off.toInt) :
      s'.slot? (off - (F + 2)) = s₁.slot? off := by
    have hnext : (F + 1).toInt = F.toInt + 1 := by
      rw [Int32.toInt_add]
      show (F.toInt + 1).bmod (2 ^ 32) = F.toInt + 1
      exact Int.bmod_eq_of_le (by omega) (by omega)
    refine hsame off ?_ ?_ <;> rintro rfl <;> omega
  have htypes : (args.zip g.paramTypes).map (·.2) = g.paramTypes :=
    List.map_snd_zip (by rw [Func.paramTypes, List.length_map, hcount])
  refine ⟨s', hgo.tail hstep, hentry, hfp₁ ▸ hfp, hfp₁ ▸ hlink, hback,
    fun i p y hp hlast hy => ?_, fun off hoff => ?_⟩
  · obtain ⟨sp, hsp, hlen, hplace⟩ := param_place hLg F hp hlast
    rw [h.start_eq hLg] at hplace
    have hbefore : (xss.take i).flatten.length
        = Layout.widthOf g (g.params.take i) := by
      rw [length_of_widths ((List.forall₂_take i hxs).imp fun _ _ h => h.2),
        List.map_take, htypes, Func.paramTypes, ← List.map_take]
      rfl
    have hwidth : y.length = (g.typeOf p).width := by
      obtain ⟨hi, rfl⟩ := List.getElem?_eq_some_iff.mp hy
      have hi' : i < (args.zip g.paramTypes).length := by rwa [hxs.length_eq]
      refine (hxs.get hi' hi).2.trans ?_
      simp only [List.get_eq_getElem, List.getElem_zip,
        Func.paramTypes, List.getElem_map]
      rw [(List.getElem?_eq_some_iff.mp hp).2]
    have hnext := Layout.widthOf_take_add (f := g) hp
    have hle := Layout.widthOf_take_le g g.params (i + 1)
    refine ⟨sp, hsp, by rw [hlen, Ty.toInt_slots _ (by omega), hwidth],
      fun k z hz => ?_⟩
    have hk := (List.getElem?_eq_some_iff.mp hz).1
    obtain ⟨a, ha, haz, hslot⟩ := hshows.flatten hy k z hz
    refine ⟨a, ha, haz, hslot ▸ ?_⟩
    have hin :
        (start + Int32.ofNat (Layout.widthOf g (g.params.take i))
        + Int32.ofNat k).toInt
        = start.toInt + (Layout.widthOf g (g.params.take i) + k : Nat) := by
      rw [Int32.add_assoc, ← Int32.ofNat_add, Int32.toInt_add,
        Int32.toInt_ofNat_of_lt (by omega)]
      exact Int.bmod_eq_of_le (by omega) (by omega)
    rw [hbefore, ← hbelow (by omega), ← hplace]
    congr 1
    grind
  · rw [hbelow (by omega), hkept off (by omega)]

end CallCode

/-- A call keeps what caller and callee rely on, whichever way its arguments are
passed. -/
theorem call_frame {k : FuncId} {g : Func} {Lg : Layout} {entry : Int32}
    (hL : Layout.Laid x.func L)
    (hlen : ∀ (v : ValueId) (s : Span), L.spans[v]? = some s → v ∉ x.static →
      s.len = (x.func.typeOf v).slots)
    (hl : b.layout = some { L with frameSize := Int64.ofNat n })
    (hlow : L.frameSize.toInt ≤ n) (hn : n ≤ 16777216)
    (hg : x.module.func? k = some g) (hLg : Layout.Laid g Lg)
    (hsuits : CallSuits x.func g ds args) (hds : ∀ d ∈ ds, d ∉ x.static)
    (hst : Standing code base t b') (hentry : t.addresses[g.name]? = some entry)
    (h : x.call ds k args b = .ok u b')
    (htop : ∀ l, b'.layout = some l → l.frameSize.toInt ≤ 16777216) :
    ∃ F q, CallFrame code base entry x L g Lg ds args b b' F q := by
  obtain ⟨start, F, q, hcall⟩ :=
    call_code hL hlen hl hlow hn hg hLg.signature hsuits hds hst hentry
    h htop
  exact ⟨F, q, hcall.frame hL hLg⟩

/-- Caller and callee agree on the frame of every call in a generated program,
as long as no size in the module has wrapped. A call with a destination that is
an address known beforehand has no code. -/
theorem generate_call_frames {metadata : Metadata} {m : Module}
    {p : Program} {f g : Func} {c : BlockId} {blk : Block} {j : Nat}
    {k : FuncId} {ty : Signature} (hnames : (m.functions.map (·.name)).Nodup)
    (hgen : generate m metadata = .ok p) (hsize : p.items.length ≤ 2 ^ 30)
    (hsized : ∀ g ∈ m.functions, Layout.Sized g) (hf : f ∈ m.functions)
    (hblk : f.block? c = some blk)
    (hi : blk.instrs[j]? = some (.call ds k args ty)) (hg : m.func? k = some g)
    (hsuits : CallSuits f g ds args) :
    ∃ x L Lg B base t b b' e, Layout.compute f = .ok L
        ∧ Layout.compute g = .ok Lg
      ∧ Standing p.code base t B ∧ p.entrypoints[g.name]? = some e
      ∧ x.module = m ∧ x.func = f ∧ (∀ d ∈ x.static, FrameAddress f d)
      ∧ Turn x B c j (.call ds k args ty) b b'
      ∧ ((∀ d ∈ ds, d ∉ x.static) →
        ∃ F q, CallFrame p.code base e.pc x L g Lg ds args b b' F q) := by
  obtain ⟨t, hall⟩ := generate_functions hnames hgen hsize
  obtain ⟨L, names, B, base, hL, hbody, hst, -, -⟩ := hall f hf
  obtain ⟨Lg, -, -, baseg, hLg, -, -, haddress, hentry⟩ :=
    hall g (Module.mem_of_func? hg)
  obtain ⟨parts⟩ := Generator.body_parts hbody
  have hlaid := Layout.compute_laid (hsized f hf) hL
  obtain ⟨he, hhome⟩ := parts.explained
  have hfit (g : Func) (hg : g ∈ m.functions) :
      Layout.widthOf g g.params + Ty.widthOfList g.returns ≤ 16777216 := by
    obtain ⟨Lg, -, -, -, hLg, -⟩ := hall g hg
    exact (Layout.compute_laid (hsized g hg) hLg).signature
  obtain ⟨next, b, b', hturn, hbefore, hhere, hbehind⟩ :=
    parts.turn hfit hblk hi
  -- the frame before the call and the frame behind it
  have hfits : parts.last.frameSize.toInt ≤ 16777216 :=
    Int64.le_iff_toInt_le.mp (Int64.not_lt.mp parts.fits)
  obtain ⟨n, hl, hlow, hn⟩ :=
    hbefore.framed ((hhere.trans hbehind).mono le_rfl) rfl hlaid.nonneg
    hlaid.fits parts.hlast hfits hst.length_le
  obtain ⟨n', hl', -, hn'⟩ :=
    ((hbefore.trans hhere).mono le_rfl).framed hbehind rfl hlaid.nonneg
    hlaid.fits parts.hlast hfits hst.length_le
  refine ⟨{ parts.scope with next }, L, Lg, B, base, t, b, b', _, hL, hLg,
    hst, hentry, rfl, rfl, fun d hd => ?_, hturn, fun hds => ?_⟩
  · obtain ⟨a, ha⟩ :=
      Option.isSome_iff_exists.mp (Std.ExtTreeMap.mem_iff_isSome_getElem?.mp hd)
    exact he.known d a ha
  · have hemits : Scope.call { parts.scope with next } ds k args b
        = .ok () b' := by
      have hcode := hturn.emits
      rw [Scope.instr, if_neg] at hcode
      · exact hcode
      · simpa [Scope.isStatic, Instr.dests] using hds
    refine call_frame (x := { parts.scope with next }) hlaid
      (fun v s hs hv => len_eq_slots hlaid hhome hs hv) hl hlow hn hg
      (Layout.compute_laid (hsized g (Module.mem_of_func? hg)) hLg) hsuits hds
      (hst.of_extends hturn.whole) haddress hemits fun l hl => ?_
    rw [hl', Option.some.injEq] at hl
    rw [← hl]
    show (Int64.ofNat n').toInt ≤ 16777216
    rw [Int64.toInt_ofNat_of_lt (by omega)]
    omega

/-- A function that gives back what it is given. -/
def relay : Func :=
  { name := "relay"
    params := [0]
    returns := [.felt]
    types := .ofList ([(0, .felt)] : List (ValueId × Ty))
    nextValue := 1
    blocks :=
      [some { name := "entry", term := some (.ret [.value 0]), instrs := [] }] }

/-- A sum that is passed on. -/
def relayed : Func :=
  { name := "relayed"
    params := [0, 1]
    returns := [.felt]
    types := .ofList ([(0, .felt), (1, .felt), (2, .felt), (3, .felt)] :
        List (ValueId × Ty))
    nextValue := 4
    blocks := [some { name := "entry", term := some (.ret [.value 3]),
                      instrs := [.binary .add 2 (.value 0) (.value 1),
                        .call [3] 0 [.value 2] ⟨[.felt], [.felt]⟩] }] }

-- Both functions are of a size, and neither holds an address.
theorem relay_sized : Layout.Sized relay := by
  refine ⟨by decide +kernel, fun i hi => ?_⟩
  cases Func.hasInstr_of_blocks_eq rfl hi

theorem relayed_sized : Layout.Sized relayed := by
  refine ⟨by decide +kernel, fun i hi d hd n hn => ?_⟩
  rcases List.mem_cons.mp (Func.hasInstr_of_blocks_eq rfl hi) with rfl | hi
  · obtain rfl := List.mem_singleton.mp hd
    cases hn
    decide
  · obtain rfl := List.mem_singleton.mp hi
    obtain rfl := List.mem_singleton.mp hd
    cases hn
    decide

theorem relayed_not_address : ¬ FrameAddress relayed v := by
  intro h
  induction h with
  | home hhome =>
      obtain ⟨i, hi, hhome⟩ := hhome
      rcases List.mem_cons.mp (Func.hasInstr_of_blocks_eq rfl hi) with rfl | hi
      · cases hhome
      · obtain rfl := List.mem_singleton.mp hi
        cases hhome
  | step _ _ _ ih => exact ih

/-- Argument and result are in place. -/
theorem generate_call_frames_relayed :
    ∃ p, generate ⟨[relay, relayed]⟩ {} = .ok p
    ∧ p.items.length ≤ 2 ^ 30
    ∧ ∃ x L Lg B base t b b' e, Layout.compute relayed = .ok L
      ∧ Layout.compute relay = .ok Lg
      ∧ Standing p.code base t B ∧ p.entrypoints["relay"]? = some e
      ∧ Turn x B 0 1 (.call [3] 0 [.value 2] ⟨[.felt], [.felt]⟩) b b'
      ∧ ∃ F q, CallFrame p.code base e.pc x L relay Lg [3]
      [.value 2] b b' F q := by
  have hgen : (generate ⟨[relay, relayed]⟩ {}).toOption.map (·.items.length)
      = some 6 := by
    decide +kernel
  cases hp : generate ⟨[relay, relayed]⟩ {} with
  | error e =>
      rw [hp] at hgen
      cases hgen
  | ok p =>
      rw [hp] at hgen
      have hitems : p.items.length = 6 := Option.some.inj hgen
      obtain ⟨x, L, Lg, B, base, t, b, b', e, hL, hLg, hst, he, -, -,
          hstatic, hturn, hframe⟩ :=
        generate_call_frames (f := relayed) (g := relay) (c := 0) (j := 1)
          (by decide) hp (by omega)
          (by simpa using ⟨relay_sized, relayed_sized⟩) (by simp) rfl rfl rfl
          ⟨.cons rfl .nil, .cons rfl .nil⟩
      refine ⟨p, rfl, by omega, x, L, Lg, B, base, t, b, b', e, hL, hLg, hst,
        he, hturn, hframe ?_⟩
      intro d _ hd
      exact relayed_not_address (hstatic d hd)

/-- The slots of an array that is never allocated wrap to four slots less than
nothing. -/
def overlapped : Func :=
  { name := "overlapped"
    params := [0, 1]
    returns := [.felt]
    types :=
      .ofList ([(0, .felt), (1, .felt), (2, .felt), (3, .felt),
        (4, .felt), (5, .felt),
      (6, .ptr (.array (.array .felt 2) 9223372036854775806))] :
          List (ValueId × Ty))
    nextValue := 7
    blocks := [some { name := "entry", term := some (.ret [.value 5]),
                      instrs := [.binary .add 2 (.value 0) (.value 1),
                        .binary .mul 3 (.value 0) (.value 1),
                        .call [4] 0 [.value 2] ⟨[.felt], [.felt]⟩,
                        .binary .add 5 (.value 4) (.value 3)] },
      some { name := "spare", term := some (.ret [.value 0]),
             instrs :=
               [.frameAlloc 6 (.array (.array .felt 2) 9223372036854775806)] }]
                 }

/-- Where a size has wrapped, the frame of the callee overlaps values of the
caller: the product is lost to the result of the call, which is added to
itself. -/
theorem generate_overlaps :
    (∃ w, Interp.call ⟨[relay, overlapped]⟩ "overlapped" [3,
      5] { limit := 10 } = .ok [23] w)
      ∧ ∃ p, generate ⟨[relay, overlapped]⟩ {} = .ok p
        ∧ p.call "overlapped" [3, 5] 10 = some [16] := by
  have hgen : (generate ⟨[relay, overlapped]⟩ {}).toOption.map
      (·.call "overlapped" [3, 5] 10)
      = some (some [16]) := by decide +kernel
  refine ⟨⟨_, rfl⟩, ?_⟩
  cases hp : generate ⟨[relay, overlapped]⟩ {} with
  | error e =>
      rw [hp] at hgen
      cases hgen
  | ok p =>
      rw [hp] at hgen
      exact ⟨p, rfl, Option.some.inj hgen⟩

end MirBackend.Asm
