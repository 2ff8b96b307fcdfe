/-
A call in both worlds.

A call starts in a frame behind the program: arguments, room for the results,
the link to nowhere (`startCall_slots`). There the interpreter and the machine
agree on the parameters, and nothing else is there yet (`Agrees.start`). When
the code comes to a return, the machine stops, and the results are where the
caller looks for them (`call_of_delivers`). So a function that works on values
and on memory of its own frame answers the same in both worlds
(`AddressLocal.answers`), for a function that takes no address of a value
whatever its run reads (`generate_preserves_local_answers`).
-/
import Mathlib
import MirBackend.Proofs.Asm.Placement
import MirBackend.Proofs.Func.Modules

namespace MirBackend.Asm

open Interp

variable {code : List Insn} {base : Nat} {t : Link.Table} {L : Layout}
  {B : Builder} {x : Scope} {σ : FrameSlots} {m : Module} {f : Func}
  {p : Program} {e : Entrypoint}

-- ================================================================== memory

/-- The slots behind the first are those from the next offset on. -/
theorem add_one_add_ofNat (off : Int32) (i : Nat) :
    off + 1 + Int32.ofNat i = off + Int32.ofNat (i + 1) := by
  rw [Int32.add_assoc, show (1 : Int32) = Int32.ofNat 1 from rfl,
    ← Int32.ofNat_add, Nat.add_comm]

namespace Machine

variable {s : Machine} {off : Int32} {vs : List Felt}

/-- Writing to memory moves neither register. -/
theorem writeAll_frame (s : Machine) (a : Int32) (vs : List Felt) :
    (s.writeAll a vs).pc = s.pc ∧ (s.writeAll a vs).fp = s.fp := by
  induction vs generalizing s a with
  | nil => exact ⟨rfl, rfl⟩
  | cons v vs ih => exact ih _ _

/-- Elements at consecutive addresses go to consecutive slots. -/
theorem writeAll_cons (s : Machine) (off : Int32) (v : Felt) (vs : List Felt) :
    s.writeAll (s.fp + off) (v :: vs)
      = (s.setSlot off v).writeAll ((s.setSlot off v).fp + (off + 1)) vs := by
  show (s.setSlot off v).writeAll (s.fp + off + 1) vs = _
  rw [Int32.add_assoc]
  rfl

/-- A slot outside the range keeps its word. -/
theorem slot?_writeAll_of_ne {o : Int32}
    (h : ∀ i < vs.length, o ≠ off + Int32.ofNat i) :
    (s.writeAll (s.fp + off) vs).slot? o = s.slot? o := by
  induction vs generalizing s off with
  | nil => rfl
  | cons v vs ih =>
      have hfirst := h 0 (Nat.zero_lt_succ _)
      rw [add_ofNat_zero] at hfirst
      rw [writeAll_cons, ih fun i hi => ?_, slot?_setSlot,
        Function.update_of_ne hfirst]
      rw [add_one_add_ofNat]
      exact h (i + 1) (Nat.succ_lt_succ hi)

/-- A slot in the range has the word that was written there. The range must not
come round the machine's addresses. -/
theorem slot?_writeAll (hlen : vs.length < 2 ^ 32) {i : Nat} {v : Felt}
    (hi : vs[i]? = some v) :
    (s.writeAll (s.fp + off) vs).slot? (off + Int32.ofNat i) = some v := by
  induction vs generalizing s off i with
  | nil => simp at hi
  | cons u vs ih =>
      rw [List.length_cons] at hlen
      rw [writeAll_cons]
      cases i with
      | zero =>
          cases hi
          rw [slot?_writeAll_of_ne fun j hj => ?_,
            slot?_setSlot, add_ofNat_zero, Function.update_self]
          rw [add_one_add_ofNat]
          intro heq
          have := add_ofNat_inj (by omega) (by omega) heq
          omega
      | succ i =>
          rw [← add_one_add_ofNat]
          exact ih (by omega) hi

/-- Words that are there can be read at once. -/
theorem readAll?_eq_some {a : Int32}
    (h : ∀ i v, vs[i]? = some v → s.read? (a + Int32.ofNat i) = some v) :
    s.readAll? a vs.length = some vs := by
  induction vs generalizing a with
  | nil => rfl
  | cons v vs ih =>
      have hfirst := h 0 v rfl
      rw [add_ofNat_zero] at hfirst
      have hrest := ih (a := a + 1) fun i u hu => by
        rw [add_one_add_ofNat]
        exact h (i + 1) u hu
      rw [List.length_cons, readAll?, hfirst, hrest]
      rfl

end Machine

-- =================================================================== start

/-- A frame at the start of a call: arguments below room for `n` results, and
the link to nowhere. The results are at the address. -/
structure Machine.Starts (s : Machine) (results : Int32) (args : List Felt)
    (n : Nat) : Prop where
  results : results = s.fp + Int32.ofInt (-(n : Int) - 2)
  arg : ∀ (i : Nat) v, args[i]? = some v →
    s.slot? (Int32.ofInt (-(args.length : Int) - n - 2 + i)) = some v
  link : s.slot? (-1) = some (.ofWord stopPc) ∧ s.slot? (-2) = some (.ofWord 0)

/-- A program started at an entry point stands there, with its arguments below
the frame, as a function that was called does. -/
theorem startCall_starts (args : List Felt) {n : Nat}
    (hn : Program.slotTotal e.returns = n)
    (hsmall : args.length + n + 2 < 2 ^ 31) : (p.startCall e args).pc = e.pc
      ∧ (p.startCall e args).Starts
      (Int32.ofNat p.items.length + Int32.ofNat args.length) args n := by
  obtain ⟨low, hlow⟩ : ∃ low,
      low = Int32.ofInt (-(args.length : Int) - n - 2) := ⟨_, rfl⟩
  have hslot (i : Nat) : low + Int32.ofNat i
      = Int32.ofInt (-(args.length : Int) - n - 2 + i) := by
    rw [hlow, ← Int32.ofInt_eq_ofNat, ← Int32.ofInt_add]
  have htop : low + Int32.ofNat (args.length + n) = -2 := by
    rw [hslot, show (-(args.length : Int) - n - 2 + (args.length + n : Nat))
      = -2 by omega]
    rfl
  -- the frame before anything is written to it
  obtain ⟨s, hs⟩ : ∃ s : Machine, s = ⟨e.pc,
    Int32.ofNat p.items.length + Int32.ofNat (args.length + n) + 2,
      p.dataMemory⟩ := ⟨_, rfl⟩
  have hbase : Int32.ofNat p.items.length = s.fp + low := by
    rw [hs]
    grind
  have hlink : (s.writeAll (s.fp + low) args).fp - 2
      = (s.writeAll (s.fp + low) args).fp + (-2) :=
    Int32.sub_eq_add_neg _ _
  have hstart : p.startCall e args = (s.writeAll (s.fp + low) args).writeAll
      ((s.writeAll (s.fp + low) args).fp + (-2)) [.ofWord 0,
      .ofWord stopPc] := by
    rw [← hlink, (s.writeAll_frame _ _).2, ← hbase, hs, ← hn]
    rfl
  rw [hstart]
  have hframe := (s.writeAll (s.fp + low) args).writeAll_frame
    ((s.writeAll (s.fp + low) args).fp + (-2)) [.ofWord 0, .ofWord stopPc]
  have hinner := s.writeAll_frame (s.fp + low) args
  refine ⟨?_, ?_, fun i v hi => ?_, ?_, ?_⟩
  · rw [hframe.1, hinner.1, hs]
  · rw [hframe.2, hinner.2, hbase, Int32.add_assoc, hslot,
      show (-(args.length : Int) - n - 2 + args.length) = -n - 2 by omega]
  · have hlt := (List.getElem?_eq_some_iff.mp hi).1
    rw [← hslot, Machine.slot?_writeAll_of_ne fun j hj heq => ?_]
    · exact Machine.slot?_writeAll (by omega) hi
    · have hj : j < 2 := hj
      rw [← htop, Int32.add_assoc, ← Int32.ofNat_add] at heq
      have := add_ofNat_inj (by omega) (by omega) heq
      omega
  · exact Machine.slot?_writeAll (i := 1) (by decide) rfl
  · exact Machine.slot?_writeAll (i := 0) (by decide) rfl

/-- The last place of a value among parameters is the last place where it gets
an argument. -/
theorem argFrame_of_last {xs : List Interp.Value}
    (hlen : xs.length = f.params.length) {i : Nat} {v : ValueId}
    {y : Interp.Value} (hv : f.params[i]? = some v)
    (hlast : v ∉ f.params.drop (i + 1)) (hy : xs[i]? = some y) :
    (argFrame f xs)[v]? = some y := by
  refine Interp.getElem?_insertAll_of_last (i := i) ?_ ?_
  · rw [List.getElem?_zip_eq_some]
    exact ⟨hv, hy⟩
  · rwa [List.map_drop, List.map_fst_zip hlen.ge]

/-- A function is entered with its arguments, and with nothing else, in its
frame. -/
theorem mirrors_argFrame {xs : List Interp.Value}
    (hcount : xs.length = x.func.params.length)
    (hparam : ∀ (i : Nat) v z, x.func.params[i]? = some v →
      v ∉ x.func.params.drop (i + 1) →
      xs[i]? = some z → ∃ s, L.spans[v]? = some s
          ∧ (z.slots.length : Int) = s.len.toInt
        ∧ Shows σ s.base z.slots) : x.Mirrors L (argFrame x.func xs) σ := by
  intro v z _ hz
  have hv : v ∈ x.func.params := by
    rcases Interp.getElem?_insertAll_cases hz with hmem | ⟨-, hempty⟩
    · exact (List.of_mem_zip hmem).1
    · rw [Std.ExtTreeMap.getElem?_empty] at hempty
      cases hempty
  obtain ⟨i, hi, hlast⟩ := Layout.exists_last hv
  have hlt : i < xs.length := hcount ▸ (List.getElem?_eq_some_iff.mp hi).1
  have hgiven := List.getElem?_eq_getElem hlt
  rw [argFrame_of_last hcount hi hlast hgiven, Option.some.injEq] at hz
  exact hz ▸ hparam i v _ hi hlast hgiven

/-- Arguments of one slot each are where the parameters are. -/
theorem mirrors_argValues (hL : Layout.Laid x.func L)
    (hparam : ∀ p ∈ x.func.params, (x.func.typeOf p).slots = 1)
    {args : List Int64} (hlen : args.length = x.func.params.length)
    (harg : ∀ i a, args[i]? = some a →
      σ (Int32.ofInt (Layout.paramAt x.func i)) = some (Felt.ofInt64 a)) :
    x.Mirrors L (argFrame x.func (argValues args)) σ := by
  refine mirrors_argFrame (by rw [argValues, List.length_map, hlen])
    fun i v z hi hlast hz => ?_
  rw [argValues, List.getElem?_map] at hz
  obtain ⟨a, ha, rfl⟩ := Option.map_eq_some_iff.mp hz
  refine ⟨_, hL.param i v hi hlast, ?_, ?_⟩
  · rw [hparam v (List.mem_of_getElem? hi)]
    rfl
  · intro j y hy
    obtain ⟨rfl, rfl⟩ : j = 0 ∧ (Felt.ofInt64 a).toInt64 = y := by
      cases j with
      | zero => exact ⟨rfl, Option.some.inj hy⟩
      | succ j => simp [Interp.feltSlots] at hy
    exact ⟨_, Felt.canonical_ofInt64 _,
      rfl, by rw [add_ofNat_zero, harg i _ ha]⟩

/-- At the start of a call, interpreter and frame agree on the parameters, and
no address is live. -/
theorem Agrees.start (hx : x.Framed L)
    (hparam : ∀ p ∈ x.func.params, (x.func.typeOf p).slots = 1)
    {args : List Int64} (hlen : args.length = x.func.params.length)
    (harg : ∀ i a, args[i]? = some a →
      σ (Int32.ofInt (Layout.paramAt x.func i)) = some (Felt.ofInt64 a))
    (hlink : σ (-1) = some (.ofWord stopPc) ∧ σ (-2) = some (.ofWord 0))
    (place : ValueId → Nat) :
    Agrees x L (fun _ => False) place
      (argFrame x.func (argValues args)) {} σ := by
  refine ⟨fun v y hv hy => ?_, fun _ _ _ _ _ _ h => h.elim,
    fun _ _ _ _ h => h.elim,
    fun _ _ _ _ h => h.elim, fun _ _ _ _ _ h => h.elim,
    fun _ _ _ _ _ _ _ _ _ h => h.elim,
    fun a _ => Std.ExtTreeMap.getElem?_empty, Nat.zero_lt_one,
    ⟨by decide, Nat.le_refl 1⟩, hlink⟩
  obtain ⟨s, hs, hcount, hshows⟩ :=
    mirrors_argValues hx.laid.toLaid hparam hlen harg v y hv hy
  exact ⟨s, hs, hcount, fun _ => hshows⟩

-- ================================================================= the end

/-- A machine that stops answers what is where the results are, given time
enough. -/
theorem call_of_stops {name : String} {args : List Int64}
    {vs : List Felt} {s : Machine} (he : p.entrypoints[name]? = some e)
    (hargs : Program.slotTotal e.args = args.length)
    (hsmall : p.code.length ≤ 2 ^ 30)
    (hgo : Machine.Goes p.code (p.startCall e (args.map Felt.ofInt64)) s)
    (hpc : s.pc = stopPc)
    (hread : s.readAll? (Int32.ofNat p.items.length + Int32.ofNat args.length)
      (Program.slotTotal e.returns) = some vs) :
    ∃ least, ∀ fuel, least ≤ fuel → p.call name args fuel
        = some (vs.map Felt.toInt64) := by
  obtain ⟨least, hleast⟩ := hgo.run hsmall hpc
  refine ⟨least, fun fuel hfuel => ?_⟩
  rw [Program.call, he]
  dsimp only [Option.bind_eq_bind, Option.bind_some]
  rw [if_pos hargs.symm, hleast fuel hfuel]
  dsimp only [Option.bind_some]
  rw [hread]
  rfl

/-- A call of code that comes to a return with the results in their slots
answers them, given time enough. -/
theorem call_of_goes {name : String} {args : List Int64} {xs : Interp.Slots}
    {s : Machine} {k : Nat} (hst : Standing p.code base t B)
    (he : p.entrypoints[name]? = some e)
    (hargs : Program.slotTotal e.args = args.length)
    (hreturns : Program.slotTotal e.returns = Ty.widthOfList f.returns)
    (hsmall : args.length + Ty.widthOfList f.returns + 2 < 2 ^ 31)
    (hgo : Machine.Goes p.code (p.startCall e (args.map Felt.ofInt64)) s)
    (hret : B.code[k]? = some { opcode := .ret })
    (hpc : s.pc = Int32.ofNat (base + k))
    (hfp : s.fp = (p.startCall e (args.map Felt.ofInt64)).fp)
    (hlen : xs.length = Ty.widthOfList f.returns)
    (hshows : Shows s.slot? (Int32.ofInt (Layout.resultsAt f)) xs)
    (hstop : s.slot? (-1) = some (.ofWord stopPc))
    (hnowhere : s.slot? (-2) = some (.ofWord 0)) :
    ∃ least, ∀ fuel, least ≤ fuel → p.call name args fuel = some xs := by
  obtain ⟨-, hstarts⟩ :=
    startCall_starts (p := p) (args.map Felt.ofInt64) hreturns
    (by rwa [List.length_map])
  -- the return takes the link out of the frame
  have hstep : Machine.step p.code s
      = some { s with pc := stopPc, fp := 0 } := by
    rw [hst.step_eq hret rfl hpc, if_pos (by rfl)]
    simp only [Machine.execute, hstop, hnowhere]
    rfl
  have hread : Machine.readAll? { s with pc := stopPc, fp := 0 }
      (Int32.ofNat p.items.length + Int32.ofNat args.length)
      (xs.map Felt.ofInt64).length
      = some (xs.map Felt.ofInt64) := by
    refine Machine.readAll?_eq_some fun i v hv => ?_
    rw [List.getElem?_map] at hv
    obtain ⟨y, hy, rfl⟩ := Option.map_eq_some_iff.mp hv
    obtain ⟨a, ha, rfl, hslot⟩ := hshows i y hy
    have hresults := hstarts.results
    rw [List.length_map] at hresults
    rw [Felt.ofInt64_toInt64 ha, hresults, ← hfp, Int32.add_assoc]
    exact hslot
  have hback : (xs.map Felt.ofInt64).map Felt.toInt64 = xs := by
    rw [List.map_map]
    refine (List.map_congr_left fun y hy => ?_).trans (List.map_id xs)
    obtain ⟨i, hi⟩ := List.mem_iff_getElem?.mp hy
    obtain ⟨a, ha, rfl, -⟩ := hshows i y hi
    exact congrArg Felt.toInt64 (Felt.ofInt64_toInt64 ha)
  rw [List.length_map, hlen, ← hreturns] at hread
  obtain ⟨least, hleast⟩ :=
    call_of_stops he hargs hst.small (hgo.tail hstep) rfl hread
  exact ⟨least, fun fuel hfuel =>
    (hleast fuel hfuel).trans (congrArg some hback)⟩

/-- A call of code that delivers results answers them, given time enough. -/
theorem call_of_delivers {name : String} {args : List Int64} {xs : Interp.Slots}
    (hst : Standing p.code base t B) (he : p.entrypoints[name]? = some e)
    (hpc : e.pc = Int32.ofNat base)
    (hargs : Program.slotTotal e.args = args.length)
    (hreturns : Program.slotTotal e.returns = Ty.widthOfList f.returns)
    (hsmall : args.length + Ty.widthOfList f.returns + 2 < 2 ^ 31)
    (h : Delivers p.code base f B 0
      (p.startCall e (args.map Felt.ofInt64)).slot? xs) :
    ∃ least, ∀ fuel, least ≤ fuel → p.call name args fuel = some xs := by
  obtain ⟨hstart, -⟩ :=
    startCall_starts (p := p) (args.map Felt.ofInt64) hreturns
    (by rwa [List.length_map])
  obtain ⟨k, σ', hret, hleads, hlen, hshows, hstop, hnowhere⟩ := h
  obtain ⟨s₁, hgo, hpc₁, hfp₁, rfl⟩ :=
    hleads _ (by rw [hstart, hpc, Nat.add_zero]) rfl
  exact call_of_goes hst he hargs hreturns hsmall hgo hret hpc₁ hfp₁ hlen
    hshows hstop hnowhere

-- ================================================================= answers

/-- Every load, store and step from an address that a call of a function
executes keeps to what is asked of it. -/
def KeepsInside (m : Module) (k : FuncId) (f : Func)
    (args : List Int64) : Prop :=
  ∀ cur i is fr w, Visits m k (argValues args) (Interp.Machine.still {}) k
    cur (i :: is) fr w →
    Inside f fr w.memory i

/-- The slots of several results are counted together. -/
theorem slotTotal_slotCounts (ns : List Int64) :
    Program.slotTotal (Generator.slotCounts ns)
        = (ns.map (·.toInt.toNat)).sum := by
  cases ns <;> rfl

/-- For types of a size the total is their width. -/
theorem slotTotal_returns {ts : List Ty} (h : Ty.widthOfList ts < 2 ^ 63) :
    Program.slotTotal (Generator.slotCounts (ts.map Ty.slots))
        = Ty.widthOfList ts := by
  rw [slotTotal_slotCounts, List.map_map]
  induction ts with
  | nil => rfl
  | cons t ts ih =>
      rw [Ty.widthOfList] at h ⊢
      rw [List.map_cons, List.sum_cons, ih (by omega), Function.comp_apply,
        Ty.toInt_slots t (by omega), Int.toNat_natCast]

/-- Parameters of one slot take as many slots as there are of them. -/
theorem slotTotal_params (hL : Layout.Laid f L)
    (hparam : ∀ p ∈ f.params, (f.typeOf p).slots = 1) :
    Program.slotTotal (Generator.slotCounts (f.params.map L.slots))
        = f.params.length := by
  rw [slotTotal_slotCounts, List.map_map,
    List.map_congr_left (g := fun _ => 1) fun v hv => ?_, List.map_const',
      List.sum_replicate,
    smul_eq_mul, Nat.mul_one]
  obtain ⟨i, hi, hlast⟩ := Layout.exists_last hv
  rw [Function.comp_apply, Layout.slots, hL.param i v hi hlast,
    Option.map_some, Option.getD_some, hparam v hv]
  rfl

/-- Values of one slot each take as many slots as there are of them. -/
theorem widthOf_eq_length {vs : List ValueId}
    (hone : ∀ v ∈ vs, (f.typeOf v).slots = 1)
    (h : Layout.widthOf f vs < 2 ^ 63) : Layout.widthOf f vs = vs.length := by
  induction vs with
  | nil => exact Layout.widthOf_nil f
  | cons v vs ih =>
      rw [Layout.widthOf_cons] at h ⊢
      have hwidth := Ty.toInt_slots (f.typeOf v) (by omega)
      rw [hone v List.mem_cons_self] at hwidth
      have hwidth : (1 : Int) = (f.typeOf v).width := hwidth
      rw [ih (fun w hw => hone w (List.mem_cons_of_mem _ hw)) (by omega),
        List.length_cons]
      omega

/-- Parameters of one slot each lie one after the other. -/
theorem paramAt_of_one (hL : Layout.Laid f L)
    (hparam : ∀ p ∈ f.params, (f.typeOf p).slots = 1) {i : Nat}
    (hi : i < f.params.length) :
    Layout.paramAt f i = -(f.params.length : Int)
        - Ty.widthOfList f.returns - 2 + i := by
  have hsig := hL.signature
  have htake := Layout.widthOf_take_le f f.params i
  rw [Layout.paramAt, Layout.bottom, widthOf_eq_length hparam (by omega),
    widthOf_eq_length (fun v hv => hparam v (List.mem_of_mem_take hv))
      (by omega),
    List.length_take, Nat.min_eq_left hi.le]

/-- What a call of a function on its own frame answers, its code answers. -/
theorem AddressLocal.answers {metadata : Metadata} {k : FuncId}
    (hnames : (m.functions.map (·.name)).Nodup)
    (hgen : generate m metadata = .ok p) (hsize : p.items.length ≤ 2 ^ 30)
    (hk : m.func? k = some f) (hf : AddressLocal f) {args : List Int64}
    {vs : List Interp.Value} {n : Nat} {w : Interp.Machine}
    (h : Answers m .none k (argValues args) (Interp.Machine.still {}) n vs w)
    (hkeeps : KeepsHome m k (argValues args) (Interp.Machine.still {}) k f) :
    ∃ least, ∀ fuel, least ≤ fuel → p.call f.name args fuel
        = some (vs.flatMap (·.slots)) := by
  obtain ⟨L, names, B, base, t, hL, hbody, hst, hentry⟩ :=
    generate_function hnames hgen hsize (Module.mem_of_func? hk)
  obtain ⟨parts⟩ := Generator.body_parts hbody
  obtain ⟨hx, pos, hcoded, hpos⟩ := parts.spec hf hL hst
  have hlaid := Layout.compute_laid hf.sized hL
  have hsig := hlaid.signature
  obtain ⟨f', blk, ps, hf', hcount, hblk, hps, hn⟩ := h
  rw [hk, Option.some.injEq] at hf'
  subst hf'
  have hlen : args.length = f.params.length := by
    rw [← hcount, argValues, List.length_map]
  have hwidth := widthOf_eq_length hf.param (by omega)
  have hsmall : args.length + Ty.widthOfList f.returns + 2 < 2 ^ 31 := by omega
  have hreturns :
      Program.slotTotal (Generator.slotCounts (f.returns.map Ty.slots))
      = Ty.widthOfList f.returns := slotTotal_returns (by omega)
  -- the frame of the call
  obtain ⟨e, he⟩ : ∃ e : Entrypoint, e = ⟨Int32.ofNat base,
    Generator.slotCounts (f.params.map L.slots),
      Generator.slotCounts (f.returns.map Ty.slots)⟩ :=
    ⟨_, rfl⟩
  rw [← he] at hentry
  have hslots : Program.slotTotal e.args = args.length
      ∧ Program.slotTotal e.returns
      = Ty.widthOfList f.returns := by
    rw [he, hlen]
    exact ⟨slotTotal_params hlaid hf.param, hreturns⟩
  obtain ⟨-, hstarts⟩ :=
    startCall_starts (p := p) (args.map Felt.ofInt64) hslots.2
    (by rwa [List.length_map])
  have harg (i : Nat) (a : Int64) (ha : args[i]? = some a) :
      (p.startCall e (args.map Felt.ofInt64)).slot?
        (Int32.ofInt (Layout.paramAt f i))
        = some (Felt.ofInt64 a) := by
    have hlt := (List.getElem?_eq_some_iff.mp ha).1
    have hthis := hstarts.arg i _ (by rw [List.getElem?_map, ha]; rfl)
    rw [List.length_map, hlen] at hthis
    rwa [paramAt_of_one hlaid hf.param (by omega)]
  -- the run of the interpreter begins at the first instruction of the entry
  have hphi : ∀ i ∈ blk.instrs, i.isPhi = false := fun i hi =>
    (hf.instr i ⟨f.entry, blk, hblk, hi⟩).not_phi
  have hv : Visits m k (argValues args) (Interp.Machine.still {}) k
      f.entry blk.body _ _ :=
    .start hk hblk hps
  rw [Func.leadingPhis_eq_nil hphi] at hps
  cases hps
  rw [Func.body_eq_instrs hphi] at hn hv
  obtain ⟨next, b, hb, hrem⟩ := hcoded f.entry blk hblk
  have hdelivers :=
    run_leads hf hx hcoded hst hk hkeeps hn hv hblk .entry List.drop_zero
    (Nat.zero_le _) hrem (.entry hf.fixed)
    (Agrees.start hx hf.param hlen harg hstarts.link fun _ => 0)
  rw [hb, hpos] at hdelivers
  exact call_of_delivers hst hentry (by rw [he]) hslots.1
    hslots.2 hsmall hdelivers

/-- The code of a function that works on values and on memory of its own frame
answers what the interpreter answers. -/
theorem generate_preserves_local_answers {metadata : Metadata} {k : FuncId}
    (hnames : (m.functions.map (·.name)).Nodup)
    (hgen : generate m metadata = .ok p) (hsize : p.items.length ≤ 2 ^ 30)
    (hk : m.func? k = some f) (hf : FrameLocal f) {args r : List Int64}
    {limit : Int} {w : Interp.Machine}
    (hcall : Interp.call m f.name args { limit } = .ok r w)
    (hinside : KeepsInside m k f args) :
    ∃ least, ∀ fuel, least ≤ fuel → p.call f.name args fuel = some r := by
  obtain ⟨k', vs, n, hk', rfl, hanswers, -⟩ := Interp.call_answers hcall
  rw [Module.lookup_of_nodup hnames hk, Option.some.injEq] at hk'
  subst hk'
  exact hf.address.answers hnames hgen hsize hk hanswers
    ⟨fun cur i is fr w hv => (hinside cur i is fr w hv).home,
      fun _ _ _ _ _ _ _ _ r v _ hi => (hf.no_addressOf r v hi).elim⟩

/-- A call of a function of one block, which returns, comes to its instructions
one after the other in the states `s`, and to no other place. -/
theorem visits_straight {blk : Block} {given : List Value} {w₀ : Interp.Machine}
    {s : Nat → Frame × Interp.Machine} (hblocks : f.blocks = [some blk])
    (hphis : ∀ i ∈ blk.instrs, i.isPhi = false)
    (hterm : ∀ fr c, nextOf fr blk.term ≠ some (.block c))
    (hstart : s 0 = (argFrame f given, w₀))
    (hstep : ∀ j i, blk.instrs[j]? = some i →
      exec ⟨[]⟩ refuse f (s j).1 i (s j).2 = .ok (s (j + 1)).1 (s (j + 1)).2)
    {k : FuncId} {cur : BlockId} {is : List Instr} {fr : Frame}
    {w : Interp.Machine} (h : Visits ⟨[f]⟩ 0 given w₀ k cur is fr w) :
    k = 0 ∧ cur = 0 ∧ ∃ j ≤ blk.instrs.length,
      is = blk.instrs.drop j ∧ fr = (s j).1
      ∧ w = (s j).2 := by
  have hhead {j : Nat} {i : Instr} {is : List Instr}
      (his : i :: is = blk.instrs.drop j) :
      blk.instrs[j]? = some i := by
        rw [← List.head?_drop, ← his, List.head?_cons]
  -- a call does not run alone
  have hcall {j : Nat} {ds : List ValueId} {c : FuncId}
      {as : List Operand} {sig : Signature}
      {is : List Instr} (his : .call ds c as sig :: is = blk.instrs.drop j) :
          False := by
    have hrun := hstep j _ (hhead his)
    cases c <;> cases hrun
  induction h with
  | start func entry phis =>
      cases func
      obtain ⟨hentry, rfl⟩ := Func.block?_of_blocks_eq hblocks entry
      rw [Func.leadingPhis_eq_nil hphis] at phis
      cases phis
      exact ⟨rfl, hentry, 0, Nat.zero_le _,
        Func.body_eq_instrs hphis, by rw [hstart]; rfl, by rw [hstart]⟩
  | instr here func run ih =>
      obtain ⟨rfl, rfl, j, hj, his, rfl, rfl⟩ := ih
      cases func
      have hi := hhead his
      rw [hstep j _ hi] at run
      cases run
      refine ⟨rfl, rfl, j + 1,
        (List.getElem?_eq_some_iff.mp hi).1, ?_, rfl, rfl⟩
      rw [← List.drop_drop, ← his, List.drop_one, List.tail_cons]
  | enter here callee args entry phis ih =>
      obtain ⟨-, -, j, -, his, -⟩ := ih
      exact (hcall his).elim
  | back here args answer ih =>
      obtain ⟨-, -, j, -, his, -⟩ := ih
      exact (hcall his).elim
  | jump here func block term target phis ih =>
      obtain ⟨rfl, rfl, -⟩ := ih
      cases func
      obtain ⟨-, rfl⟩ := Func.block?_of_blocks_eq hblocks block
      exact (hterm _ _ term).elim

/-- The argument goes to the second word of an allocation and comes back. -/
def spill : Func :=
  { name := "spill"
    params := [0]
    returns := [.felt]
    types :=
      .ofList ([(0, .felt), (1, .ptr (.tuple [.felt, .felt])), (2, .ptr .felt),
      (3, .felt)] : List (ValueId × Ty))
    nextValue := 4
    blocks := [some { name := "entry", term := some (.ret [.value 3]),
                      instrs := [.frameAlloc 1 (.tuple [.felt, .felt]),
                                 .elementPtr 2 (.value 1) (.int 1),
                                 .store (.value 2) (.value 0) .felt,
                                 .load 3 .felt (.value 2)] }] }

-- The function keeps its addresses to itself, and inside what they name.
theorem spill_local : FrameLocal spill := by
  have hinstr {i : Instr} (hi : spill.HasInstr i) :
      i = .frameAlloc 1 (.tuple [.felt, .felt])
      ∨ i = .elementPtr 2 (.value 1) (.int 1)
      ∨ i = .store (.value 2) (.value 0) .felt
      ∨ i = .load 3 .felt (.value 2) := by
    simpa using Func.hasInstr_of_blocks_eq (f := spill) rfl hi
  have haddr {v : ValueId} (h : FrameAddress spill v) : v = 1 ∨ v = 2 := by
    induction h with
    | home hhome =>
        obtain ⟨i, hi, hhome⟩ := hhome
        obtain rfl | rfl | rfl | rfl := hinstr hi <;> cases hhome
        exact Or.inl rfl
    | step hi hderives _ ih =>
        obtain rfl | rfl | rfl | rfl := hinstr hi <;> cases hderives
        exact Or.inr rfl
  refine ⟨fun i hi => ?_, fun c blk tm hc htm => ?_, fun p hp => ?_,
    ⟨by decide +kernel, ?_⟩, ⟨?_, ?_⟩⟩
  · obtain rfl | rfl | rfl | rfl := hinstr hi
    · exact rfl
    · exact ⟨rfl, rfl, rfl⟩
    · exact fun _ => rfl
    · exact rfl
  · obtain ⟨-, rfl⟩ := Func.block?_of_blocks_eq rfl hc
    cases htm
    intro p hp
    obtain rfl := List.mem_singleton.mp hp
    rfl
  · obtain rfl := List.mem_singleton.mp hp
    rfl
  · intro i hi d hd n hn
    obtain rfl | rfl | rfl | rfl := hinstr hi
    · obtain rfl := List.mem_singleton.mp hd
      cases hn
      decide
    · obtain rfl := List.mem_singleton.mp hd
      cases hn
      decide
    · cases hd
    · obtain rfl := List.mem_singleton.mp hd
      cases hn
      decide
  · intro v hv
    obtain rfl | rfl := haddr hv <;> exact ⟨by decide, by decide⟩
  · intro c blk j i hc _ hj v hv hva
    obtain ⟨rfl, rfl⟩ := Func.block?_of_blocks_eq rfl hc
    have hone (hv : v = 1) : spill.DefinedAt 0 0 v :=
      ⟨_, _, hc, rfl, by simp [hv, Instr.dests]⟩
    have htwo (hv : v = 2) : spill.DefinedAt 0 1 v :=
      ⟨_, _, hc, rfl, by simp [hv, Instr.dests]⟩
    match j with
    | 0 =>
        cases hj
        cases hv
    | 1 =>
        cases hj
        obtain rfl := List.mem_singleton.mp hv
        exact Or.inr ⟨0, 0, hone rfl, Or.inl ⟨rfl, by decide⟩⟩
    | j + 2 =>
        obtain rfl | rfl := haddr hva
        · exact Or.inr ⟨0, 0, hone rfl, Or.inl ⟨rfl, by omega⟩⟩
        · exact Or.inr ⟨0, 1, htwo rfl, Or.inl ⟨rfl, by omega⟩⟩

/-- The frame in which the function starts on the argument five, and with its
addresses. -/
def spillFrame : Frame := (∅ : Frame).insert 0 ⟨[5], 0⟩

def spillAddresses : Frame := (spillFrame.insert 1 ⟨[1], 0⟩).insert 2 ⟨[2], 0⟩

/-- The memory once two words are handed out. -/
def spillMemory : Memory := { size := 3, room := Storage.regrown 1 3 }

/-- Frame and machine before each of the instructions, and at the end. -/
def spillState : Nat → Frame × Interp.Machine
  | 0 => (spillFrame, Interp.Machine.still {})
  | 1 => (spillFrame.insert 1 ⟨[1], 0⟩,
      { Interp.Machine.still {} with memory := spillMemory })
  | 2 => (spillAddresses,
      { Interp.Machine.still {} with memory := spillMemory })
  | 3 => (spillAddresses,
      { Interp.Machine.still {} with memory := spillMemory.write 2 [5] })
  | _ => (spillAddresses.insert 3 ⟨[5], 0⟩,
      { Interp.Machine.still {} with memory := spillMemory.write 2 [5] })

/-- The places that the function comes to on the argument five. -/
theorem spill_visits {k : FuncId} {cur : BlockId} {is : List Instr} {fr : Frame}
    {w : Interp.Machine}
    (h : Visits ⟨[spill]⟩ 0 (argValues [5])
      (Interp.Machine.still {}) k cur is fr w) :
    k = 0 ∧ cur = 0 ∧ ∃ j ≤ 4, is = [.frameAlloc 1 (.tuple [.felt, .felt]),
        .elementPtr 2 (.value 1) (.int 1), .store (.value 2) (.value 0) .felt,
        .load 3 .felt (.value 2)].drop j
      ∧ fr = (spillState j).1 ∧ w = (spillState j).2 := by
  refine visits_straight (f := spill) rfl (by decide) (fun fr c h => ?_) rfl
    (fun j i hi => ?_) h
  · obtain ⟨_, _, hnext⟩ := Option.map_eq_some_iff.mp h
    cases hnext
  · match j with
    | 0 | 1 | 2 | 3 =>
        cases hi
        rfl
    | j + 4 => cases hi

theorem spill_inside : KeepsInside ⟨[spill]⟩ 0 spill [5] := by
  intro cur i is fr w hv
  have halloc : spill.HasInstr (.frameAlloc 1 (.tuple [.felt, .felt])) :=
    ⟨0, _, rfl, List.mem_cons_self⟩
  have hderived : Derived spill 1 2 1 :=
    .step (i := .elementPtr 2 (.value 1) (.int 1)) ⟨0, _,
      rfl, by simp⟩ rfl (by decide) .refl
  -- a store and a load go to the second word
  have haccess {o : Operand} {t : Ty} (heq : (o, t) = (.value 2, .felt)) :
      t.Flat ∧ ∃ r u v k start a,
      spill.HasInstr (.frameAlloc r u) ∧ o = .value v ∧ Derived spill r v k
      ∧ lookScalar spillAddresses (.value r) = some start
      ∧ lookScalar spillAddresses o = some a
      ∧ start ≤ a ∧ ∀ m, u.size = some m →
      a.toInt + t.width ≤ start.toInt + m.toInt := by
    cases heq
    refine ⟨?_, 1, _, 2, 1, 1, 2, halloc, rfl, hderived, rfl,
      rfl, by decide, fun m hm => ?_⟩
    · exact .scalar rfl fun _ _ h => by cases h
    · cases hm
      decide
  obtain ⟨-, -, j, hj, his, rfl, rfl⟩ := spill_visits hv
  match j, hj with
  | 0, _ =>
      cases his
      exact ⟨fun o t h => (by cases h), fun d t o a h => (by cases h),
        fun d l r y z h => (by cases h)⟩
  | 1, _ =>
      cases his
      refine ⟨fun o t h => (by cases h), fun d t o a h => (by cases h),
        fun d l r y z h hl => ?_⟩
      cases h
      exact absurd (.home ⟨_, halloc, rfl⟩) (hl 1 rfl)
  | 2, _ =>
      cases his
      exact ⟨fun o t h => haccess (Option.some.inj h).symm,
        fun d t o a h => (by cases h), fun d l r y z h => (by cases h)⟩
  | 3, _ =>
      cases his
      refine ⟨fun o t h => haccess (Option.some.inj h).symm,
        fun d t o a h ha => ?_, fun d l r y z h => (by cases h)⟩
      cases h
      have ha : some 2 = some a := ha
      cases ha
      intro j hj
      obtain rfl : j = 0 := Nat.lt_one_iff.mp hj
      exact Std.ExtTreeMap.mem_insert_self
  | 4, _ => cases his

/-- The address is known beforehand, so the argument stays in the frame, and it
comes back. -/
theorem generate_preserves_local_answers_spill : FrameLocal spill
    ∧ KeepsInside ⟨[spill]⟩ 0 spill [5]
    ∧ (∃ w, call ⟨[spill]⟩ "spill" [5] { limit := 5 } = .ok [5] w)
    ∧ ∃ p, generate ⟨[spill]⟩ {} = .ok p ∧ p.items.length = 4
      ∧ ∃ least, ∀ fuel, least ≤ fuel → p.call "spill" [5] fuel = some [5] := by
  have hgen : (generate ⟨[spill]⟩ {}).toOption.map (·.items.length)
      = some 4 := by decide +kernel
  cases hp : generate ⟨[spill]⟩ {} with
  | error e =>
      rw [hp] at hgen
      cases hgen
  | ok p =>
      rw [hp] at hgen
      have hitems : p.items.length = 4 := Option.some.inj hgen
      obtain ⟨w, hw⟩ : ∃ w, call ⟨[spill]⟩ spill.name [5] { limit := 5 }
        = .ok [5] w := ⟨_, rfl⟩
      exact ⟨spill_local, spill_inside, ⟨w, hw⟩, p, rfl, hitems,
        generate_preserves_local_answers (by decide) hp (by omega) (k := 0)
          rfl spill_local hw
          spill_inside⟩

/-- A step from an address that was given. -/
def stepped : Func :=
  { name := "step"
    params := [0]
    returns := [.ptr .felt]
    types := .ofList ([(0, .ptr .felt), (1, .ptr .felt)] : List (ValueId × Ty))
    nextValue := 2
    blocks := [some { name := "entry", term := some (.ret [.value 1]),
                      instrs := [.elementPtr 1 (.value 0) (.int 1)] }] }

/-- The function that steps over a place's end still keeps its addresses local.
-/
theorem stepped_local : FrameLocal stepped := by
  have hnone {v : ValueId} (h : FrameAddress stepped v) : False := by
    induction h with
    | home hhome =>
        obtain ⟨i, hi, hhome⟩ := hhome
        obtain rfl := List.mem_singleton.mp (Func.hasInstr_of_blocks_eq rfl hi)
        cases hhome
    | step _ _ _ ih => exact ih
  refine ⟨fun i hi => ?_, fun c blk tm hc htm => ?_, fun p hp => ?_,
    ⟨by decide +kernel, ?_⟩, ⟨?_, ?_⟩⟩
  · obtain rfl := List.mem_singleton.mp (Func.hasInstr_of_blocks_eq rfl hi)
    exact ⟨rfl, rfl, rfl⟩
  · obtain ⟨-, rfl⟩ := Func.block?_of_blocks_eq rfl hc
    cases htm
    intro p hp
    obtain rfl := List.mem_singleton.mp hp
    rfl
  · obtain rfl := List.mem_singleton.mp hp
    rfl
  · intro i hi d hd n hn
    obtain rfl := List.mem_singleton.mp (Func.hasInstr_of_blocks_eq rfl hi)
    obtain rfl := List.mem_singleton.mp hd
    cases hn
    decide
  · exact fun v hv => (hnone hv).elim
  · exact fun _ _ _ _ _ _ _ v _ hv => (hnone hv).elim

/-- The interpreter adds addresses as integers, the code in the field. -/
theorem generate_reduces_given_addresses : FrameLocal stepped
    ∧ (∀ i, stepped.HasInstr i → stepped.access? i = none)
    ∧ (∃ w, call ⟨[stepped]⟩ "step" [2147483646] { limit := 2 }
      = .ok [2147483647] w)
    ∧ ∃ p, generate ⟨[stepped]⟩ {} = .ok p ∧ p.items.length = 3
      ∧ p.call "step" [2147483646] 3 = some [0] := by
  have hgen : (generate ⟨[stepped]⟩ {}).toOption.map (fun p => (p.items.length,
      p.call "step" [2147483646] 3)) = some (3, some [0]) := by decide +kernel
  refine ⟨stepped_local, fun i hi => ?_, ⟨_, rfl⟩, ?_⟩
  · obtain rfl := List.mem_singleton.mp (Func.hasInstr_of_blocks_eq rfl hi)
    rfl
  · cases hp : generate ⟨[stepped]⟩ {} with
    | error e =>
        rw [hp] at hgen
        cases hgen
    | ok p =>
        rw [hp] at hgen
        obtain ⟨hitems, hcall⟩ := Prod.mk.inj (Option.some.inj hgen)
        exact ⟨p, rfl, hitems, hcall⟩

end MirBackend.Asm
