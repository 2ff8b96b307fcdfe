/-
Runs that return.

The interpreter counts steps against a bound and recurs on what is left of it.
`Returns` tells the same runs without either: from what is left of a block, in
a frame and a machine whose clock is put aside, so many steps lead to a return
with these values. It has one rule for each thing a running function does
next. What the interpreter answers is such a run (`call_answers`), and such a
run is what it answers when the bound leaves room (`Answers.call_ok`).

A run may be asked to keep a promise `Q` whenever it leaves a block.
-/
import Mathlib
import MirBackend.Proofs.Interp.Instr

namespace MirBackend.Interp

/-- What a run keeps whenever a function leaves a block for another: the
function's number, the block and the frame at its end. -/
abbrev Promise := FuncId → BlockId → Frame → Prop

/-- The frame a function starts in. -/
def argFrame (f : Func) (xs : List Value) : Frame :=
  insertAll ∅ (f.params.zip xs)

/-- From what is left of the block `cur` of a function, in a frame and a
machine, `n` steps lead to a return with values `vs` and leave the machine
`w'`. -/
inductive Returns (m : Module) (Q : Promise) :
    FuncId → BlockId → List Instr → Frame → Machine → Nat → List Value →
      Machine → Prop where
  | instr {k : FuncId} {f : Func} {cur : BlockId} {i : Instr}
      {is : List Instr} {fr fr₁ : Frame}
      {w w₁ w' : Machine} {n : Nat} {vs : List Value}
      (func : m.func? k = some f)
      (run : exec ⟨[]⟩ refuse f fr i w = .ok fr₁ w₁)
      (rest : Returns m Q k cur is fr₁ w₁ n vs w') :
          Returns m Q k cur (i :: is) fr w (n + 1) vs w'
  | call {k c : FuncId} {g : Func} {gb : Block} {cur : BlockId}
      {ds : List ValueId}
      {as : List Operand} {sig : Signature} {is : List Instr} {fr : Frame}
      {w w₁ w' : Machine}
      {xs rs vs : List Value} {ps : List (ValueId × Value)} {n₁ n₂ : Nat}
      (callee : m.func? c = some g) (args : as.mapM (look fr) = some xs)
      (count : xs.length = g.params.length) (entry : g.block? g.entry = some gb)
      (phis : phiLooks (argFrame g xs) noBlock gb.leadingPhis = some ps)
      (body : Returns m Q c g.entry gb.body
      (insertAll (argFrame g xs) ps) w n₁ rs w₁)
      (results : ds = [] ∨ ds.length = rs.length)
      (rest : Returns m Q k cur is (insertAll fr (ds.zip rs)) w₁ n₂ vs w') :
      Returns m Q k cur (.call ds c as sig :: is) fr w (n₁ + n₂ + 1) vs w'
  | jump {k : FuncId} {f : Func} {cur next : BlockId} {b nb : Block}
      {fr : Frame} {w w' : Machine}
      {ps : List (ValueId × Value)} {n : Nat} {vs : List Value}
      (func : m.func? k = some f)
      (block : f.block? cur = some b) (keeps : Q k cur fr)
      (term : nextOf fr b.term = some (.block next)) (there : next ≠ noBlock)
      (target : f.block? next = some nb) (phis :
          phiLooks fr cur nb.leadingPhis = some ps)
      (rest : Returns m Q k next nb.body (insertAll fr ps) w n vs w') :
      Returns m Q k cur [] fr w (n + 1) vs w'
  | ret {k : FuncId} {f : Func} {cur : BlockId} {b : Block}
      {fr : Frame} {w : Machine}
      {vs : List Value} (func : m.func? k = some f)
      (block : f.block? cur = some b)
      (term : nextOf fr b.term = some (.ret vs)) :
          Returns m Q k cur [] fr w 1 vs w
  | leave {k : FuncId} {f : Func} {cur : BlockId} {b : Block}
      {fr : Frame} {w : Machine}
      (func : m.func? k = some f) (block : f.block? cur = some b)
      (term : nextOf fr b.term = some (.block noBlock)) :
          Returns m Q k cur [] fr w 1 [] w

/-- A call of a function with values for its parameters. -/
def Answers (m : Module) (Q : Promise) (k : FuncId) (xs : List Value)
    (w : Machine) (n : Nat) (vs : List Value) (w' : Machine) : Prop :=
  ∃ f b ps, m.func? k = some f ∧ xs.length = f.params.length
    ∧ f.block? f.entry = some b
    ∧ phiLooks (argFrame f xs) noBlock b.leadingPhis = some ps
    ∧ Returns m Q k f.entry b.body (insertAll (argFrame f xs) ps) w n vs w'

/-- No promise at all. -/
def Promise.none : Promise := fun _ _ _ => True

/-- A run that keeps a promise is a run. -/
theorem Returns.forget {m : Module} {Q : Promise} {k : FuncId}
    {cur : BlockId} {is : List Instr} {fr : Frame} {w w' : Machine}
    {n : Nat} {vs : List Value} (h : Returns m Q k cur is fr w n vs w') :
    Returns m .none k cur is fr w n vs w' := by
  induction h with
  | instr func run rest ih => exact .instr func run ih
  | call callee args count entry phis body results rest ihbody ihrest =>
      exact .call callee args count entry phis ihbody results ihrest
  | jump func block keeps term there target phis rest ih =>
      exact .jump func block trivial term there target phis ih
  | ret func block term => exact .ret func block term
  | leave func block term => exact .leave func block term

/-- An answer under a promise is one under none. -/
theorem Answers.forget {m : Module} {Q : Promise} {k : FuncId}
    {xs : List Value} {w w' : Machine} {n : Nat} {vs : List Value}
    (h : Answers m Q k xs w n vs w') : Answers m .none k xs w n vs w' := by
  obtain ⟨f, b, ps, hf, hcount, hb, hps, hn⟩ := h
  exact ⟨f, b, ps, hf, hcount, hb, hps, hn.forget⟩

-- ======================================================== what is left over

/-- What the interpreter does from the `j`-th instruction of a block on. -/
def finish (m : Module) (fuel : Nat) (f : Func) (cur : BlockId)
    (b : Block) (j : Nat) (is : List Instr) (fr : Frame) :
    Exec (List Value) := do
  let fr ← execAll m (callWith (runFrom m fuel)) f cur j is fr
  tick
  match ← under ("block " ++ blockText cur ++ ": terminator")
    (execTerm fr b.term) with
  | .ret vs => return vs
  | .block next => if next
      = noBlock then return [] else runFrom m fuel f fr cur next

/-- A run from a block enters it and does what is left. -/
theorem runFrom_ok_iff {m : Module} {fuel : Nat} {f : Func} {fr : Frame}
    {prev cur : BlockId} {s s' : Machine} {vs : List Value} :
    runFrom m (fuel + 1) f fr prev cur s = .ok vs s'
      ↔ ∃ b ps, f.block? cur = some b ∧ phiLooks fr prev b.leadingPhis = some ps
        ∧ finish m fuel f cur b b.phiCount b.body
        (insertAll fr ps) s = .ok vs s' := by
  rw [runFrom]
  cases hb : f.block? cur with
  | none =>
      constructor
      · intro h
        exact absurd h failWith_ne_ok
      · intro h
        obtain ⟨b, -, hb, -⟩ := h
        cases hb
  | some b =>
      dsimp only
      rw [bind_ok_iff]
      simp only [under_ok_iff, enterBlock_ok_iff]
      constructor
      · intro h
        obtain ⟨fr₁, s₁, ⟨⟨ps, hps, rfl⟩, rfl⟩, h⟩ := h
        exact ⟨b, ps, rfl, hps, h⟩
      · intro h
        obtain ⟨b', ps, hb', hps, h⟩ := h
        cases hb'
        exact ⟨_, s, ⟨⟨ps, hps, rfl⟩, rfl⟩, h⟩

/-- Counting a step. -/
theorem tick_run (s : Machine) :
    tick s = if ((s.steps + 1 : Nat) : Int) > s.limit
      then .error (.fail .stepLimit) (s.clocked (s.steps + 1) s.limit)
      else .ok () (s.clocked (s.steps + 1) s.limit) := by
  show (if ((s.steps + 1 : Nat) : Int) > s.limit
    then (failWith .stepLimit : Exec Unit)
    else pure ()) (s.clocked (s.steps + 1) s.limit) = _
  split <;> rfl

/-- A step is taken as long as the limit allows one more. -/
theorem tick_ok_iff {s s' : Machine} {u : Unit} :
    tick s = .ok u s' ↔ (s.steps : Int) + 1 ≤ s.limit ∧ s' = s.clocked
      (s.steps + 1) s.limit := by
  rw [tick_run]
  split
  · next hlate =>
    constructor
    · intro h
      cases h
    · intro h
      omega
  · next htime =>
    rw [EStateM.Result.ok.injEq]
    constructor
    · intro h
      exact ⟨by omega, h.2.symm⟩
    · intro h
      exact ⟨rfl, h.2.symm⟩

/-- Instructions succeed in turn, with a tick for each. -/
theorem execAll_cons_ok_iff {m : Module} {caller : Caller} {f : Func}
    {cur : BlockId} {j : Nat} {i : Instr} {is : List Instr} {fr fr₂ : Frame}
    {s s' : Machine} :
    execAll m caller f cur j (i :: is) fr s = .ok fr₂ s'
      ↔ (s.steps : Int) + 1 ≤ s.limit ∧ ∃ fr₁ s₁,
        exec m caller f fr i (s.clocked (s.steps + 1) s.limit) = .ok fr₁ s₁
        ∧ execAll m caller f cur (j + 1) is fr₁ s₁ = .ok fr₂ s' := by
  rw [execAll, bind_ok_iff]
  simp only [tick_ok_iff]
  constructor
  · intro h
    obtain ⟨-, s₁, ⟨htime, rfl⟩, h⟩ := h
    obtain ⟨fr₁, s₁, hexec, hall⟩ := bind_ok_iff.mp h
    exact ⟨htime, fr₁, s₁, under_ok_iff.mp hexec, hall⟩
  · intro h
    obtain ⟨htime, fr₁, s₁, hexec, hall⟩ := h
    exact ⟨(), _, ⟨htime, rfl⟩,
      bind_ok_iff.mpr ⟨fr₁, s₁, under_ok_iff.mpr hexec, hall⟩⟩

/-- What is left starts with an instruction. -/
theorem finish_cons_ok_iff {m : Module} {fuel : Nat} {f : Func}
    {cur : BlockId} {b : Block} {j : Nat} {i : Instr} {is : List Instr}
    {fr : Frame} {s s' : Machine} {vs : List Value} :
    finish m fuel f cur b j (i :: is) fr s = .ok vs s'
      ↔ (s.steps : Int) + 1 ≤ s.limit ∧ ∃ fr₁ s₁,
        exec m (callWith (runFrom m fuel)) f fr i
          (s.clocked (s.steps + 1) s.limit) = .ok fr₁ s₁
        ∧ finish m fuel f cur b (j + 1) is fr₁ s₁ = .ok vs s' := by
  unfold finish
  rw [bind_ok_iff]
  simp only [execAll_cons_ok_iff]
  constructor
  · intro h
    obtain ⟨fr₂, s₂, ⟨htime, fr₁, s₁, hexec, hall⟩, hrest⟩ := h
    exact ⟨htime, fr₁, s₁, hexec, bind_ok_iff.mpr ⟨fr₂, s₂, hall, hrest⟩⟩
  · intro h
    obtain ⟨htime, fr₁, s₁, hexec, h⟩ := h
    obtain ⟨fr₂, s₂, hall, hrest⟩ := bind_ok_iff.mp h
    exact ⟨fr₂, s₂, ⟨htime, fr₁, s₁, hexec, hall⟩, hrest⟩

/-- What is left is the terminator. -/
theorem finish_nil_ok_iff {m : Module} {fuel : Nat} {f : Func}
    {cur : BlockId} {b : Block} {j : Nat} {fr : Frame} {s s' : Machine}
    {vs : List Value} :
    finish m fuel f cur b j [] fr s = .ok vs s'
      ↔ (s.steps : Int) + 1 ≤ s.limit ∧ ∃ next, nextOf fr b.term = some next
        ∧ match next with
          | .ret rs => rs = vs ∧ s.clocked (s.steps + 1) s.limit = s'
          | .block t =>
              if t = noBlock then [] = vs ∧ s.clocked (s.steps + 1) s.limit = s'
              else runFrom m fuel f fr cur t
                (s.clocked (s.steps + 1) s.limit) = .ok vs s' := by
  unfold finish
  rw [execAll, pure_bind, bind_ok_iff]
  simp only [bind_ok_iff, tick_ok_iff, under_ok_iff, execTerm_ok_iff]
  constructor
  · intro h
    obtain ⟨-, s₁, ⟨htime, rfl⟩, next, s₂, ⟨hnext, rfl⟩, h⟩ := h
    refine ⟨htime, next, hnext, ?_⟩
    cases next with
    | ret rs => exact pure_ok_iff.mp h
    -- a jump to the watched block ends the run, any other enters its block
    | block t =>
        dsimp only at h ⊢
        split
        · next ht =>
          rw [if_pos ht] at h
          exact pure_ok_iff.mp h
        · next ht =>
          rw [if_neg ht] at h
          exact h
  · intro h
    obtain ⟨htime, next, hnext, h⟩ := h
    refine ⟨(), _, ⟨htime, rfl⟩, next, _, ⟨hnext, rfl⟩, ?_⟩
    cases next with
    | ret rs => exact pure_ok_iff.mpr h
    | block t =>
        dsimp only at h ⊢
        split
        · next ht =>
          rw [if_pos ht] at h
          exact pure_ok_iff.mpr h
        · next ht =>
          rw [if_neg ht] at h
          exact h

/-- A call gives the parameters their values and enters the function. -/
theorem callWith_ok_iff {go : Func → Frame → BlockId → BlockId →
      Exec (List Value)} {f : Func}
    {xs : List Value} {s s' : Machine} {vs : List Value} :
    callWith go f xs s = .ok vs s'
      ↔ xs.length = f.params.length ∧ go f
      (argFrame f xs) noBlock f.entry s = .ok vs s' := by
  unfold callWith
  split
  · next hne =>
    constructor
    · intro h
      exact absurd h failWith_ne_ok
    · intro h
      exact absurd h.1 hne
  · next heq =>
    constructor
    · intro h
      exact ⟨not_not.mp heq, h⟩
    · intro h
      exact h.2

/-- A call succeeds if its arguments are there, the callee returns and the
results are as many as are asked for. -/
theorem execCall_ok_iff {m : Module} {caller : Caller} {fr fr₁ : Frame}
    {ds : List ValueId} {c : FuncId} {as : List Operand} {s s' : Machine} :
    execCall m caller fr ds c as s = .ok fr₁ s'
      ↔ ∃ g xs rs, m.func? c = some g ∧ as.mapM (look fr) = some xs
        ∧ caller g xs s = .ok rs s'
        ∧ (ds = [] ∨ ds.length = rs.length) ∧ fr₁
        = insertAll fr (ds.zip rs) := by
  unfold execCall
  cases hg : m.func? c with
  | none =>
      constructor
      · intro h
        exact absurd h failWith_ne_ok
      · intro h
        obtain ⟨g, -, -, hg, -⟩ := h
        cases hg
  | some g =>
      dsimp only
      rw [bind_ok_iff]
      simp only [evalArgs_ok_iff]
      constructor
      · intro h
        obtain ⟨xs, s₁, ⟨hxs, rfl⟩, h⟩ := h
        obtain ⟨rs, s₂, hrs, h⟩ := bind_ok_iff.mp h
        rw [under_ok_iff] at hrs
        split at h
        · exact absurd (bind_ok_iff.mp h)
            (by rintro ⟨_, _, h, -⟩; exact failWith_ne_ok h)
        -- the callee gave a value for each destination, or there is none
        · next hlen =>
          obtain ⟨rfl, rfl⟩ := pure_ok_iff.mp h
          refine ⟨g, xs, rs, rfl, hxs, hrs, ?_, rfl⟩
          by_cases h0 : ds.length = 0
          · exact Or.inl (List.length_eq_zero_iff.mp h0)
          · exact Or.inr (by omega)
      · intro h
        obtain ⟨g', xs, rs, hg', hxs, hrs, hlen, rfl⟩ := h
        cases hg'
        refine ⟨xs, s, ⟨hxs, rfl⟩,
          bind_ok_iff.mpr ⟨rs, s', under_ok_iff.mpr hrs, ?_⟩⟩
        rw [if_neg]
        · rfl
        · rcases hlen with rfl | hlen
          · simp
          · omega

-- ============================================================ told as a run

/-- `n` steps were taken, and there was room for them. -/
structure Spent (s s' : Machine) (n : Nat) : Prop where
  steps : s'.steps = s.steps + n
  limit : s'.limit = s.limit
  room : (s.steps : Int) + n ≤ s.limit

/-- Steps add up. -/
theorem Spent.trans {s s₁ s' : Machine} {n k : Nat} (h : Spent s s₁ n)
    (h' : Spent s₁ s' k) : Spent s s' (n + k) := by
  have := h'.room
  rw [h.steps, h.limit] at this
  exact ⟨by rw [h'.steps, h.steps]; omega, by rw [h'.limit, h.limit],
    by push_cast at this ⊢; omega⟩

/-- A tick is one step. -/
theorem Spent.tick {s : Machine} (h : (s.steps : Int) + 1 ≤ s.limit) :
    Spent s (s.clocked (s.steps + 1) s.limit) 1 :=
  ⟨rfl, rfl, h⟩

/-- What takes no time can follow. -/
theorem Spent.timeless {α : Type} {x : Exec α} {a : α}
    {s s₁ s' : Machine} {n : Nat} (h : Spent s s₁ n) (ht : Timeless x)
    (hx : x s₁ = .ok a s') : Spent s s' n := by
  obtain ⟨hsteps, hlimit⟩ := ht.clock hx
  exact ⟨hsteps.trans h.steps, hlimit.trans h.limit, h.room⟩

variable {m : Module} {Q : Promise}

/-- What is left of a block is a run, when runs from blocks are. -/
theorem finish_returns {fuel : Nat}
    (ih :
    ∀ {k : FuncId} {f : Func} {fr : Frame} {prev cur : BlockId} {s s' : Machine}
      {vs : List Value}, m.func? k = some f →
      runFrom m fuel f fr prev cur s = .ok vs s' →
      ∃ b ps n, f.block? cur = some b ∧ phiLooks fr prev b.leadingPhis = some ps
        ∧ Returns m .none k cur b.body
        (insertAll fr ps) s.still n vs s'.still ∧ Spent s s' n)
    {k : FuncId} {f : Func} {cur : BlockId} {b : Block} {j : Nat}
    {is : List Instr} {fr : Frame} {s s' : Machine} {vs : List Value}
    (hf : m.func? k = some f) (hb : f.block? cur = some b)
    (h : finish m fuel f cur b j is fr s = .ok vs s') :
    ∃ n, Returns m .none k cur is fr s.still n vs s'.still ∧ Spent s s' n := by
  induction is generalizing j fr s with
  | nil =>
      obtain ⟨htime, next, hnext, h⟩ := finish_nil_ok_iff.mp h
      cases next with
      | ret rs =>
          -- the function returns
          obtain ⟨rfl, rfl⟩ := h
          exact ⟨1, .ret hf hb hnext, .tick htime⟩
      | block t =>
          dsimp only at h
          split at h
          -- the jump leaves the stretch that is watched
          · next ht =>
            subst ht
            obtain ⟨rfl, rfl⟩ := h
            exact ⟨1, .leave hf hb hnext, .tick htime⟩
          -- the jump enters a block, whose run is shorter in fuel
          · next ht =>
            obtain ⟨nb, ps, n, hnb, hps, hrest, hspent⟩ := ih hf h
            refine ⟨n + 1, .jump hf hb trivial hnext ht hnb hps hrest, ?_⟩
            rw [Nat.add_comm]
            exact (Spent.tick htime).trans hspent
  | cons i is ihis =>
      obtain ⟨htime, fr₁, s₁, hexec, hrest⟩ := finish_cons_ok_iff.mp h
      obtain ⟨n, hn, hspent⟩ := ihis hrest
      -- a call runs the callee's blocks, any other instruction stays in the
      -- frame
      by_cases hcall : ∃ ds c as sig, i = .call ds c as sig
      · obtain ⟨ds, c, as, sig, rfl⟩ := hcall
        obtain ⟨g, xs, rs, hg, hxs, hrs, hlen, rfl⟩ := execCall_ok_iff.mp hexec
        obtain ⟨hcount, hrun⟩ := callWith_ok_iff.mp hrs
        obtain ⟨gb, ps, n₁, hgb, hps, hbody, hspent₁⟩ := ih hg hrun
        refine ⟨n₁ + n + 1, .call hg hxs hcount hgb hps hbody hlen hn, ?_⟩
        rw [show n₁ + n + 1 = 1 + n₁ + n by omega]
        exact ((Spent.tick htime).trans hspent₁).trans hspent
      · have halone := exec_alone m (callWith (runFrom m fuel)) f fr (i := i)
          fun ds c as sig hi => hcall ⟨ds, c, as, sig, hi⟩
        rw [halone] at hexec
        have ht := exec_timeless f fr i
        have hstill := ht.still hexec
        rw [Machine.still_clocked] at hstill
        refine ⟨n + 1, .instr hf hstill hn, ?_⟩
        rw [Nat.add_comm]
        exact ((Spent.tick htime).timeless ht hexec).trans hspent

/-- What the interpreter answers is a run. -/
theorem runFrom_returns {fuel : Nat} {k : FuncId} {f : Func} {fr : Frame}
    {prev cur : BlockId} {s s' : Machine} {vs : List Value}
    (hf : m.func? k = some f) (h : runFrom m fuel f fr prev cur s = .ok vs s') :
    ∃ b ps n, f.block? cur = some b ∧ phiLooks fr prev b.leadingPhis = some ps
      ∧ Returns m .none k cur b.body (insertAll fr ps) s.still n vs s'.still
      ∧ Spent s s' n := by
  induction fuel generalizing k f fr prev cur s s' vs with
  | zero => exact absurd h failWith_ne_ok
  | succ fuel ih =>
      obtain ⟨b, ps, hb, hps, hfin⟩ := runFrom_ok_iff.mp h
      obtain ⟨n, hn, hspent⟩ := finish_returns ih hf hb hfin
      exact ⟨b, ps, n, hb, hps, hn, hspent⟩

-- ========================================================= run with a bound

/-- What is not bound to the clock, at another time. -/
theorem Timeless.at {α : Type} {x : Exec α} (ht : Timeless x) {a : α}
    {s w w₁ : Machine} (hx : x w = .ok a w₁) (hs : s.still = w.still)
    (n : Nat) (l : Int) : x (s.clocked n l) = .ok a (w₁.clocked n l) := by
  rw [← Machine.clocked_still s, hs, Machine.clocked_still]
  exact ht w a w₁ hx n l

/-- A run is what the interpreter does, if the bound leaves room for it. -/
theorem Returns.finish_ok {k : FuncId} {cur : BlockId}
    {is : List Instr} {fr : Frame} {w w' : Machine} {n : Nat} {vs : List Value}
    (h : Returns m Q k cur is fr w n vs w') {f : Func} {b : Block}
    (hf : m.func? k = some f) (hb : f.block? cur = some b) (j : Nat)
    {s : Machine} (hs : s.still = w.still)
    (hroom : (s.steps : Int) + n ≤ s.limit) {fuel : Nat} (hfuel : n ≤ fuel) :
    ∃ s', finish m fuel f cur b j is fr s = .ok vs s' ∧ s'.still = w'.still
        ∧ Spent s s' n := by
  induction h generalizing f b j s fuel with
  -- one step of the limit for the instruction, and the rest for what follows
  | @instr k f₀ cur i is fr fr₁ w w₁ w' n vs func run rest ih =>
      rw [func, Option.some.injEq] at hf
      subst hf
      have hi : ∀ ds c as sig, i ≠ .call ds c as sig := by
        intro ds c as sig hi
        subst hi
        cases c <;> exact failWith_ne_ok run
      have ht := exec_timeless f₀ fr i
      obtain ⟨s', hfin, hstill, hspent⟩ := ih func hb (j + 1)
        (s := w₁.clocked (s.steps + 1) s.limit) rfl
        (show ((s.steps + 1 : Nat) : Int) + n
        ≤ s.limit by push_cast at hroom ⊢; omega)
        (show n ≤ fuel by omega)
      refine ⟨s', finish_cons_ok_iff.mpr ⟨by push_cast at hroom; omega, fr₁, _,
        ?_, hfin⟩, hstill, ?_⟩
      · rw [exec_alone _ _ _ _ hi]
        exact ht.at run hs _ _
      · have hone : Spent s (w₁.clocked (s.steps + 1) s.limit) 1 :=
          ⟨rfl, rfl, by push_cast at hroom; omega⟩
        rw [Nat.add_comm]
        exact hone.trans hspent
  -- a step for the call, those of the callee, and those of the rest; the
  -- callee's depth of calls is one less
  | @call k c g gb cur ds as sig is fr w w₁ w' xs rs vs ps n₁ n₂ callee args
      count entry phis body
      results rest ihbody ihrest =>
      obtain ⟨fuel, rfl⟩ : ∃ fuel', fuel = fuel' + 1 := ⟨fuel - 1, by omega⟩
      have hone : Spent s (s.clocked (s.steps + 1) s.limit) 1 :=
        .tick (by push_cast at hroom; omega)
      obtain ⟨s₁, hrun, hstill₁, hspent₁⟩ := ihbody callee entry gb.phiCount
        (s := s.clocked (s.steps + 1) s.limit)
        (by rw [Machine.still_clocked]; exact hs)
        (show ((s.steps + 1 : Nat) : Int) + n₁
        ≤ s.limit by push_cast at hroom ⊢; omega)
        (show n₁ ≤ fuel by omega)
      have hspent := hone.trans hspent₁
      obtain ⟨s', hfin, hstill, hspent₂⟩ := ihrest hf hb (j + 1) hstill₁
        (by rw [hspent.steps, hspent.limit]; push_cast at hroom ⊢; omega)
        (show n₂ ≤ fuel + 1 by omega)
      refine ⟨s', finish_cons_ok_iff.mpr ⟨hone.room, _, s₁, ?_, hfin⟩, hstill,
        ?_⟩
      · refine execCall_ok_iff.mpr ⟨g, xs, rs, callee, args, ?_, results, rfl⟩
        exact callWith_ok_iff.mpr ⟨count,
          runFrom_ok_iff.mpr ⟨gb, ps, entry, phis, hrun⟩⟩
      · rw [show n₁ + n₂ + 1 = 1 + n₁ + n₂ by omega]
        exact hspent.trans hspent₂
  -- a step for the terminator
  | @jump k f₀ cur next b₀ nb fr w w' ps n vs func block keeps term there
    target phis rest ih =>
      rw [func, Option.some.injEq] at hf
      subst hf
      rw [block, Option.some.injEq] at hb
      subst hb
      obtain ⟨fuel, rfl⟩ : ∃ fuel', fuel = fuel' + 1 := ⟨fuel - 1, by omega⟩
      have hone : Spent s (s.clocked (s.steps + 1) s.limit) 1 :=
        .tick (by push_cast at hroom; omega)
      obtain ⟨s', hrun, hstill, hspent⟩ := ih func target nb.phiCount
        (s := s.clocked (s.steps + 1) s.limit)
        (by rw [Machine.still_clocked]; exact hs)
        (show ((s.steps + 1 : Nat) : Int) + n
        ≤ s.limit by push_cast at hroom ⊢; omega)
        (show n ≤ fuel by omega)
      refine ⟨s', finish_nil_ok_iff.mpr ⟨hone.room, _, term, ?_⟩, hstill, ?_⟩
      · dsimp only
        rw [if_neg there]
        exact runFrom_ok_iff.mpr ⟨nb, ps, target, phis, hrun⟩
      · rw [Nat.add_comm]
        exact hone.trans hspent
  -- returning takes its step and leaves the machine
  | @ret k f₀ cur b₀ fr w vs func block term =>
      rw [func, Option.some.injEq] at hf
      subst hf
      rw [block, Option.some.injEq] at hb
      subst hb
      exact ⟨s.clocked (s.steps + 1) s.limit,
        finish_nil_ok_iff.mpr ⟨hroom, _, term, rfl, rfl⟩, hs, .tick hroom⟩
  | @leave k f₀ cur b₀ fr w func block term =>
      rw [func, Option.some.injEq] at hf
      subst hf
      rw [block, Option.some.injEq] at hb
      subst hb
      refine ⟨s.clocked (s.steps + 1) s.limit,
        finish_nil_ok_iff.mpr ⟨hroom, _, term, ?_⟩, hs, .tick hroom⟩
      exact ⟨rfl, rfl⟩

-- =================================================================== calls

/-- Arguments of one slot each, as values. -/
def argValues (args : List Int64) : List Value :=
  args.map fun a => ⟨feltSlots (Felt.ofInt64 a), 0⟩

/-- Calling a function by name is looking it up and calling it on the arguments
given. -/
theorem call_ok_iff_callFunc {name : String} {args r : List Int64}
    {s s' : Machine} :
    call m name args s = .ok r s' ↔ ∃ k f vs, m.lookup name = some k
        ∧ m.func? k = some f
      ∧ callFunc m f (argValues args) s = .ok vs s'
      ∧ r = vs.flatMap (·.slots) := by
  unfold call
  cases hk : m.lookup name with
  | none =>
      constructor
      · intro h
        exact absurd h failWith_ne_ok
      · intro h
        obtain ⟨k, f, vs, hk, -⟩ := h
        cases hk
  | some k =>
      rw [Option.bind_some]
      cases hf : m.func? k with
      | none =>
          constructor
          · intro h
            exact absurd h failWith_ne_ok
          · intro h
            obtain ⟨k', f, vs, hk', hf', -⟩ := h
            cases hk'
            rw [hf] at hf'
            cases hf'
      | some f =>
          dsimp only
          rw [bind_ok_iff]
          simp only [under_ok_iff, pure_ok_iff]
          constructor
          · intro h
            obtain ⟨vs, s₁, hvs, rfl, rfl⟩ := h
            exact ⟨k, f, vs, rfl, hf, hvs, rfl⟩
          · intro h
            obtain ⟨k', f', vs, hk', hf', hvs, rfl⟩ := h
            cases hk'
            rw [hf, Option.some.injEq] at hf'
            subst hf'
            exact ⟨vs, s', hvs, rfl, rfl⟩

/-- What a call answers, it answers by a run. -/
theorem call_answers {name : String} {args r : List Int64} {s s' : Machine}
    (h : call m name args s = .ok r s') :
    ∃ k vs n, m.lookup name = some k ∧ r = vs.flatMap (·.slots)
      ∧ Answers m .none k (argValues args) s.still n vs s'.still
      ∧ Spent s s' n := by
  obtain ⟨k, f, vs, hk, hf, hvs, hr⟩ := call_ok_iff_callFunc.mp h
  have hvs : callWith (runFrom m ((s.limit - s.steps).toNat + 1)) f
    (argValues args) s
    = .ok vs s' := hvs
  obtain ⟨hcount, hrun⟩ := callWith_ok_iff.mp hvs
  obtain ⟨b, ps, n, hb, hps, hn, hspent⟩ := runFrom_returns hf hrun
  exact ⟨k, vs, n, hk, hr, ⟨f, b, ps, hf, hcount, hb, hps, hn⟩, hspent⟩

/-- A run is what a call answers, if the bound leaves room for it. -/
theorem Answers.call_ok {k : FuncId} {name : String} {args : List Int64}
    {w w' : Machine} {n : Nat} {vs : List Value}
    (h : Answers m Q k (argValues args) w n vs w') (hk : m.lookup name = some k)
    {s : Machine} (hs : s.still = w.still)
    (hroom : (s.steps : Int) + n ≤ s.limit) :
    ∃ s', call m name args s = .ok (vs.flatMap (·.slots)) s'
        ∧ s'.still = w'.still
      ∧ Spent s s' n := by
  obtain ⟨f, b, ps, hf, hcount, hb, hps, hn⟩ := h
  obtain ⟨s', hfin, hstill, hspent⟩ := hn.finish_ok hf hb b.phiCount hs hroom
    (show n ≤ (s.limit - s.steps).toNat by omega)
  -- the fuel of a call is its step limit, which the run stays under
  refine ⟨s', call_ok_iff_callFunc.mpr ⟨k, f, vs, hk, hf, ?_, rfl⟩, hstill,
    hspent⟩
  show callWith (runFrom m ((s.limit - s.steps).toNat + 1)) f (argValues args) s
    = _
  exact callWith_ok_iff.mpr ⟨hcount, runFrom_ok_iff.mpr ⟨b, ps, hb, hps, hfin⟩⟩

/-- A run is what a call answers under every bound that is large enough. -/
theorem Answers.call_in_time {k : FuncId} {name : String}
    {args : List Int64} {s w : Machine} {n : Nat} {vs : List Value}
    (h : Answers m Q k (argValues args) s.still n vs w)
    (hk : m.lookup name = some k) : ∃ steps : Int, ∀ limit ≥ steps, ∃ t,
      call m name args { s with limit } = .ok (vs.flatMap (·.slots)) t
      ∧ t.memory = w.memory ∧ t.trace = w.trace := by
  refine ⟨s.steps + n, fun limit hlimit => ?_⟩
  obtain ⟨t, ht, hstill, -⟩ := h.call_ok hk (s := { s with limit }) rfl hlimit
  have hmemory : t.still.memory = w.still.memory := by rw [hstill]
  have htrace : t.still.trace = w.still.trace := by rw [hstill]
  exact ⟨t, ht, hmemory, htrace⟩

-- ================================================================== visits

/-- A call of the function `start` comes, in itself or in a call it makes, to a
place: what is left of a block of a function, in a frame and a machine. -/
inductive Visits (m : Module) (start : FuncId)
    (given : List Value) (w₀ : Machine) :
    FuncId → BlockId → List Instr → Frame → Machine → Prop where
  | start {f : Func} {b : Block} {ps : List (ValueId × Value)}
      (func : m.func? start = some f)
      (entry : f.block? f.entry = some b)
      (phis : phiLooks (argFrame f given) noBlock b.leadingPhis = some ps) :
      Visits m start given w₀ start f.entry b.body
        (insertAll (argFrame f given) ps) w₀
  | instr {k : FuncId} {f : Func} {cur : BlockId} {i : Instr}
      {is : List Instr} {fr fr₁ : Frame}
      {w w₁ : Machine} (here : Visits m start given w₀ k cur (i :: is) fr w)
      (func : m.func? k = some f)
      (run : exec ⟨[]⟩ refuse f fr i w = .ok fr₁ w₁) :
      Visits m start given w₀ k cur is fr₁ w₁
  | enter {k c : FuncId} {g : Func} {gb : Block} {cur : BlockId}
      {ds : List ValueId}
      {as : List Operand} {sig : Signature} {is : List Instr}
      {fr : Frame} {w : Machine}
      {xs : List Value} {ps : List (ValueId × Value)}
      (here : Visits m start given w₀ k cur (.call ds c as sig :: is) fr w)
      (callee : m.func? c = some g) (args : as.mapM (look fr) = some xs)
      (entry : g.block? g.entry = some gb)
      (phis : phiLooks (argFrame g xs) noBlock gb.leadingPhis = some ps) :
      Visits m start given w₀ c g.entry gb.body (insertAll (argFrame g xs) ps) w
  | back {k c : FuncId} {cur : BlockId} {ds : List ValueId}
      {as : List Operand} {sig : Signature}
      {is : List Instr} {fr : Frame} {w w₁ : Machine}
      {xs rs : List Value} {n : Nat}
      (here : Visits m start given w₀ k cur (.call ds c as sig :: is) fr w)
      (args : as.mapM (look fr) = some xs) (answer :
          Answers m .none c xs w n rs w₁) :
      Visits m start given w₀ k cur is (insertAll fr (ds.zip rs)) w₁
  | jump {k : FuncId} {f : Func} {cur next : BlockId} {b nb : Block}
      {fr : Frame} {w : Machine}
      {ps : List (ValueId × Value)} (here :
          Visits m start given w₀ k cur [] fr w)
      (func : m.func? k = some f) (block : f.block? cur = some b)
      (term : nextOf fr b.term = some (.block next))
      (target : f.block? next = some nb)
      (phis : phiLooks fr cur nb.leadingPhis = some ps) :
      Visits m start given w₀ k next nb.body (insertAll fr ps) w

/-- A run keeps what holds at the end of every block it comes to. -/
theorem Returns.promise {start : FuncId} {given : List Value} {w₀ : Machine}
    (hQ : ∀ k cur fr w, Visits m start given w₀ k cur [] fr w → Q k cur fr)
    {k : FuncId} {cur : BlockId} {is : List Instr} {fr : Frame} {w w' : Machine}
    {n : Nat} {vs : List Value} (h : Returns m .none k cur is fr w n vs w')
    (hv : Visits m start given w₀ k cur is fr w) :
    Returns m Q k cur is fr w n vs w' := by
  induction h with
  | instr func run rest ih => exact .instr func run (ih (hv.instr func run))
  | call callee args count entry phis body results rest ihbody ihrest =>
      -- what holds of every visited place holds in the callee and again behind
      -- it
      refine .call callee args count entry phis
        (ihbody (hv.enter callee args entry phis)) results ?_
      exact ihrest (hv.back args ⟨_, _, _, callee, count, entry, phis, body⟩)
  | jump func block keeps term there target phis rest ih =>
      exact .jump func block (hQ _ _ _ _ hv) term there target phis
        (ih (hv.jump func block term target phis))
  | ret func block term => exact .ret func block term
  | leave func block term => exact .leave func block term

/-- A promise that holds wherever the run comes may be added to it. -/
theorem Answers.promise {k : FuncId} {xs : List Value}
    {w w' : Machine} {n : Nat} {vs : List Value}
    (h : Answers m .none k xs w n vs w')
    (hQ : ∀ k' cur fr w₁, Visits m k xs w k' cur [] fr w₁ → Q k' cur fr) :
    Answers m Q k xs w n vs w' := by
  obtain ⟨f, b, ps, hf, hcount, hb, hps, hn⟩ := h
  exact ⟨f, b, ps, hf, hcount, hb, hps, hn.promise hQ (.start hf hb hps)⟩

end MirBackend.Interp
