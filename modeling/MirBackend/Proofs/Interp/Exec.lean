/-
Parts of a run, taken one at a time.

A part of a run answers when its steps do, so answers are read off step by
step (`bind_ok_iff`). Reading operands neither needs nor touches the machine:
`look` says what they are, `phiLooks` what phis take on an edge, and `nextOf`
where a terminator leads. A part that is not bound to the time on the clock is
`Timeless`.
-/
import Mathlib
import MirBackend.Interp.Run

namespace MirBackend.Interp

variable {α β : Type}

-- =============================================================== sequences

/-- The state that an action leaves, whether it answers or not. -/
def left {ε σ : Type} : EStateM.Result ε σ α → σ
  | .ok _ s => s
  | .error _ s => s

/-- Two steps, the second from where the first ends. -/
theorem bind_run {ε σ : Type} (x : EStateM ε σ α)
    (k : α → EStateM ε σ β) (s : σ) : (x >>= k) s = match x s with
      | .ok a s₁ => k a s₁
      | .error e s₁ => .error e s₁ := by
  show EStateM.bind x k s = _
  unfold EStateM.bind
  cases x s <;> rfl

/-- Two steps answer when both do. -/
theorem bind_ok_iff {ε σ : Type} {x : EStateM ε σ α} {k : α → EStateM ε σ β}
    {s t : σ} {b : β} :
    (x >>= k) s = .ok b t ↔ ∃ a s₁, x s = .ok a s₁ ∧ k a s₁ = .ok b t := by
  rw [bind_run]
  cases hx : x s with
  | ok a s₁ =>
      constructor
      · intro h
        exact ⟨a, s₁, rfl, h⟩
      · intro h
        obtain ⟨a', s', heq, h⟩ := h
        cases heq
        exact h
  | error e s₁ =>
      constructor
      · intro h
        cases h
      · intro h
        obtain ⟨a', s', heq, -⟩ := h
        cases heq

-- When the parts of a step succeed, and with what.
theorem pure_ok_iff {a b : α} {s t : Machine} :
    (pure a : Exec α) s = .ok b t ↔ a = b ∧ s = t := by
  show EStateM.Result.ok a s = .ok b t ↔ _
  constructor
  · intro h
    cases h
    exact ⟨rfl, rfl⟩
  · intro h
    rw [h.1, h.2]

theorem failWith_ne_ok {e : RunError} {s t : Machine} {a : α} :
    (failWith e : Exec α) s ≠ .ok a t := by
  intro h
  cases h

theorem under_ok_iff {heading : String} {x : Exec α} {s t : Machine} {a : α} :
    under heading x s = .ok a t ↔ x s = .ok a t := by
  unfold under
  rcases x s with ⟨b, s'⟩ | ⟨h | e, s'⟩ <;> simp

theorem lift_ok_iff {x : Access α} {s t : Machine} {a : α} :
    lift x s = .ok a t ↔ x = .ok a ∧ s = t := by
  cases x with
  | ok b =>
      rw [show lift (.ok b : Access α) = pure b from rfl, pure_ok_iff]
      simp
  | error e =>
      constructor
      · intro h
        cases h
      · intro h
        cases h.1

theorem sure_ok_iff {x : Checked α} {s t : Machine} {a : α} :
    sure x s = .ok a t ↔ x = .ok a ∧ s = t := by
  unfold sure
  rw [lift_ok_iff]
  cases x with
  | ok b => simp [liftChecked]
  | error e => simp [liftChecked]

-- ==================================================================== time

/-- A machine with another time on its clock. -/
def Machine.clocked (s : Machine) (steps : Nat) (limit : Int) : Machine :=
  { s with steps, limit }

/-- A machine with its clock put aside. -/
def Machine.still (s : Machine) : Machine := s.clocked 0 0

-- Setting the clock, and leaving it out.
@[simp] theorem Machine.clocked_clocked (s : Machine) (n k : Nat) (l j : Int) :
    (s.clocked n l).clocked k j = s.clocked k j := rfl

@[simp] theorem Machine.still_clocked (s : Machine) (n : Nat) (l : Int) :
    (s.clocked n l).still = s.still := rfl

@[simp] theorem Machine.clocked_still (s : Machine) (n : Nat) (l : Int) :
    s.still.clocked n l = s.clocked n l := rfl

/-- A machine is its own still state at its own time. -/
theorem Machine.clocked_self (s : Machine) :
    s.clocked s.steps s.limit = s := rfl

/-- An answer that would be the same at any time, and takes none. -/
def Timeless (x : Exec α) : Prop :=
  ∀ s a s', x s = .ok a s' → ∀ n l, x (s.clocked n l) = .ok a (s'.clocked n l)

namespace Timeless

/-- No time passes. -/
theorem clock {x : Exec α} (h : Timeless x) {s s' : Machine} {a : α}
    (hx : x s = .ok a s') : s'.steps = s.steps ∧ s'.limit = s.limit := by
  have hs := h s a s' hx s.steps s.limit
  rw [Machine.clocked_self, hx, EStateM.Result.ok.injEq] at hs
  rw [hs.2]
  exact ⟨rfl, rfl⟩

/-- A step that does not look at the clock does the same without one. -/
theorem still {x : Exec α} (h : Timeless x) {s s' : Machine} {a : α}
    (hx : x s = .ok a s') : x s.still = .ok a s'.still :=
  h s a s' hx 0 0

-- Not looking at the clock is kept by every way in which steps are put
-- together.
theorem pure (a : α) : Timeless (Pure.pure a : Exec α) := by
  intro s b s' h n l
  obtain ⟨rfl, rfl⟩ := pure_ok_iff.mp h
  rfl

theorem fail (e : RunError) : Timeless (failWith e : Exec α) :=
  fun _ _ _ h => absurd h failWith_ne_ok

theorem bind {x : Exec α} {k : α → Exec β} (hx : Timeless x)
    (hk : ∀ a, Timeless (k a)) : Timeless (x >>= k) := by
  intro s b s' h n l
  obtain ⟨a, s₁, h₁, h₂⟩ := bind_ok_iff.mp h
  exact bind_ok_iff.mpr ⟨a, _, hx s a s₁ h₁ n l, hk a s₁ b s' h₂ n l⟩

theorem lift (x : Access α) : Timeless (lift x) := by
  intro s a s' h n l
  obtain ⟨hx, rfl⟩ := lift_ok_iff.mp h
  exact lift_ok_iff.mpr ⟨hx, rfl⟩

theorem sure (x : Checked α) : Timeless (sure x) := Timeless.lift _

theorem need (x : Option α) : Timeless (need x) := Timeless.sure _

/-- Looking at the machine, when the clock is not looked at. -/
theorem get_bind {k : Machine → Exec β}
    (hclock : ∀ s n l, k (s.clocked n l) = k s) (hk : ∀ s, Timeless (k s)) :
    Timeless (get >>= k) := by
  intro s b s' h n l
  have h : k s s = .ok b s' := h
  show k (s.clocked n l) (s.clocked n l) = _
  rw [hclock]
  exact hk s s b s' h n l

/-- Changing the machine, when the clock is left alone. -/
theorem modify {g : Machine → Machine}
    (hg : ∀ s n l, g (s.clocked n l) = (g s).clocked n l) :
    Timeless (modify g : Exec Unit) := by
  intro s a s' h n l
  have h : EStateM.Result.ok () (g s) = .ok a s' := h
  cases h
  show EStateM.Result.ok () (g (s.clocked n l)) = _
  rw [hg]

theorem mapM {g : α → Exec β} {as : List α} (hg : ∀ a ∈ as, Timeless (g a)) :
    Timeless (as.mapM g) := by
  induction as with
  | nil => exact Timeless.pure _
  | cons a as ih =>
      rw [List.mapM_cons]
      refine (hg a List.mem_cons_self).bind fun b => ?_
      exact (ih fun c hc => hg c (List.mem_cons_of_mem _ hc)).bind
        fun _ => Timeless.pure _

end Timeless

-- ================================================================ operands

/-- A frame with values assigned one after the other. -/
def insertAll (fr : Frame) (vs : List (ValueId × Value)) : Frame :=
  vs.foldl (fun fr (d, v) => fr.insert d v) fr

/-- The value of an operand, if it has one. -/
def look (fr : Frame) : Operand → Option Value
  | .value id => fr[id]?
  | .int n => some ⟨feltSlots (Felt.ofInt64 n.toInt64), 0⟩
  | .bool b => some ⟨[bit b], 0⟩
  | .unit => some default
  | .error | .invalid => none

/-- Evaluating an operand answers what looking it up does, and leaves the
machine. -/
theorem eval_ok_iff {fr : Frame} {v : Operand} {x : Value} {s t : Machine} :
    eval fr v s = .ok x t ↔ look fr v = some x ∧ s = t := by
  cases v with
  | value id =>
      unfold eval look
      dsimp only
      cases fr[id]? with
      | none =>
          constructor
          · intro h
            exact absurd h failWith_ne_ok
          · intro h
            cases h.1
      | some y => simp only [pure_ok_iff, Option.some.injEq]
  | int n | bool b | unit =>
      unfold eval look
      simp only [pure_ok_iff, Option.some.injEq]
  | error | invalid =>
      constructor
      · intro h
        exact absurd h failWith_ne_ok
      · intro h
        cases h.1

/-- The slot of an operand of one slot. -/
theorem scalar_ok_iff {fr : Frame} {v : Operand} {x : Int64} {s t : Machine} :
    scalar fr v s = .ok x t
        ↔ (∃ y, look fr v = some y ∧ y.slots = [x]) ∧ s = t := by
  unfold scalar
  rw [bind_ok_iff]
  constructor
  · intro h
    obtain ⟨y, s₁, hy, h⟩ := h
    obtain ⟨hlook, rfl⟩ := eval_ok_iff.mp hy
    rcases hz : y.slots with - | ⟨z, - | ⟨z', zs⟩⟩
    · rw [hz] at h
      exact absurd h failWith_ne_ok
    · rw [hz] at h
      obtain ⟨rfl, rfl⟩ := pure_ok_iff.mp h
      exact ⟨⟨y, hlook, hz⟩, rfl⟩
    · rw [hz] at h
      exact absurd h failWith_ne_ok
  · intro h
    obtain ⟨⟨y, hlook, hy⟩, rfl⟩ := h
    refine ⟨y, s, eval_ok_iff.mpr ⟨hlook, rfl⟩, ?_⟩
    rw [hy]
    rfl

/-- The values of operands, one by one. -/
theorem mapM_eval_ok_iff {fr : Frame} {vs : List Operand}
    {xs : List Value} {s t : Machine} :
    vs.mapM (eval fr) s = .ok xs t ↔ vs.mapM (look fr) = some xs ∧ s = t := by
  induction vs generalizing xs s t with
  | nil =>
      rw [List.mapM_nil, List.mapM_nil, pure_ok_iff]
      simp
  | cons v vs ih =>
      rw [List.mapM_cons, List.mapM_cons, bind_ok_iff]
      simp only [bind_ok_iff, eval_ok_iff, ih, pure_ok_iff, Option.bind_eq_bind,
        Option.bind_eq_some_iff, Option.pure_def, Option.some.injEq]
      constructor
      · intro h
        obtain ⟨x, s₁, ⟨hx, rfl⟩, ys, s₂, ⟨hys, rfl⟩, rfl, rfl⟩ := h
        exact ⟨⟨x, hx, ys, hys, rfl⟩, rfl⟩
      · intro h
        obtain ⟨⟨x, hx, ys, hys, rfl⟩, rfl⟩ := h
        exact ⟨x, s, ⟨hx, rfl⟩, ys, s, ⟨hys, rfl⟩, rfl, rfl⟩

/-- The values of call arguments. -/
theorem evalArgs_ok_iff {fr : Frame} {args : List Operand}
    {n : Nat} {xs : List Value} {s t : Machine} :
    evalArgs fr (args.zipIdx n) s = .ok xs t ↔ args.mapM
      (look fr) = some xs ∧ s = t := by
  induction args generalizing xs n s t with
  | nil =>
      rw [List.zipIdx_nil, evalArgs, List.mapM_nil, pure_ok_iff]
      simp
  | cons a args ih =>
      rw [List.zipIdx_cons, evalArgs, List.mapM_cons, bind_ok_iff]
      simp only [bind_ok_iff, under_ok_iff, eval_ok_iff, ih, pure_ok_iff,
        Option.bind_eq_bind,
        Option.bind_eq_some_iff, Option.pure_def, Option.some.injEq]
      constructor
      · intro h
        obtain ⟨x, s₁, ⟨hx, rfl⟩, ys, s₂, ⟨hys, rfl⟩, rfl, rfl⟩ := h
        exact ⟨⟨x, hx, ys, hys, rfl⟩, rfl⟩
      · intro h
        obtain ⟨⟨x, hx, ys, hys, rfl⟩, rfl⟩ := h
        exact ⟨x, s, ⟨hx, rfl⟩, ys, s, ⟨hys, rfl⟩, rfl, rfl⟩

/-- The values that phis take on an edge. -/
def phiLooks (fr : Frame) (prev : BlockId) : List Instr →
    Option (List (ValueId × Value))
  | .phi d _ ss :: rest => do
      let s ← ss.find? (·.block = prev)
      let x ← look fr s.value
      return (d, x) :: (← phiLooks fr prev rest)
  | _ => some []

/-- The first phi is looked up by its first source for the block that control
came from, the others after it. -/
theorem phiLooks_cons {fr : Frame} {prev : BlockId} {d : ValueId} {t : Ty}
    {ss : List PhiSource} {is : List Instr} :
    phiLooks fr prev (.phi d t ss :: is)
      = ((ss.find? (·.block = prev)).map (·.value)).bind fun v =>
      (look fr v).bind fun x =>
        (phiLooks fr prev is).map fun ps => (d, x) :: ps := by
  rw [phiLooks]
  cases ss.find? (·.block = prev) with
  | none => rfl
  | some s =>
      cases hx : look fr s.value with
      | none => simp [hx]
      | some x => cases hps : phiLooks fr prev is <;> simp [hx]

/-- Evaluating the phis answers what looking them up does. -/
theorem phiValues_ok_iff {fr : Frame} {prev cur : BlockId} {is : List Instr}
    {vs : List (ValueId × Value)} {s t : Machine} :
    phiValues fr prev cur is s = .ok vs t ↔ phiLooks fr prev is
        = some vs ∧ s = t := by
  induction is generalizing vs s t with
  | nil => simp only [phiValues, phiLooks, pure_ok_iff, Option.some.injEq]
  | cons i is ih =>
      cases i with
      | phi d ty ss =>
          rw [phiValues, phiLooks]
          cases hfind : ss.find? (·.block = prev) with
          | none =>
              constructor
              · intro h
                exact absurd h failWith_ne_ok
              · intro h
                cases h.1
          | some src =>
              simp only [bind_ok_iff, under_ok_iff,
                eval_ok_iff, ih, pure_ok_iff,
                Option.bind_eq_bind, Option.bind_eq_some_iff, Option.pure_def,
                  Option.some.injEq,
                exists_eq_left']
              constructor
              · intro h
                obtain ⟨x, s₁, ⟨hx, rfl⟩, ys, s₂, ⟨hys, rfl⟩, rfl, rfl⟩ := h
                exact ⟨⟨x, hx, ys, hys, rfl⟩, rfl⟩
              · intro h
                obtain ⟨⟨x, hx, ys, hys, rfl⟩, rfl⟩ := h
                exact ⟨x, s, ⟨hx, rfl⟩, ys, s, ⟨hys, rfl⟩, rfl, rfl⟩
      | _ => simp only [phiValues, phiLooks, pure_ok_iff, Option.some.injEq]

/-- Entering a block: its leading phis take their values. -/
theorem enterBlock_ok_iff {fr fr₁ : Frame} {b : Block}
    {prev cur : BlockId} {s t : Machine} :
    enterBlock fr b prev cur s = .ok fr₁ t
      ↔ (∃ vs, phiLooks fr prev b.leadingPhis = some vs ∧ fr₁ = insertAll fr vs)
      ∧ s = t := by
  unfold enterBlock
  rw [bind_ok_iff]
  simp only [phiValues_ok_iff, pure_ok_iff]
  constructor
  · intro h
    obtain ⟨vs, s₁, ⟨hvs, rfl⟩, rfl, rfl⟩ := h
    exact ⟨⟨vs, hvs, rfl⟩, rfl⟩
  · intro h
    obtain ⟨⟨vs, hvs, rfl⟩, rfl⟩ := h
    exact ⟨vs, s, ⟨hvs, rfl⟩, rfl, rfl⟩

-- ============================================================= terminators

/-- The slot of an operand of one slot, if it is one. -/
def lookScalar (fr : Frame) (v : Operand) : Option Int64 :=
  match look fr v with
  | some ⟨[x], _⟩ => some x
  | _ => none

/-- The truth value of a comparison, if there is one. -/
def lookTest (fr : Frame) (op : BinaryOp) (l r : Operand) : Option Bool := do
  let x ← look fr l
  let y ← look fr r
  match binaryOp op x.slots y.slots with
  | .ok v => some (v.headD 0 ≠ 0)
  | .error _ => none

/-- Where control goes at the end of a block, if it goes on. -/
def nextOf (fr : Frame) : Option Terminator → Option Next
  | some (.jump t) => some (.block t)
  | some (.branch c t e) => (lookScalar fr c).map fun x =>
    .block (if x ≠ 0 then t else e)
  | some (.branchCmp op l r t e) => (lookTest fr op l r).map fun x =>
    .block (if x then t else e)
  | some (.ret vs) => (vs.mapM (look fr)).map .ret
  | some .unreachable | none => none

/-- A scalar is a value of one word. -/
theorem lookScalar_eq_some {fr : Frame} {v : Operand} {x : Int64} :
    lookScalar fr v = some x ↔ ∃ y, look fr v = some y ∧ y.slots = [x] := by
  unfold lookScalar
  split
  · next y n hlook => simp [hlook]
  · next h =>
    constructor
    · intro hx
      cases hx
    · intro hx
      obtain ⟨⟨slots, n⟩, hlook, rfl⟩ := hx
      exact absurd hlook (h x n)

/-- A test is true if the operator gives a word that is not zero. -/
theorem lookTest_eq_some {fr : Frame} {op : BinaryOp}
    {l r : Operand} {b : Bool} :
    lookTest fr op l r = some b ↔ ∃ x y v, look fr l = some x
        ∧ look fr r = some y
      ∧ binaryOp op x.slots y.slots = .ok v ∧ b = decide (v.headD 0 ≠ 0) := by
  unfold lookTest
  simp only [Option.bind_eq_bind, Option.bind_eq_some_iff]
  constructor
  · intro h
    obtain ⟨x, hx, y, hy, h⟩ := h
    cases hv : binaryOp op x.slots y.slots with
    | ok v =>
        rw [hv, Option.some.injEq] at h
        exact ⟨x, y, v, hx, hy, hv, h.symm⟩
    | error e =>
        rw [hv] at h
        cases h
  · intro h
    obtain ⟨x, y, v, hx, hy, hv, rfl⟩ := h
    exact ⟨x, hx, y, hy, by rw [hv]⟩

/-- A terminator answers what `nextOf` says. -/
theorem execTerm_ok_iff {fr : Frame} {t : Option Terminator} {n : Next}
    {s s' : Machine} :
    execTerm fr t s = .ok n s' ↔ nextOf fr t = some n ∧ s = s' := by
  match t with
  | none =>
      constructor
      · intro h
        exact absurd h failWith_ne_ok
      · intro h
        cases h.1
  | some .unreachable =>
      constructor
      · intro h
        exact absurd h failWith_ne_ok
      · intro h
        cases h.1
  | some (.jump b) =>
      show (pure (Next.block b) : Exec Next) s = _
        ↔ some (Next.block b) = some n ∧ _
      rw [pure_ok_iff, Option.some.injEq]
  | some (.branch c b e) =>
      simp only [execTerm, nextOf, bind_ok_iff, scalar_ok_iff, pure_ok_iff,
        Option.map_eq_some_iff, lookScalar_eq_some]
      constructor
      · intro h
        obtain ⟨x, s₁, ⟨hx, rfl⟩, hn, rfl⟩ := h
        exact ⟨⟨x, hx, hn⟩, rfl⟩
      · intro h
        obtain ⟨⟨x, hx, hn⟩, rfl⟩ := h
        exact ⟨x, s, ⟨hx, rfl⟩, hn, rfl⟩
  | some (.branchCmp op l r b e) =>
      simp only [execTerm, nextOf, bind_ok_iff, eval_ok_iff,
        lift_ok_iff, pure_ok_iff, Option.map_eq_some_iff, lookTest_eq_some]
      constructor
      · intro h
        obtain ⟨x, s₁, ⟨hx, rfl⟩, y, s₂, ⟨hy, rfl⟩, v, s₃,
            ⟨hv, rfl⟩, hn, rfl⟩ := h
        exact ⟨⟨_, ⟨x, y, v, hx, hy, hv, rfl⟩, by simpa using hn⟩, rfl⟩
      · intro h
        obtain ⟨⟨-, ⟨x, y, v, hx, hy, hv, rfl⟩, hn⟩, rfl⟩ := h
        exact ⟨x, s, ⟨hx, rfl⟩, y, s, ⟨hy, rfl⟩, v, s,
          ⟨hv, rfl⟩, by simpa using hn, rfl⟩
  | some (.ret vs) =>
      simp only [execTerm, nextOf, bind_ok_iff, mapM_eval_ok_iff, pure_ok_iff,
        Option.map_eq_some_iff]
      constructor
      · intro h
        obtain ⟨xs, s₁, ⟨hxs, rfl⟩, hn, rfl⟩ := h
        exact ⟨⟨xs, hxs, hn⟩, rfl⟩
      · intro h
        obtain ⟨⟨xs, hxs, hn⟩, rfl⟩ := h
        exact ⟨xs, s, ⟨hxs, rfl⟩, hn, rfl⟩

/-- Control goes to a target of the terminator. -/
theorem mem_targets_of_nextOf {fr : Frame} {t : Option Terminator} {b : BlockId}
    (h : nextOf fr t = some (.block b)) : b ∈ targetsOf t := by
  match t with
  | some (.jump u) =>
      cases h
      exact List.mem_cons_self
  | some (.branch c u e) =>
      obtain ⟨x, -, hx⟩ := Option.map_eq_some_iff.mp h
      cases hx
      simp only [targetsOf, Terminator.targets]
      split <;> split <;> simp_all
  | some (.branchCmp op l r u e) =>
      obtain ⟨x, -, hx⟩ := Option.map_eq_some_iff.mp h
      cases hx
      simp only [targetsOf, Terminator.targets]
      split <;> split <;> simp_all
  | some (.ret vs) =>
      obtain ⟨x, -, hx⟩ := Option.map_eq_some_iff.mp h
      cases hx

end MirBackend.Interp
