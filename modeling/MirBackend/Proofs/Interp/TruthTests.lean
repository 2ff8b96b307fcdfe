/-
Truth tests and the field.

A branch and `not` look at a whole word. Comparisons, `and` and `or` look at its
element of the field. All of them say the same of a word that is zero when its
element is (`Faithful`), and that is so of every slot that a run comes to,
unless it makes an address that is another multiple of the order: by handing
out memory there, by advancing a pointer to it, or by loading a value with an
array that lies there. Nothing in the interpreter prevents that, and nothing
else leads to such a word.
-/
import Mathlib
import MirBackend.Proofs.Interp.SlotOrigins

namespace MirBackend.Interp

/-- The word is zero exactly if its element of the field is. -/
def Faithful (x : Int64) : Prop := Felt.ofInt64 x = Felt.ofInt64 0 ↔ x = 0

-- Whether a word is tested faithfully can be looked at.
instance (x : Int64) : Decidable (Faithful x) :=
  inferInstanceAs (Decidable (_ ↔ _))

variable {m : Module} {k : FuncId} {args : List Int64}
  {w w₀ : Machine} {cur : BlockId} {is : List Instr} {fr : Frame}
  {o : Operand} {x : Int64}

/-- The arguments of a call from outside are reduced on the way in. -/
theorem argValues_below (args : List Int64) :
    ∀ v ∈ argValues args, v.All BelowOrder := by
  intro v hv
  obtain ⟨a, -, rfl⟩ := List.mem_map.mp hv
  exact all_single (belowOrder_of_canonical (Felt.canonical_ofInt64 a)) 0

/-- Memory that was never written is zero. -/
theorem all_memory_start (h : Faithful 0) :
    ({} : Memory).All Faithful := fun a => by
  rw [Memory.get, Std.ExtTreeMap.getD_empty]
  exact h

/-- What the tests of a word answer. Branches lead to `t` where it is true and
to `e` where it is not. -/
structure Tested (fr : Frame) (o : Operand) (x : Int64)
    (truth : Bool) : Prop where
  word : truth = true ↔ x ≠ 0
  element : truth = true ↔ Felt.ofInt64 x ≠ Felt.ofInt64 0
  not : unaryOp .not x = .ok [bit !truth]
  eq : binaryOp .eq [x] [0] = .ok [bit !truth]
  neq : binaryOp .neq [x] [0] = .ok [bit truth]
  and : binaryOp .and [x] [x] = .ok [bit truth]
  or : binaryOp .or [x] [x] = .ok [bit truth]
  branch : ∀ t e, nextOf fr (some (.branch o t e))
    = some (.block (if truth then t else e))
  branchCmp : ∀ t e, nextOf fr (some (.branchCmp .neq o (.int 0) t e))
    = some (.block (if truth then t else e))

/-- The tests of a faithful word agree. -/
theorem Faithful.tested (h : Faithful x) (hx : lookScalar fr o = some x) :
    Tested fr o x (decide (x ≠ 0)) := by
  have heq : decide (Felt.ofInt64 x = Felt.ofInt64 0) = decide (x = 0) :=
    decide_eq_decide.mpr h
  have hzero : (Felt.ofInt64 x).isZero = decide (x = 0) := by
    rw [← heq, Bool.eq_iff_iff, decide_eq_true_iff, Felt.isZero_iff]
    exact ⟨fun hword => Felt.eq_of_toNat hword, fun hword => by rw [hword]; rfl⟩
  have hneq : binaryOp .neq [x] [0] = .ok [bit (decide (x ≠ 0))] := by
    show Except.ok [bit (decide (Felt.ofInt64 x ≠ Felt.ofInt64 0))] = _
    rw [decide_not, heq, decide_not]
  obtain ⟨v, hv, hslots⟩ := lookScalar_eq_some.mp hx
  refine ⟨decide_eq_true_iff, ?_, ?_, ?_, hneq, ?_, ?_,
    fun t e => ?_, fun t e => ?_⟩
  · rw [decide_eq_true_iff]
    exact not_congr h.symm
  · rw [decide_not, Bool.not_not]
    rfl
  · show Except.ok [bit (decide (Felt.ofInt64 x = Felt.ofInt64 0))] = _
    rw [heq, decide_not, Bool.not_not]
  · show Except.ok [bit (!(Felt.ofInt64 x).isZero && !(Felt.ofInt64 x).isZero)]
      = _
    rw [hzero, Bool.and_self, decide_not]
  · show Except.ok [bit (!(Felt.ofInt64 x).isZero || !(Felt.ofInt64 x).isZero)]
      = _
    rw [hzero, Bool.or_self, decide_not]
  · rw [nextOf, hx, Option.map_some]
    simp only [decide_eq_true_iff]
  · have htest : lookTest fr .neq o (.int 0) = some (decide (x ≠ 0)) := by
      refine lookTest_eq_some.mpr ⟨v, _, _, hv,
        rfl, by rw [hslots]; exact hneq, ?_⟩
      by_cases h0 : x = 0 <;> simp [h0, bit]
    rw [nextOf, htest, Option.map_some]

/-- The tests of a word that a call comes to agree, where memory starts faithful
and the call makes no address that is zero in the field only. Then what it
answers is faithful and so is the memory that it leaves. -/
theorem truth_tests_agree (hmemory : w₀.memory.All Faithful)
    (hmakes : MakesOnly Faithful m k (argValues args) w₀) :
    (∀ j cur is fr w, Visits m k (argValues args) w₀ j cur is fr w →
      ∀ o x, lookScalar fr o = some x → ∃ truth, Tested fr o x truth)
    ∧ ∀ n vs w', Answers m .none k (argValues args) w₀ n vs w' →
      (∀ v ∈ vs, v.All Faithful) ∧ w'.memory.All Faithful := by
  have hbelow (x : Int64) (hx : BelowOrder x) : Faithful x :=
    hx.ofInt64_eq_zero_iff
  have hgiven : ∀ v ∈ argValues args, v.All Faithful :=
    fun v hv x hx => hbelow x (argValues_below args v hv x hx)
  refine ⟨fun j cur is fr w hv o x hx => ?_, fun n vs w' h =>
    h.clean hbelow hmakes hgiven hmemory⟩
  have hclean := hv.clean hbelow hmakes hgiven hmemory
  obtain ⟨v, hlook, hslots⟩ := lookScalar_eq_some.mp hx
  have hfaithful :=
    hclean.look hbelow hlook x (by rw [hslots]; exact List.mem_singleton_self x)
  exact ⟨_, hfaithful.tested hx⟩

/-- A pointer, advanced by one and tested. -/
def advanced : Func :=
  { name := "advanced"
    params := [0]
    returns := [.bool, .bool]
    nextValue := 4
    blocks :=
      [some { name := "entry", term := some (.ret [.value 2, .value 3]),
              instrs := [.elementPtr 1 (.value 0) (.int 1),
                .binary .eq 2 (.value 1) (.int 0),
                .unary .not 3 (.value 1)] }] }

/-- The places that the function comes to on the argument five. -/
theorem advanced_visits
    (h : Visits ⟨[advanced]⟩ 0 (argValues [5]) w₀ k cur is fr w) :
    k = 0
          ∧ ((is = [.elementPtr 1 (.value 0) (.int 1),
          .binary .eq 2 (.value 1) (.int 0),
        .unary .not 3 (.value 1)] ∧ fr = argFrame advanced (argValues [5]))
      ∨ is = [.binary .eq 2 (.value 1) (.int 0), .unary .not 3 (.value 1)]
      ∨ is = [.unary .not 3 (.value 1)] ∨ is = []) := by
  induction h with
  | start func entry phis =>
      cases func
      cases entry
      cases phis
      exact ⟨rfl, Or.inl ⟨rfl, rfl⟩⟩
  | instr here func run ih =>
      obtain ⟨rfl, ⟨his, -⟩ | his | his | his⟩ := ih <;> cases his
      · exact ⟨rfl, Or.inr (Or.inl rfl)⟩
      · exact ⟨rfl, Or.inr (Or.inr (Or.inl rfl))⟩
      · exact ⟨rfl, Or.inr (Or.inr (Or.inr rfl))⟩
  | enter here callee args entry phis ih =>
      obtain ⟨rfl, ⟨his, -⟩ | his | his | his⟩ := ih <;> cases his
  | back here args answer ih =>
      obtain ⟨rfl, ⟨his, -⟩ | his | his | his⟩ := ih <;> cases his
  | @jump k f cur next b nb fr w ps here func block term target phis ih =>
      obtain ⟨rfl, -⟩ := ih
      cases func
      have hterm : b.term = some (.ret [.value 2, .value 3]) := by
        match cur, block with
        | .ofNat 0, block =>
            cases block
            rfl
      rw [hterm] at term
      obtain ⟨xs, -, heq⟩ := Option.map_eq_some_iff.mp term
      cases heq

/-- On the argument five the pointer comes to six, and all tests call that
true. -/
theorem truth_tests_agree_advanced :
    ({} : Machine).memory.All Faithful
    ∧ MakesOnly Faithful ⟨[advanced]⟩ 0 (argValues [5]) {}
    ∧ ∃ is fr, Visits ⟨[advanced]⟩ 0 (argValues [5]) {} 0 0 is fr {}
      ∧ lookScalar fr (.value 1) = some 6 ∧ ∃ truth, Tested fr
      (.value 1) 6 truth := by
  have hmemory : ({} : Machine).memory.All Faithful :=
    all_memory_start (by decide)
  have hmakes : MakesOnly Faithful ⟨[advanced]⟩ 0 (argValues [5]) {} := by
    intro k cur i is fr w hv a ha
    obtain ⟨rfl, ⟨his, rfl⟩ | his | his | his⟩ :=
      advanced_visits hv <;> cases his
    · obtain rfl : a = 6 := List.mem_singleton.mp ha
      decide
    · cases ha
    · cases ha
  have hrun : exec ⟨[]⟩ refuse advanced (argFrame advanced (argValues [5]))
      (.elementPtr 1 (.value 0) (.int 1)) {}
      = .ok ((argFrame advanced (argValues [5])).insert 1 ⟨[6], 0⟩) {} := rfl
  have hstart :=
    @Visits.start ⟨[advanced]⟩ 0 (argValues [5]) {} advanced _ [] rfl rfl rfl
  have hvisit : Visits ⟨[advanced]⟩ 0 (argValues [5]) {} 0 0
      [.binary .eq 2 (.value 1) (.int 0), .unary .not 3 (.value 1)]
      ((argFrame advanced (argValues [5])).insert 1 ⟨[6], 0⟩) {} :=
    .instr hstart rfl hrun
  have hlook :
      lookScalar ((argFrame advanced (argValues [5])).insert 1 ⟨[6], 0⟩)
      (.value 1)
      = some 6 := rfl
  exact ⟨hmemory, hmakes, _, _, hvisit, hlook,
    (truth_tests_agree hmemory hmakes).1 _ _ _ _ _ hvisit _ _ hlook⟩

/-- One word before the order, the pointer comes to a word that is zero in the
field only: it is equal to zero, and yet it is not false. -/
example : (match call ⟨[advanced]⟩ "advanced" [2147483646] {} with
    | .ok r _ => some r
    | .error _ _ => none) = some [1, 0] := by
  rfl

end MirBackend.Interp
