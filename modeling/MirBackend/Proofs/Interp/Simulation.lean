/-
Simulation of one function by another.

A function of a module is put in the place of another, and every other
function stays. If from related places the new function can always follow the
old one, step for step or with more or fewer steps, then every call that
answers in the old module answers the same in the new one, whatever calls are
on the way (`Simulation.answers`). To follow is said backwards: wherever a run
can go on from the place that was reached, it can be reached from the place
before.
-/
import Mathlib
import MirBackend.Proofs.Interp.Returns

namespace MirBackend.Interp

/-- A place in a running function: the block, what is left of it, and the
frame. -/
structure Place where
  block : BlockId
  rest : List Instr
  frame : Frame

/-- Runs from one place return as runs from another do. -/
def Follows (m : Module) (Q : Promise) (k : FuncId) (c : Place)
    (w : Machine) (c₁ : Place) (w₁ : Machine) : Prop :=
  ∀ n vs w', Returns m Q k c₁.block c₁.rest c₁.frame w₁ n vs w' →
    ∃ n', Returns m Q k c.block c.rest c.frame w n' vs w'

/-- A place follows itself. -/
theorem Follows.refl {m : Module} {Q : Promise} {k : FuncId}
    (c : Place) (w : Machine) : Follows m Q k c w c w :=
  fun n _ _ h => ⟨n, h⟩

/-- Following is transitive, with the steps added up. -/
theorem Follows.trans {m : Module} {Q : Promise} {k : FuncId} {c c₁ c₂ : Place}
    {w w₁ w₂ : Machine} (h : Follows m Q k c w c₁ w₁)
    (h' : Follows m Q k c₁ w₁ c₂ w₂) : Follows m Q k c w c₂ w₂ := by
  intro n vs w' hr
  obtain ⟨n₁, hr₁⟩ := h' n vs w' hr
  exact h n₁ vs w' hr₁

/-- The function `g` of one module follows the function `f` of another, both
numbered `k₀`, from places related by `R`. -/
structure Simulation (m m' : Module) (Q Q' : Promise) (k₀ : FuncId) (f g : Func)
    (R : Place → Place → Prop) : Prop where
  old : m.func? k₀ = some f
  new : m'.func? k₀ = some g
  others : ∀ k, k ≠ k₀ → m'.func? k = m.func? k
  promise : ∀ k, k ≠ k₀ → ∀ b fr, Q k b fr → Q' k b fr
  params : g.params = f.params
  start : ∀ xs b ps, f.block? f.entry = some b →
    phiLooks (argFrame f xs) noBlock b.leadingPhis = some ps →
    ∃ b' ps', g.block? g.entry = some b'
      ∧ phiLooks (argFrame g xs) noBlock b'.leadingPhis = some ps'
      ∧ R ⟨f.entry, b.body, insertAll (argFrame f xs) ps⟩
        ⟨g.entry, b'.body, insertAll (argFrame g xs) ps'⟩
  instr : ∀ cur i is fr c' fr₁ w w₁, R ⟨cur, i :: is, fr⟩ c' →
    exec ⟨[]⟩ refuse f fr i w = .ok fr₁ w₁ →
    ∃ c₁, R ⟨cur, is, fr₁⟩ c₁ ∧ Follows m' Q' k₀ c' w c₁ w₁
  call : ∀ cur ds c as sig is fr c' xs rs,
    R ⟨cur, .call ds c as sig :: is, fr⟩ c' →
    as.mapM (look fr) = some xs → (ds = [] ∨ ds.length = rs.length) →
    ∃ is' fr', c' = ⟨c'.block, .call ds c as sig :: is', fr'⟩
      ∧ as.mapM (look fr') = some xs
      ∧ R ⟨cur, is, insertAll fr (ds.zip rs)⟩ ⟨c'.block, is',
      insertAll fr' (ds.zip rs)⟩
  jump : ∀ cur b next nb fr c' ps, R ⟨cur, [], fr⟩ c' →
    f.block? cur = some b → Q k₀ cur fr →
    nextOf fr b.term = some (.block next) → next ≠ noBlock →
      f.block? next = some nb →
    phiLooks fr cur nb.leadingPhis = some ps →
    ∃ c₁, R ⟨next, nb.body, insertAll fr ps⟩ c₁
      ∧ ∀ w, Follows m' Q' k₀ c' w c₁ w
  ret : ∀ cur b fr c' vs, R ⟨cur, [], fr⟩ c' → f.block? cur = some b →
    nextOf fr b.term = some (.ret vs) →
    ∀ w, ∃ n', Returns m' Q' k₀ c'.block c'.rest c'.frame w n' vs w
  leave : ∀ cur b fr c', R ⟨cur, [], fr⟩ c' → f.block? cur = some b →
    nextOf fr b.term = some (.block noBlock) →
    ∀ w, ∃ n', Returns m' Q' k₀ c'.block c'.rest c'.frame w n' [] w

namespace Simulation

variable {m m' : Module} {Q Q' : Promise} {k₀ : FuncId} {f g : Func}
  {R : Place → Place → Prop}

/-- What the new function can be entered with. -/
theorem enter (S : Simulation m m' Q Q' k₀ f g R) {c : FuncId}
    {h : Func} {b : Block} {xs vs : List Value}
    {ps : List (ValueId × Value)} {w w' : Machine} (hh : m.func? c = some h)
    (hb : h.block? h.entry = some b)
    (hps : phiLooks (argFrame h xs) noBlock b.leadingPhis = some ps)
    (hcount : xs.length = h.params.length) (hsame : c ≠ k₀ →
      ∃ n', Returns m' Q' c h.entry b.body
        (insertAll (argFrame h xs) ps) w n' vs w')
    (hnew : c = k₀ → ∀ c', R ⟨h.entry, b.body,
      insertAll (argFrame h xs) ps⟩ c' →
      ∃ n', Returns m' Q' k₀ c'.block c'.rest c'.frame w n' vs w') :
    ∃ n', Answers m' Q' c xs w n' vs w' := by
  by_cases hc : c = k₀
  · subst hc
    have hfh := hh
    rw [S.old, Option.some.injEq] at hfh
    subst hfh
    obtain ⟨b', ps', hb', hps', hR⟩ := S.start xs b ps hb hps
    obtain ⟨n', hn'⟩ := hnew rfl _ hR
    exact ⟨n', g, b', ps', S.new, by rw [S.params]; exact hcount, hb', hps',
      hn'⟩
  · obtain ⟨n', hn'⟩ := hsame hc
    exact ⟨n', h, b, ps, by rw [S.others c hc]; exact hh, hcount, hb, hps, hn'⟩

/-- Runs of the old module are followed: by themselves in the other functions,
from related places in the new one. -/
theorem returns (S : Simulation m m' Q Q' k₀ f g R) {k : FuncId} {cur : BlockId}
    {is : List Instr} {fr : Frame} {w w' : Machine} {n : Nat} {vs : List Value}
    (h : Returns m Q k cur is fr w n vs w') :
    (k ≠ k₀ → ∃ n', Returns m' Q' k cur is fr w n' vs w')
    ∧ (k = k₀ → ∀ c', R ⟨cur, is, fr⟩ c' →
      ∃ n', Returns m' Q' k₀ c'.block c'.rest c'.frame w n' vs w') := by
  induction h with
  | @instr k f₀ cur i is fr fr₁ w w₁ w' n vs func run rest ih =>
      refine ⟨fun hk => ?_, fun hk c' hR => ?_⟩
      · obtain ⟨n', hn'⟩ := ih.1 hk
        exact ⟨n' + 1, .instr (by rw [S.others k hk]; exact func) run hn'⟩
      · subst hk
        rw [S.old, Option.some.injEq] at func
        subst func
        obtain ⟨c₁, hR₁, hfollow⟩ := S.instr cur i is fr c' fr₁ w w₁ hR run
        obtain ⟨n', hn'⟩ := ih.2 rfl c₁ hR₁
        exact hfollow n' vs w' hn'
  | @call k c h₀ gb cur ds as sig is fr w w₁ w' xs rs vs ps n₁ n₂ callee args
      count entry phis body
      results rest ihbody ihrest =>
      obtain ⟨n₁', g₁, b₁, ps₁, hg₁, hcount₁, hb₁, hps₁, hn₁⟩ :=
        S.enter callee entry phis count ihbody.1 ihbody.2
      refine ⟨fun hk => ?_, fun hk c' hR => ?_⟩
      · obtain ⟨n', hn'⟩ := ihrest.1 hk
        exact ⟨_, .call hg₁ args hcount₁ hb₁ hps₁ hn₁ results hn'⟩
      · obtain ⟨is', fr', hc', hargs', hR'⟩ :=
          S.call cur ds c as sig is fr c' xs rs hR args results
        obtain ⟨n', hn'⟩ := ihrest.2 hk _ hR'
        rw [hc']
        exact ⟨_, .call hg₁ hargs' hcount₁ hb₁ hps₁ hn₁ results hn'⟩
  | @jump k f₀ cur next b nb fr w w' ps n vs func block keeps term there
    target phis rest ih =>
      refine ⟨fun hk => ?_, fun hk c' hR => ?_⟩
      · obtain ⟨n', hn'⟩ := ih.1 hk
        exact ⟨n' + 1, .jump (by rw [S.others k hk]; exact func) block
          (S.promise k hk cur fr keeps)
          term there target phis hn'⟩
      · subst hk
        rw [S.old, Option.some.injEq] at func
        subst func
        obtain ⟨c₁, hR₁, hfollow⟩ :=
          S.jump cur b next nb fr c' ps hR block keeps term there target phis
        obtain ⟨n', hn'⟩ := ih.2 rfl c₁ hR₁
        exact hfollow w n' vs w' hn'
  | @ret k f₀ cur b fr w vs func block term =>
      refine ⟨fun hk =>
        ⟨1, .ret (by rw [S.others k hk]; exact func) block term⟩,
        fun hk c' hR => ?_⟩
      subst hk
      rw [S.old, Option.some.injEq] at func
      subst func
      exact S.ret cur b fr c' vs hR block term w
  | @leave k f₀ cur b fr w func block term =>
      refine ⟨fun hk =>
        ⟨1, .leave (by rw [S.others k hk]; exact func) block term⟩,
        fun hk c' hR => ?_⟩
      subst hk
      rw [S.old, Option.some.injEq] at func
      subst func
      exact S.leave cur b fr c' hR block term w

/-- Calls that answer in the old module answer the same in the new one. -/
theorem answers (S : Simulation m m' Q Q' k₀ f g R)
    {k : FuncId} {xs : List Value} {w w' : Machine} {n : Nat} {vs : List Value}
    (h : Answers m Q k xs w n vs w') : ∃ n', Answers m' Q' k xs w n' vs w' := by
  obtain ⟨h, b, ps, hh, hcount, hb, hps, hn⟩ := h
  obtain ⟨hsame, hnew⟩ := S.returns hn
  exact S.enter hh hb hps hcount hsame hnew

end Simulation

end MirBackend.Interp
