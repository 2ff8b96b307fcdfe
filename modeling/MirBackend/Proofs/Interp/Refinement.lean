/-
Modules that answer the same and take no longer.

A module refines another when, from related places and machines, it follows
every step of the other in at most one step of its own. Then a call that
answers within some bound on steps answers the same within that bound
(`Refinement.call_ok`).

What is related may depend on a *world*, which only grows along a run: what was
related before a call is still related in the worlds after it. A refinement may
also rely on something that holds at every place the old run comes to.

Most refinements put one function in the place of another and leave machines
alone; for them it is enough to follow that function (`Replacement`).
-/
import Mathlib
import MirBackend.Proofs.Interp.Simulation

namespace MirBackend.Interp

/-- Runs from one place return as runs from another do, at most one step
later. -/
def Reaches (m : Module) (k : FuncId) (c : Place) (w : Machine) (c₁ : Place)
    (w₁ : Machine) : Prop :=
  ∀ n vs w', Returns m .none k c₁.block c₁.rest c₁.frame w₁ n vs w' →
    ∃ n' ≤ n + 1, Returns m .none k c.block c.rest c.frame w n' vs w'

/-- A place is reached from itself. -/
theorem Reaches.refl {m : Module} {k : FuncId} (c : Place) (w : Machine) :
    Reaches m k c w c w :=
  fun n _ _ h => ⟨n, Nat.le_succ n, h⟩

/-- A return in one step. -/
def Ends (m : Module) (k : FuncId) (c : Place) (vs : List Value) : Prop :=
  ∀ w, Returns m .none k c.block c.rest c.frame w 1 vs w

/-- From a place with a phi ahead nothing returns. -/
theorem Returns.noPhi {m : Module} {Q : Promise} {k : FuncId}
    {cur : BlockId} {is : List Instr} {fr : Frame} {w w' : Machine}
    {n : Nat} {vs : List Value} (h : Returns m Q k cur is fr w n vs w') :
    ∀ i ∈ is, i.isPhi = false := by
  induction h with
  | @instr k f cur i is fr fr₁ w w₁ w' n vs func run rest ih =>
      intro j hj
      rcases List.mem_cons.mp hj with rfl | hj
      · cases j with
        | phi d t ss => exact absurd run failWith_ne_ok
        | _ => rfl
      · exact ih j hj
  | call callee args count entry phis body results rest ihbody ihrest =>
      intro j hj
      rcases List.mem_cons.mp hj with rfl | hj
      · rfl
      · exact ihrest j hj
  | jump | ret | leave =>
      intro j hj
      cases hj

/-- A place that is come to lies in a function of the module. -/
theorem Visits.func {m : Module} {start : FuncId} {given : List Value}
    {w₀ : Machine} {k : FuncId} {cur : BlockId} {is : List Instr}
    {fr : Frame} {w : Machine} (h : Visits m start given w₀ k cur is fr w) :
    ∃ f, m.func? k = some f := by
  induction h with
  | start func => exact ⟨_, func⟩
  | instr _ func => exact ⟨_, func⟩
  | enter _ callee => exact ⟨_, callee⟩
  | back _ _ _ ih => exact ih
  | jump _ func => exact ⟨_, func⟩

-- ============================================================= refinements

/-- The module `m'` follows `m` from places related by `R` and machines related
by `M`, each in a world, where `A` holds of every place that is come to. -/
structure Refinement {W : Type} [Preorder W] (m m' : Module)
    (A : FuncId → Place → Prop) (M : W → Machine → Machine → Prop)
    (R : W → FuncId → Place → Place → Prop) : Prop where
  enter : ∀ ω k f xs b ps, m.func? k = some f → xs.length = f.params.length →
    f.block? f.entry = some b → (∀ i ∈ b.body, i.isPhi = false) →
    phiLooks (argFrame f xs) noBlock b.leadingPhis = some ps →
    ∃ g b' ps', m'.func? k = some g ∧ xs.length = g.params.length
      ∧ g.block? g.entry = some b'
      ∧ phiLooks (argFrame g xs) noBlock b'.leadingPhis = some ps'
      ∧ R ω k ⟨f.entry, b.body, insertAll (argFrame f xs) ps⟩
        ⟨g.entry, b'.body, insertAll (argFrame g xs) ps'⟩
  instr : ∀ ω k f cur i is fr c' fr₁ w w₁ w', m.func? k = some f →
    A k ⟨cur, i :: is, fr⟩ →
    R ω k ⟨cur, i :: is, fr⟩ c' → M ω w w' →
      exec ⟨[]⟩ refuse f fr i w = .ok fr₁ w₁ →
    ∃ ω₁ c₁ w₁', ω ≤ ω₁ ∧ R ω₁ k ⟨cur, is, fr₁⟩ c₁ ∧ M ω₁ w₁ w₁'
      ∧ Reaches m' k c' w' c₁ w₁'
  call : ∀ ω k f cur ds c as sig is fr c' xs, m.func? k = some f →
    R ω k ⟨cur, .call ds c as sig :: is, fr⟩ c' → as.mapM (look fr) = some xs →
    ∃ is' fr', c' = ⟨c'.block, .call ds c as sig :: is', fr'⟩
      ∧ as.mapM (look fr') = some xs
      ∧ ∀ ω₁ rs, ω ≤ ω₁ → (ds = [] ∨ ds.length = rs.length) →
        R ω₁ k ⟨cur, is, insertAll fr (ds.zip rs)⟩ ⟨c'.block, is',
          insertAll fr' (ds.zip rs)⟩
  jump : ∀ ω k f cur b next nb fr c' ps, m.func? k = some f →
    A k ⟨cur, [], fr⟩ →
    R ω k ⟨cur, [], fr⟩ c' → f.block? cur = some b →
      nextOf fr b.term = some (.block next) →
    next ≠ noBlock → f.block? next = some nb →
      (∀ i ∈ nb.body, i.isPhi = false) →
    phiLooks fr cur nb.leadingPhis = some ps →
    ∃ c₁, R ω k ⟨next, nb.body, insertAll fr ps⟩ c₁
      ∧ ∀ w, Reaches m' k c' w c₁ w
  ret : ∀ ω k f cur b fr c' vs, m.func? k = some f → A k ⟨cur, [], fr⟩ →
    R ω k ⟨cur, [], fr⟩ c' →
    f.block? cur = some b → nextOf fr b.term = some (.ret vs) → Ends m' k c' vs
  leave : ∀ ω k f cur b fr c', m.func? k = some f → A k ⟨cur, [], fr⟩ →
    R ω k ⟨cur, [], fr⟩ c' →
    f.block? cur = some b →
      nextOf fr b.term = some (.block noBlock) → Ends m' k c' []

/-- Something holds at every place that a call comes to. -/
def Throughout (m : Module) (A : FuncId → Place → Prop)
    (k : FuncId) (xs : List Value) (w : Machine) : Prop :=
  ∀ j cur is fr w₁, Visits m k xs w j cur is fr w₁ → A j ⟨cur, is, fr⟩

namespace Refinement

variable {W : Type} [Preorder W] {m m' : Module} {A : FuncId → Place → Prop}
  {M : W → Machine → Machine → Prop} {R : W → FuncId → Place → Place → Prop}

/-- Runs from related places: the world grows, machines stay related, and it
takes no longer. -/
theorem returns (S : Refinement m m' A M R) {start : FuncId}
    {given : List Value} {w₀ : Machine} (hA : Throughout m A start given w₀)
    {k : FuncId} {cur : BlockId} {is : List Instr} {fr : Frame} {w w₁ : Machine}
    {n : Nat} {vs : List Value} (h : Returns m .none k cur is fr w n vs w₁)
    (hv : Visits m start given w₀ k cur is fr w) {ω : W} {c' : Place}
    {w' : Machine} (hR : R ω k ⟨cur, is, fr⟩ c') (hM : M ω w w') :
    ∃ ω₁ n' w₁', ω ≤ ω₁ ∧ n' ≤ n ∧ M ω₁ w₁ w₁'
      ∧ Returns m' .none k c'.block c'.rest c'.frame w' n' vs w₁' := by
  induction h generalizing ω c' w' with
  | @instr k f cur i is fr fr₁ w w₁ w₂ n vs func run rest ih =>
      obtain ⟨ω₁, c₁, w₁', hω, hR₁, hM₁, hreach⟩ :=
        S.instr ω k f cur i is fr c' fr₁ w w₁ w' func
          (hA _ _ _ _ _ hv) hR hM run
      obtain ⟨ω₂, n', w₂', hω₂, hn', hM₂, hret⟩ :=
        ih (hv.instr func run) hR₁ hM₁
      obtain ⟨n₂, hn₂, hret₂⟩ := hreach n' vs w₂' hret
      exact ⟨ω₂, n₂, w₂', hω.trans hω₂, by omega, hM₂, hret₂⟩
  | @call k c g gb cur ds as sig is fr w w₁ w₂ xs rs vs ps n₁ n₂ callee args
      count entry phis body
      results rest ihbody ihrest =>
      obtain ⟨f, hf⟩ : ∃ f, m.func? k = some f := hv.func
      obtain ⟨is', fr', hc', hargs', hback⟩ :=
        S.call ω k f cur ds c as sig is fr c' xs hf hR args
      obtain ⟨g', gb', ps', hg', hcount', hentry', hphis', hRbody⟩ :=
        S.enter ω c g xs gb ps callee count entry body.noPhi phis
      obtain ⟨ω₁, n₁', w₁', hω₁, hn₁', hM₁, hbody'⟩ :=
        ihbody (hv.enter callee args entry phis) hRbody hM
      obtain ⟨ω₂, n₂', w₂', hω₂, hn₂', hM₂, hrest'⟩ :=
        ihrest (hv.back args ⟨g, gb, ps, callee, count, entry, phis, body⟩)
          (hback ω₁ rs hω₁ results) hM₁
      refine ⟨ω₂, n₁' + n₂' + 1, w₂', hω₁.trans hω₂, by omega, hM₂, ?_⟩
      rw [hc']
      exact .call hg' hargs' hcount' hentry' hphis' hbody' results hrest'
  | @jump k f cur next b nb fr w w₂ ps n vs func block keeps term there
    target phis rest ih =>
      obtain ⟨c₁, hR₁, hreach⟩ :=
        S.jump ω k f cur b next nb fr c' ps func (hA _ _ _ _ _ hv) hR
        block term there target rest.noPhi phis
      obtain ⟨ω₂, n', w₂', hω₂, hn', hM₂, hret⟩ :=
        ih (hv.jump func block term target phis) hR₁ hM
      obtain ⟨n₂, hn₂, hret₂⟩ := hreach w' n' vs w₂' hret
      exact ⟨ω₂, n₂, w₂', hω₂, by omega, hM₂, hret₂⟩
  | @ret k f cur b fr w vs func block term =>
      exact ⟨ω, 1, w', le_refl ω, le_refl 1, hM,
        S.ret ω k f cur b fr c' vs func (hA _ _ _ _ _ hv) hR block term w'⟩
  | @leave k f cur b fr w func block term =>
      exact ⟨ω, 1, w', le_refl ω, le_refl 1, hM,
        S.leave ω k f cur b fr c' func (hA _ _ _ _ _ hv) hR block term w'⟩

/-- A call that answers is followed by one that answers the same, no later. -/
theorem answers (S : Refinement m m' A M R) {k : FuncId} {xs : List Value}
    {w w₁ w' : Machine} {n : Nat} {vs : List Value}
    (h : Answers m .none k xs w n vs w₁) (hA : Throughout m A k xs w)
    {ω : W} (hM : M ω w w') :
    ∃ ω₁ n' w₁', ω ≤ ω₁ ∧ n' ≤ n ∧ M ω₁ w₁ w₁'
        ∧ Answers m' .none k xs w' n' vs w₁' := by
  obtain ⟨f, b, ps, hf, hcount, hb, hps, hn⟩ := h
  obtain ⟨g, b', ps', hg, hcount', hb', hps', hR⟩ :=
    S.enter ω k f xs b ps hf hcount hb hn.noPhi hps
  obtain ⟨ω₁, n', w₁', hω, hn', hM₁, hret⟩ :=
    S.returns hA hn (.start hf hb hps) hR hM
  exact ⟨ω₁, n', w₁', hω, hn', hM₁, g, b', ps', hg, hcount', hb', hps', hret⟩

/-- What the interpreter answers within a bound on steps, it answers after the
change within the same bound. -/
theorem call_ok (S : Refinement m m' A M R) {name : String}
    {args r : List Int64} {s t : Machine}
    (hlookup : m'.lookup name = m.lookup name)
    (h : Interp.call m name args s = .ok r t)
    (hA : ∀ k, m.lookup name = some k →
      Throughout m A k (argValues args) s.still)
    {ω : W} (hM : M ω s.still s.still) :
    ∃ t' ω₁ w', Interp.call m' name args s = .ok r t' ∧ t'.still = w'.still
        ∧ M ω₁ t.still w' := by
  obtain ⟨k, vs, n, hk, rfl, ha, hspent⟩ := call_answers h
  obtain ⟨ω₁, n', w₁', -, hn', hM₁, ha'⟩ := S.answers ha (hA k hk) hM
  have hroom := hspent.room
  obtain ⟨t', ht', hstill, -⟩ :=
    ha'.call_ok (hlookup.trans hk) (s := s) rfl (by omega)
  exact ⟨t', ω₁, w₁', ht', hstill, hM₁⟩

end Refinement

-- ============================================================ replacements

/-- The function `g`, put in the place of `f` as number `k₀` of a module,
follows it from places related by `R`, with the same machine. -/
structure Replacement (m m' : Module) (k₀ : FuncId) (f g : Func)
    (A : Place → Prop) (R : Place → Place → Prop) : Prop where
  old : m.func? k₀ = some f
  new : m'.func? k₀ = some g
  others : ∀ k, k ≠ k₀ → m'.func? k = m.func? k
  enter : ∀ xs b ps, xs.length = f.params.length → f.block? f.entry = some b →
    (∀ i ∈ b.body, i.isPhi = false) →
    phiLooks (argFrame f xs) noBlock b.leadingPhis = some ps →
    ∃ b' ps', xs.length = g.params.length ∧ g.block? g.entry = some b'
      ∧ phiLooks (argFrame g xs) noBlock b'.leadingPhis = some ps'
      ∧ R ⟨f.entry, b.body, insertAll (argFrame f xs) ps⟩
        ⟨g.entry, b'.body, insertAll (argFrame g xs) ps'⟩
  instr : ∀ cur i is fr c' fr₁ w w₁, A ⟨cur, i :: is, fr⟩ →
    R ⟨cur, i :: is, fr⟩ c' →
    exec ⟨[]⟩ refuse f fr i w = .ok fr₁ w₁ →
    ∃ c₁, R ⟨cur, is, fr₁⟩ c₁ ∧ Reaches m' k₀ c' w c₁ w₁
  call : ∀ cur ds c as sig is fr c' xs,
    R ⟨cur, .call ds c as sig :: is, fr⟩ c' →
    as.mapM (look fr) = some xs →
    ∃ is' fr', c' = ⟨c'.block, .call ds c as sig :: is', fr'⟩
      ∧ as.mapM (look fr') = some xs
      ∧ ∀ rs, (ds = [] ∨ ds.length = rs.length) →
        R ⟨cur, is, insertAll fr (ds.zip rs)⟩ ⟨c'.block, is',
          insertAll fr' (ds.zip rs)⟩
  jump : ∀ cur b next nb fr c' ps, A ⟨cur, [], fr⟩ → R ⟨cur, [], fr⟩ c' →
    f.block? cur = some b →
    nextOf fr b.term = some (.block next) → next ≠ noBlock →
      f.block? next = some nb →
    (∀ i ∈ nb.body, i.isPhi = false) →
    phiLooks fr cur nb.leadingPhis = some ps →
    ∃ c₁, R ⟨next, nb.body, insertAll fr ps⟩ c₁ ∧ ∀ w, Reaches m' k₀ c' w c₁ w
  ret : ∀ cur b fr c' vs, A ⟨cur, [], fr⟩ → R ⟨cur, [], fr⟩ c' →
    f.block? cur = some b →
    nextOf fr b.term = some (.ret vs) → Ends m' k₀ c' vs
  leave : ∀ cur b fr c', A ⟨cur, [], fr⟩ → R ⟨cur, [], fr⟩ c' →
    f.block? cur = some b →
    nextOf fr b.term = some (.block noBlock) → Ends m' k₀ c' []

namespace Replacement

variable {m m' : Module} {k₀ : FuncId} {f g : Func} {A : Place → Prop}
  {R : Place → Place → Prop}

/-- Places related by `R` in the function replaced, the same place in every
other. -/
def inModule (k₀ : FuncId) (R : Place → Place → Prop) (_ : Unit)
    (k : FuncId) (c c' : Place) : Prop :=
  if k = k₀ then R c c' else c' = c

/-- To follow one function is to follow the module. -/
theorem refinement (S : Replacement m m' k₀ f g A R) :
    Refinement m m' (fun k c => k = k₀ → A c) (fun _ w w' => w' = w)
      (inModule k₀ R) where
  -- in the function that is replaced by the replacement, in all others by
  -- equality, here and below
  enter := by
    intro _ k h xs b ps hh hcount hb hbody hps
    by_cases hk : k = k₀
    · subst hk
      rw [S.old, Option.some.injEq] at hh
      subst hh
      obtain ⟨b', ps', hcount', hb', hps', hR⟩ :=
        S.enter xs b ps hcount hb hbody hps
      exact ⟨g, b', ps', S.new, hcount', hb',
        hps', by rwa [inModule, if_pos rfl]⟩
    · exact ⟨h, b, ps, (S.others k hk).trans hh, hcount, hb,
        hps, by rw [inModule, if_neg hk]⟩
  instr := by
    intro _ k h cur i is fr c' fr₁ w w₁ w' hh hA hR hM hrun
    subst hM
    by_cases hk : k = k₀
    · subst hk
      rw [S.old, Option.some.injEq] at hh
      subst hh
      rw [inModule, if_pos rfl] at hR
      obtain ⟨c₁, hR₁, hreach⟩ :=
        S.instr cur i is fr c' fr₁ w' w₁ (hA rfl) hR hrun
      exact ⟨(), c₁, w₁, le_refl _, by rwa [inModule, if_pos rfl], rfl, hreach⟩
    · rw [inModule, if_neg hk] at hR
      subst hR
      refine ⟨(), ⟨cur, is, fr₁⟩, w₁,
        le_refl _, by rw [inModule, if_neg hk], rfl, ?_⟩
      intro n vs w'' hn
      exact ⟨n + 1, le_refl _, .instr ((S.others k hk).trans hh) hrun hn⟩
  call := by
    intro _ k h cur ds c as sig is fr c' xs _ hR hxs
    by_cases hk : k = k₀
    · subst hk
      rw [inModule, if_pos rfl] at hR
      obtain ⟨is', fr', hc', hxs', hback⟩ :=
        S.call cur ds c as sig is fr c' xs hR hxs
      refine ⟨is', fr', hc', hxs', fun _ rs _ hlen => ?_⟩
      rw [inModule, if_pos rfl]
      exact hback rs hlen
    · rw [inModule, if_neg hk] at hR
      subst hR
      exact ⟨is, fr, rfl, hxs, fun _ rs _ _ => by rw [inModule, if_neg hk]⟩
  jump := by
    intro _ k h cur b next nb fr c' ps hh hA hR hb hterm hthere hnb hbody hps
    by_cases hk : k = k₀
    · subst hk
      rw [S.old, Option.some.injEq] at hh
      subst hh
      rw [inModule, if_pos rfl] at hR
      obtain ⟨c₁, hR₁, hreach⟩ :=
        S.jump cur b next nb fr c' ps (hA rfl) hR hb hterm hthere hnb hbody hps
      exact ⟨c₁, by rwa [inModule, if_pos rfl], hreach⟩
    · rw [inModule, if_neg hk] at hR
      subst hR
      refine ⟨_, by rw [inModule, if_neg hk], fun w n vs w' hn => ?_⟩
      exact ⟨n + 1, le_refl _,
        .jump ((S.others k hk).trans hh) hb trivial hterm hthere hnb hps hn⟩
  ret := by
    intro _ k h cur b fr c' vs hh hA hR hb hterm
    by_cases hk : k = k₀
    · subst hk
      rw [S.old, Option.some.injEq] at hh
      subst hh
      rw [inModule, if_pos rfl] at hR
      exact S.ret cur b fr c' vs (hA rfl) hR hb hterm
    · rw [inModule, if_neg hk] at hR
      subst hR
      exact fun w => .ret ((S.others k hk).trans hh) hb hterm
  leave := by
    intro _ k h cur b fr c' hh hA hR hb hterm
    by_cases hk : k = k₀
    · subst hk
      rw [S.old, Option.some.injEq] at hh
      subst hh
      rw [inModule, if_pos rfl] at hR
      exact S.leave cur b fr c' (hA rfl) hR hb hterm
    · rw [inModule, if_neg hk] at hR
      subst hR
      exact fun w => .leave ((S.others k hk).trans hh) hb hterm

/-- Calls answer the same, no later, and leave the same machine. -/
theorem answers (S : Replacement m m' k₀ f g A R) {k : FuncId}
    {xs : List Value} {w w' : Machine} {n : Nat} {vs : List Value}
    (h : Answers m .none k xs w n vs w')
    (hA : Throughout m (fun j c => j = k₀ → A c) k xs w) :
    ∃ n' ≤ n, Answers m' .none k xs w n' vs w' := by
  obtain ⟨-, n', w₁, -, hn', rfl, ha⟩ := S.refinement.answers h hA (ω := ()) rfl
  exact ⟨n', hn', ha⟩

end Replacement

/-- Every call answers in `m'` as it does in `m`, no later, and leaves the same
machine. -/
def Preserves (m m' : Module) : Prop :=
  ∀ k xs w n vs w', Answers m .none k xs w n vs w' →
    ∃ n' ≤ n, Answers m' .none k xs w n' vs w'

namespace Preserves

variable {m m₁ m₂ m' : Module}

/-- A module keeps its own answers. -/
theorem refl (m : Module) : Preserves m m :=
  fun _ _ _ n _ _ h => ⟨n, le_refl n, h⟩

/-- What two replacements keep, both together keep. -/
theorem trans (h₁ : Preserves m m₁) (h₂ : Preserves m₁ m₂) :
    Preserves m m₂ := by
  intro k xs w n vs w' h
  obtain ⟨n₁, hn₁, ha₁⟩ := h₁ k xs w n vs w' h
  obtain ⟨n₂, hn₂, ha₂⟩ := h₂ k xs w n₁ vs w' ha₁
  exact ⟨n₂, hn₂.trans hn₁, ha₂⟩

/-- A replacement that holds at every place keeps the answers of the module. -/
theorem of_replacement {k₀ : FuncId} {f g : Func} {R : Place → Place → Prop}
    (S : Replacement m m' k₀ f g (fun _ => True) R) : Preserves m m' :=
  fun _ _ _ _ _ _ h => S.answers h fun _ _ _ _ _ _ _ => trivial

/-- A call that answers within its bound on steps answers the same within it,
and leaves the same memory and trace. -/
theorem call_ok (h : Preserves m m') {name : String}
    (hlookup : m'.lookup name = m.lookup name) {args r : List Int64}
    {s t : Machine} (hcall : call m name args s = .ok r t) :
    ∃ t', call m' name args s = .ok r t' ∧ t'.memory = t.memory
        ∧ t'.trace = t.trace := by
  obtain ⟨k, vs, n, hk, rfl, ha, hspent⟩ := call_answers hcall
  obtain ⟨n', hn', ha'⟩ := h k _ _ n vs _ ha
  have hroom := hspent.room
  obtain ⟨t', ht', hstill, -⟩ :=
    ha'.call_ok (hlookup.trans hk) (s := s) rfl (by omega)
  have hmemory : t'.still.memory = t.still.memory := by rw [hstill]; rfl
  have htrace : t'.still.trace = t.still.trace := by rw [hstill]; rfl
  exact ⟨t', ht', hmemory, htrace⟩

end Preserves

end MirBackend.Interp
