/-
Reading answers off computations that may stop.

A computation that may stop answers when each of its steps answers, and its
answer is the last one. The lemmas here say so for single steps, for steps
made for every element of a list, and for loops that carry a state: a loop
answers if every step keeps a property that the next step needs.
-/
import Mathlib
import MirBackend.Halt

namespace MirBackend

variable {ε δ σ α β : Type}

-- ============================================================ single steps

/-- Two steps answer when both do. -/
theorem bind_eq_ok {x : Except ε α} {k : α → Except ε β} {b : β} :
    x >>= k = .ok b ↔ ∃ a, x = .ok a ∧ k a = .ok b := by
  cases x with
  | error e => simp [bind, Except.bind]
  | ok a => simp [bind, Except.bind]

/-- A step without an answer of its own, and what follows it. -/
theorem seq_eq_ok {x : Except ε Unit} {k : Unit → Except ε β} {b : β} :
    x >>= k = .ok b ↔ x = .ok () ∧ k () = .ok b := by
  rw [bind_eq_ok]
  constructor
  · rintro ⟨⟨⟩, hx, hk⟩
    exact ⟨hx, hk⟩
  · rintro ⟨hx, hk⟩
    exact ⟨(), hx, hk⟩

/-- Of two steps, the first that does not answer is the error. -/
theorem bind_eq_error {x : Except ε α} {k : α → Except ε β} {e : ε} :
    x >>= k = .error e ↔ x = .error e ∨ ∃ a, x = .ok a ∧ k a = .error e := by
  cases x with
  | error e' => simp [bind, Except.bind]
  | ok a => simp [bind, Except.bind]

/-- A step without an answer of its own, and what follows it. -/
theorem seq_eq_error {x : Except ε Unit} {k : Unit → Except ε β} {e : ε} :
    x >>= k = .error e ↔ x = .error e ∨ (x = .ok () ∧ k () = .error e) := by
  rw [bind_eq_error]
  refine or_congr_right ⟨?_, fun h => ⟨(), h⟩⟩
  rintro ⟨⟨⟩, h⟩
  exact h

-- How successes and errors pass through the combinators.
@[simp] theorem ok_bind (a : α) (k : α → Except ε β) :
    (Except.ok a >>= k) = k a := rfl

@[simp] theorem error_bind (e : ε) (k : α → Except ε β) :
    (Except.error e >>= k) = .error e := rfl

@[simp] theorem orFault_eq_ok {x : Option α} {a : α} :
    orFault x = .ok a ↔ x = some a := by
  cases x <;> simp [orFault]

@[simp] theorem liftChecked_ok (a : α) :
    liftChecked (ε := ε) (.ok a) = .ok a := rfl

@[simp] theorem liftChecked_eq_ok {x : Checked α} {a : α} :
    liftChecked (ε := ε) x = .ok a ↔ x = .ok a := by
  cases x <;> simp [liftChecked]

theorem liftChecked_eq_error {x : Checked α} {s : Stop ε} :
    liftChecked x = .error s ↔ ∃ h, x = .error h ∧ s = .halt h := by
  cases x <;> simp [liftChecked, eq_comm]

@[simp] theorem mapError_eq_ok {g : ε → δ} {x : Except (Stop ε) α} {a : α} :
    mapError g x = .ok a ↔ x = .ok a := by
  rcases x with (h | e) | a <;> simp [mapError]

@[simp] theorem given_eq_ok {s : σ} {x : Checked α} {a : α} :
    given s x = .ok a ↔ x = .ok a := by
  cases x <;> simp [given]

-- =================================================================== lists

/-- A step made for every element answers when it answers for each of them. -/
theorem mapM_eq_ok {g : α → Except ε β} {as : List α} {bs : List β} :
    as.mapM g = .ok bs ↔ List.Forall₂ (fun a b => g a = .ok b) as bs := by
  induction as generalizing bs with
  | nil =>
      rw [List.mapM_nil]
      constructor
      · intro h
        cases h
        exact List.Forall₂.nil
      · intro h
        cases h
        rfl
  | cons a as ih =>
      rw [List.mapM_cons]
      simp only [bind_eq_ok, ih]
      constructor
      · rintro ⟨b, hb, bs', hbs, h⟩
        cases h
        exact List.Forall₂.cons hb hbs
      · intro h
        cases h with
        | cons hb hbs => exact ⟨_, hb, _, hbs, rfl⟩

/-- A step that always answers, made for every element. -/
theorem mapM_eq_ok_map {g : α → Except ε β} {r : α → β} {as : List α}
    (h : ∀ a ∈ as, g a = .ok (r a)) : as.mapM g = .ok (as.map r) := by
  rw [mapM_eq_ok, List.forall₂_map_right_iff]
  exact List.forall₂_same.mpr h

/-- A test that always answers, made for every element. -/
theorem filterM_eq_ok_filter {p : α → Except ε Bool}
    {q : α → Bool} {as : List α} (h : ∀ a ∈ as, p a = .ok (q a)) :
    as.filterM p = .ok (as.filter q) := by
  have haux : ∀ (as acc : List α), (∀ a ∈ as, p a = .ok (q a)) →
      List.filterAuxM p as acc = .ok ((as.filter q).reverse ++ acc) := by
    intro as
    induction as with
    | nil => intro acc _; rfl
    | cons a as ih =>
        intro acc h
        rw [List.filterAuxM, h a List.mem_cons_self, ok_bind,
          ih _ fun b hb => h b (List.mem_cons_of_mem _ hb)]
        cases hq : q a <;> simp [hq]
  rw [List.filterM, haux as [] h]
  simp

/-- A loop answers when each step answers and leaves what the steps behind it
need. -/
theorem foldlM_steps {g : σ → α → Except ε σ} (P : List α → σ → Prop)
    (hstep : ∀ s a as, P (a :: as) s → ∃ s', g s a = .ok s' ∧ P as s') :
    ∀ as s, P as s → ∃ s', as.foldlM g s = .ok s' ∧ P [] s' := by
  intro as
  induction as with
  | nil =>
      intro s hs
      exact ⟨s, rfl, hs⟩
  | cons a as ih =>
      intro s hs
      obtain ⟨s', hs', hP⟩ := hstep s a as hs
      obtain ⟨t, ht, hPt⟩ := ih s' hP
      refine ⟨t, ?_, hPt⟩
      rw [List.foldlM_cons, hs']
      exact ht

/-- A loop whose every step keeps an invariant answers and keeps it. -/
theorem foldlM_invariant {g : σ → α → Except ε σ} {P : σ → Prop} {as : List α}
    (hstep : ∀ s, P s → ∀ a ∈ as, ∃ s', g s a = .ok s' ∧ P s')
    {s : σ} (hs : P s) : ∃ s', as.foldlM g s = .ok s' ∧ P s' := by
  obtain ⟨s', h, -, hP⟩ := foldlM_steps (g := g)
    (fun rest s => (∀ a ∈ rest, a ∈ as) ∧ P s)
    (fun s a rest ⟨hmem, hP⟩ => by
      obtain ⟨s', hs', hP'⟩ := hstep s hP a (hmem a List.mem_cons_self)
      exact ⟨s', hs', fun b hb => hmem b (List.mem_cons_of_mem _ hb), hP'⟩)
    as s ⟨fun _ h => h, hs⟩
  exact ⟨s', h, hP⟩

/-- What every step of a loop keeps, a loop that answers keeps. -/
theorem foldlM_keeps_of_mem {g : σ → α → Except ε σ}
    {P : σ → Prop} {as : List α}
    (hstep : ∀ a ∈ as, ∀ s s', P s → g s a = .ok s' → P s') {s t : σ} (hs : P s)
    (h : as.foldlM g s = .ok t) : P t := by
  induction as generalizing s with
  | nil =>
      cases h
      exact hs
  | cons a as ih =>
      rw [List.foldlM_cons] at h
      obtain ⟨s', hs', h⟩ := bind_eq_ok.mp h
      exact ih (fun b hb => hstep b (List.mem_cons_of_mem _ hb))
        (hstep a List.mem_cons_self s s' hs hs') h

/-- What each step of a fold keeps, the fold keeps. -/
theorem foldlM_keeps {g : σ → α → Except ε σ} {P : σ → Prop}
    (hstep : ∀ s a s', P s → g s a = .ok s' → P s') {as : List α}
    {s t : σ} (hs : P s) (h : as.foldlM g s = .ok t) : P t :=
  foldlM_keeps_of_mem (fun a _ s s' => hstep s a s') hs h

/-- What a step of a loop reaches and the others keep, a loop that answers
reaches. -/
theorem foldlM_reaches {g : σ → α → Except ε σ} {P : α → σ → Prop} {as : List α}
    (hkeep : ∀ a b s s', P a s → g s b = .ok s' → P a s')
    (hreach : ∀ a s s', g s a = .ok s' → P a s') {s t : σ}
    (h : as.foldlM g s = .ok t) : ∀ a ∈ as, P a t := by
  induction as generalizing s with
  | nil => exact fun a ha => absurd ha List.not_mem_nil
  | cons a as ih =>
      rw [List.foldlM_cons] at h
      obtain ⟨s₁, hs₁, hrest⟩ := bind_eq_ok.mp h
      intro b hb
      rcases List.mem_cons.mp hb with rfl | hb
      · exact foldlM_keeps (P := P b) (fun s c s' => hkeep b c s s')
          (hreach b s s₁ hs₁) hrest
      · exact ih hrest b hb

end MirBackend
