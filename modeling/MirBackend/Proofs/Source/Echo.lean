/-
Readers that read again what is printed of what they read.

A reader has answered once, on some input, and changed the context from `c` to
`c'`. `Echo` says what happens when it runs a second time, on the printed form
of its answer and in a context that is the same as `c` but for the calls, whose
callees the printed form names by their function: it gives the same answer,
leaves what follows the printed form, and ends in a context that is the same as
`c'`. Echoes are put together as the readers are (`Echo.bind`).

What is printed depends on the finished function and module, which the first run
only approaches. `Setting` holds them, and an echo may use that all types
written so far are those of the finished function (`Agrees`).
-/
import MirBackend.Proofs.Source.Types
import MirBackend.Source.Reader
import MirBackend.Source.Printer

namespace MirBackend.Source

open Text

variable {α β : Type} {c c' c₁ c₂ : Context} {s s' rest : List UInt8}

-- =============================================================== sequences

/-- Readers in turn succeed if both do, the second one with the context and the
input that the first one left. -/
theorem read_bind_eq_ok {x : Read α} {k : α → Read β} {b : β} :
    (x >>= k) c s = .ok ((b, c'), s') ↔
    ∃ a c₁ s₁, x c s = .ok ((a, c₁), s₁) ∧ k a c₁ s₁ = .ok ((b, c'), s') := by
  show (x c >>= fun y => k y.1 y.2) s = _ ↔ _
  rw [scan_bind_eq_ok]
  exact ⟨fun ⟨⟨a, c₁⟩, s₁, h₁, h₂⟩ => ⟨a, c₁, s₁, h₁, h₂⟩,
    fun ⟨a, c₁, s₁, h₁, h₂⟩ => ⟨(a, c₁), s₁, h₁, h₂⟩⟩

/-- The answer of a reader is handed on. -/
theorem read_bind_of_ok {x : Read α} {k : α → Read β} {a : α} {s₁ : List UInt8}
    (h : x c s = .ok ((a, c₁), s₁)) : (x >>= k) c s = k a c₁ s₁ := by
  show (x c >>= fun y => k y.1 y.2) s = _
  rw [scan_bind_of_ok h]

theorem read_pure_eq_ok {a b : α} :
    (pure a : Read α) c s = .ok ((b, c'), s') ↔ a = b ∧ c = c' ∧ s = s' := by
  show Except.ok ((a, c), s) = Except.ok ((b, c'), s') ↔ _
  rw [Except.ok.injEq, Prod.mk.injEq, Prod.mk.injEq, and_assoc]

/-- A scanner leaves the context as it is. -/
theorem lift_eq_ok {x : Scan α} {a : α} :
    (liftM x : Read α) c s = .ok ((a, c'), s')
      ↔ x s = .ok (a, s') ∧ c = c' := by
  show (x >>= fun a => pure (a, c) : Scan (α × Context)) s = _ ↔ _
  rw [scan_bind_eq_ok]
  constructor
  · rintro ⟨b, s₁, hb, h⟩
    obtain ⟨hpair, rfl⟩ := scan_pure_eq_ok.mp h
    cases hpair
    exact ⟨hb, rfl⟩
  · rintro ⟨ha, rfl⟩
    exact ⟨a, s', ha, rfl⟩

/-- Naming the part in errors does not change what is answered. -/
theorem readInPart_eq_ok {part : String} {p : Read α}
    {x : (α × Context) × List UInt8} :
    Read.inPart part p c s = .ok x ↔ p c s = .ok x := inPart_eq_ok

-- ================================================================ contexts

/-- What the printed form of a function rests on: the finished module and
function, and the functions that the calls mean, by their turns. Their names can
be read. -/
structure Setting where
  module : Module
  func : Func
  callees : List (FuncId × Signature)
  named : ∀ turn < callees.length,
    isName (calleeText (some module) (callees.getD turn (turn, {})).1) = true

namespace Setting

/-- The name that stands for the callee of a call in the printed form. -/
def callee (e : Setting) (turn : Nat) : String :=
  calleeText (some e.module) (e.callees.getD turn (turn, {})).1

/-- The printed form of an instruction as it was read. -/
def text (e : Setting) (i : Instr) : Option String :=
  instrText (some e.module) e.func (resolveCall e.callees i)

end Setting

/-- Every value with a written type has a recorded one, and that was written
too. -/
def Typed (c : Context) : Prop := ∀ id t, (c.func.name, id, t) ∈ c.annotations →
  ∃ t', c.func.types[id]? = some t' ∧ (c.func.name, id, t') ∈ c.annotations

/-- What reading a part of a function can do to the context. -/
structure Grows (c c' : Context) : Prop where
  frame : c'.func
    = { c.func with types := c'.func.types, nextValue := c'.func.nextValue }
  annotations : c.annotations ⊆ c'.annotations
  here : ∀ x ∈ c'.annotations, x ∈ c.annotations ∨ x.1 = c.func.name
  calls : c.calls.length ≤ c'.calls.length
  typed : Typed c → Typed c'

theorem Grows.refl (c : Context) : Grows c c :=
  ⟨rfl, fun _ h => h, fun _ h => .inl h, Nat.le_refl _, id⟩

/-- Readers do not rename the function. -/
theorem Grows.name (h : Grows c c') :
    c'.func.name = c.func.name := by rw [h.frame]

theorem Grows.trans (h : Grows c c₁) (h' : Grows c₁ c') : Grows c c' where
  frame := by
    have := h'.frame
    rw [h.frame] at this
    exact this
  annotations x hx := h'.annotations (h.annotations hx)
  here x hx := by
    rcases h'.here x hx with hx | hx
    · exact h.here x hx
    · exact .inr (hx.trans h.name)
  calls := h.calls.trans h'.calls
  typed ht := h'.typed (h.typed ht)

/-- The types written so far are those of the finished function, and there are
not more calls than the finished module has. -/
structure Agrees (e : Setting) (c : Context) : Prop where
  name : c.func.name = e.func.name
  types : ∀ id t, (e.func.name, id, t) ∈ c.annotations → e.func.typeOf id = t
  calls : c.calls.length ≤ e.callees.length

/-- A setting that agrees with what was read in the end agrees with what was
read on the way. -/
theorem Agrees.of_grows {e : Setting} (h : Agrees e c')
    (g : Grows c c') : Agrees e c :=
  ⟨g.name.symm.trans h.name, fun id t ht => h.types id t (g.annotations ht),
  g.calls.trans h.calls⟩

/-- The calls of a second run: each names the function that is meant. -/
inductive Renamed (e : Setting) : List PendingCall →
    List PendingCall → Prop where
  | nil : Renamed e [] []
  | cons {k l : PendingCall} {ks ls : List PendingCall} (tail : Renamed e ks ls)
      (name : l.name = e.callee ks.length) (results : l.results = k.results) :
          Renamed e (k :: ks) (l :: ls)

/-- No call is lost by renaming callees, so turns stay the same. -/
theorem Renamed.length_eq {e : Setting} {ks ls : List PendingCall}
    (h : Renamed e ks ls) : ls.length = ks.length := by
  induction h with
  | nil => rfl
  | cons _ _ _ ih => rw [List.length_cons, List.length_cons, ih]

/-- The context of a second run. -/
structure Same (e : Setting) (c c₂ : Context) : Prop where
  func : c₂.func = c.func
  calls : Renamed e c.calls c₂.calls

-- ================================================================== echoes

/-- A reader that took the context from `c` to `c'` reads again what `W` puts
before the rest of the input; `A` are the answers it may give. -/
def Echo (e : Setting) (p : Read α) (c c' : Context) (A : α → Prop)
    (W : List UInt8 → List UInt8 → Prop) : Prop :=
  Grows c c' ∧ (Agrees e c' → ∀ c₂ s rest, Same e c c₂ → W s rest →
    ∃ a c₂', A a ∧ Same e c' c₂' ∧ p c₂ s = .ok ((a, c₂'), rest))

/-- A text stands in front and ends there. -/
def Front (w s rest : List UInt8) : Prop := skipped s = w ++ rest ∧ Ends rest

section

variable {e : Setting} {p : Read α} {k : α → Read β} {a : α}
  {A : α → Prop} {B : β → Prop} {W V : List UInt8 → List UInt8 → Prop}

/-- Echoes follow one another. What the first reader answers is known, so the
second one needs an echo for that only. -/
theorem Echo.bind (hp : Echo e p c c₁ A W) (g : Grows c₁ c')
    (hk : ∀ a, A a → Echo e (k a) c₁ c' B V) :
    Echo e (p >>= k) c c' B fun s rest => ∃ s₁, W s s₁ ∧ V s₁ rest := by
  refine ⟨hp.1.trans g, fun ha c₂ s rest hsame ⟨s₁, hw, hv⟩ => ?_⟩
  obtain ⟨a, c₃, hA, hsame₁, hrun⟩ := hp.2 (ha.of_grows g) c₂ s s₁ hsame hw
  rw [read_bind_of_ok hrun]
  exact (hk a hA).2 ha c₃ s₁ rest hsame₁ hv

/-- One reader after another that gives one answer only. -/
theorem Echo.seq (hp : Echo e p c c₁ (· = a) W) (hk : Echo e (k a) c₁ c' B V) :
    Echo e (p >>= k) c c' B fun s rest => ∃ s₁, W s s₁ ∧ V s₁ rest := by
  refine hp.bind hk.1 ?_
  rintro _ rfl
  exact hk

/-- An echo is one for fewer inputs, too. -/
theorem Echo.imp (h : Echo e p c c' A W) (hv : ∀ s rest, V s rest → W s rest) :
    Echo e p c c' A V :=
  ⟨h.1, fun ha c₂ s rest hsame hs => h.2 ha c₂ s rest hsame (hv s rest hs)⟩

theorem Echo.pure (e : Setting) (c : Context) (a : α) :
    Echo e (pure a) c c (· = a) fun s rest => s = rest :=
  ⟨.refl c, fun _ c₂ s rest hsame hs => ⟨a, c₂, rfl, hsame, by rw [hs]; rfl⟩⟩

/-- What scanners read is read again if it is taken where it stands. -/
theorem Echo.scan (e : Setting) (c : Context) {x : Scan α}
    (h : ∀ s rest, W s rest → x s = .ok (a, rest)) :
    Echo e (liftM x) c c (· = a) W :=
  ⟨.refl c, fun _ c₂ s rest hsame hs => ⟨a, c₂, rfl, hsame,
  lift_eq_ok.mpr ⟨h s rest hs, rfl⟩⟩⟩

/-- An echo may rest on what the end of the first run shows. -/
theorem Echo.of_agrees (g : Grows c c') (h : Agrees e c' → Echo e p c c' A W) :
    Echo e p c c' A W :=
  ⟨g, fun ha => (h ha).2 ha⟩

/-- Where the context is looked at, it has the same function, and calls that
differ in their callees only. -/
theorem Echo.get {k : Context → Read β} (g : Grows c c')
    (h : ∀ c₂, Same e c c₂ → Echo e (k c₂) c c' B W) :
    Echo e (MonadState.get >>= k) c c' B W :=
  ⟨g, fun ha c₂ s rest hsame hs => (h c₂ hsame).2 ha c₂ s rest hsame hs⟩

/-- Where the input is looked at, only places of errors depend on it. -/
theorem Echo.left {k : List UInt8 → Read β} (h : ∀ l, Echo e (k l) c c' B W) :
    Echo e (Source.left >>= k) c c' B W :=
  ⟨(h []).1, fun ha c₂ s rest hsame hs => by
    rw [read_bind_of_ok (a := s) (by rfl)]
    exact (h s).2 ha c₂ s rest hsame hs⟩

/-- A look at what is left that the printed form decides. -/
theorem Echo.leftPos {q r : Read β} {P : List UInt8 → Prop} [DecidablePred P]
    (h : Echo e q c c' B W) (hP : ∀ s rest, W s rest → P s) :
    Echo e (Source.left >>= fun l => if P l then q else r) c c' B W :=
  ⟨h.1, fun ha c₂ s rest hsame hs => by
    rw [read_bind_of_ok (a := s) (by rfl), if_pos (hP s rest hs)]
    exact h.2 ha c₂ s rest hsame hs⟩

/-- Where a test of the input turns out the same, so does the branch. -/
theorem Echo.leftNeg {q r : Read β} {P : List UInt8 → Prop} [DecidablePred P]
    (h : Echo e r c c' B W) (hP : ∀ s rest, W s rest → ¬P s) :
    Echo e (Source.left >>= fun l => if P l then q else r) c c' B W :=
  ⟨h.1, fun ha c₂ s rest hsame hs => by
    rw [read_bind_of_ok (a := s) (by rfl), if_neg (hP s rest hs)]
    exact h.2 ha c₂ s rest hsame hs⟩

/-- Turns are counted from the input, and more of them are no different. -/
theorem Echo.turns {k : Nat → Read β}
    (h : ∀ n, Echo e (k n) c c' B fun s rest => s.length < n ∧ W s rest) :
    Echo e (Source.turns >>= k) c c' B W :=
  ⟨(h 0).1, fun ha c₂ s rest hsame hs => by
    rw [read_bind_of_ok (a := s.length + 1) (by rfl)]
    exact (h _).2 ha c₂ s rest hsame ⟨Nat.lt_succ_self _, hs⟩⟩

/-- The parts that errors name are no part of an echo. -/
theorem Echo.inPart {part : String} (h : Echo e p c c' A W) :
    Echo e (Read.inPart part p) c c' A W :=
  ⟨h.1, fun ha c₂ s rest hsame hs => by
    obtain ⟨a, c₂', hA, hsame', hrun⟩ := h.2 ha c₂ s rest hsame hs
    exact ⟨a, c₂', hA, hsame', readInPart_eq_ok.mpr hrun⟩⟩

end

-- ================================================================ operands

/-- Announcing an id moves the counter and nothing else. -/
theorem announce_frame (f : Func) (id : ValueId) :
    f.announce id = { f with nextValue := (f.announce id).nextValue } := by
  unfold Func.announce
  split <;> rfl

/-- The counter of a function only goes up. -/
theorem grows_announce (c : Context) (id : ValueId) :
    Grows c { c with func := c.func.announce id } where
  frame := by
    have h := announce_frame c.func id
    rw [h]
  annotations _ h := h
  here _ h := .inl h
  calls := Nat.le_refl _
  typed ht v t hv := by
    rw [announce_frame] at hv
    obtain ⟨t', ht'⟩ := ht v t hv
    rw [announce_frame]
    exact ⟨t', ht'⟩

/-- An operand is told by its first byte: a percent sign, a sign or a digit, a
parenthesis, or else a word. -/
theorem operand_eq (c : Context) (s : List UInt8) :
    operand c s = (match skipped s with
    | [] => Read.failAt [] .valueExpected
    | b :: rest => do
      if b = 0x25 then
        let id ← (valueId : Scan ValueId)
        editFunc (·.announce id)
        return .value id
      else if b = 0x2D || isDigit b then
        let n ← (number : Scan Int)
        if -2147483648 ≤ n ∧ n < 2147483648 then return .int (Int32.ofInt n)
        else Read.failAt (b :: rest) (.literalRange n)
      else if b = 0x28 then
        setLeft rest
        if ← closes ")" then return .unit
        else Read.failAt (skipped rest) .unitExpected
      else if (← attempt (keyword "true")).isSome then return .bool true
      else if (← attempt (keyword "false")).isSome then return .bool false
      else match after? (Text.bytesOf "<error>") (b :: rest) with
        | some rest =>
            setLeft rest
            return .error
        | none => Read.failAt (b :: rest) .valueExpected :
          Read Operand) c (skipped s) := by
  show (match skipped s with | [] => _ | b :: rest => _ :
      Read Operand) c (skipped s) = _
  cases skipped s <;> rfl

-- The forms of operands, each taken where it stands. A value is announced on
-- the way.
theorem operand_value {id : ValueId} (hid : IsValueId id)
    (h : Front (bytesOf (Operand.value id).text) s rest) :
    operand c s = .ok ((.value id, { c with func := c.func.announce id }),
        rest) := by
  have hfront : skipped s = 0x25 :: (bytesOf (toString id.toInt) ++ rest) := by
    rw [h.1, Operand.text, valueText, bytesOf_append, bytesOf_percent]
    rfl
  have hread : valueId (skipped s) = .ok (id, rest) :=
    valueId_takes hid (by rw [h.1, Operand.text, skipped_value]) h.2
  rw [operand_eq]
  rw [hfront] at hread ⊢
  dsimp only
  rw [if_pos rfl, read_bind_of_ok (lift_eq_ok.mpr ⟨hread, rfl⟩)]
  rfl

theorem operand_int {n : Int32}
    (h : Front (bytesOf (Operand.int n).text) s rest) :
    operand c s = .ok ((.int n, c), rest) := by
  have hlt := n.toInt_lt
  have hle := n.le_toInt
  have hread : number (skipped s) = .ok (n.toInt, rest) :=
    number_takes (by omega) (by rw [h.1, Operand.text, skipped_number]) h.2
  obtain ⟨b, bs, hbytes, hb⟩ := number_head n.toInt
  have hfront : skipped s = b :: (bs ++ rest) := by
    rw [h.1, Operand.text, hbytes]
    rfl
  have hne : b ≠ 0x25 := by
    rintro rfl
    rcases hb with hb | hb <;> exact absurd hb (by decide)
  have hstart : (decide (b = 0x2D) || isDigit b) = true := by simpa using hb
  rw [operand_eq]
  rw [hfront] at hread ⊢
  dsimp only
  rw [if_neg hne, if_pos hstart, read_bind_of_ok (lift_eq_ok.mpr ⟨hread, rfl⟩),
    if_pos ⟨hle, hlt⟩, Int32.ofInt_toInt]
  rfl

theorem operand_unit (h : Front (bytesOf Operand.unit.text) s rest) :
    operand c s = .ok ((.unit, c), rest) := by
  have hfront : skipped s = 0x28 :: 0x29 :: rest := by
    rw [h.1, Operand.text, show bytesOf "()" = [0x28, 0x29]
      from bytesOf_ofList _]
    rfl
  have hclose := closes_here bytesOf_parenClose
    (skipped_of_solid (show isSolid 0x29 = true by decide) rest)
  rw [operand_eq, hfront]
  dsimp only
  rw [if_neg (by decide), if_neg (by decide), if_pos rfl,
    read_bind_of_ok (a := ()) (by rfl),
    read_bind_of_ok (lift_eq_ok.mpr ⟨hclose, rfl⟩)]
  rfl

theorem operand_true (h : Front (bytesOf (Operand.bool true).text) s rest) :
    operand c s = .ok ((.bool true, c), rest) := by
  have hbytes : bytesOf "true" = [0x74, 0x72, 0x75, 0x65] := bytesOf_ofList _
  have hfront : skipped s = 0x74 :: 0x72 :: 0x75 :: 0x65 :: rest := by
    rw [h.1, Operand.text, hbytes]
    rfl
  have hread : attempt (keyword "true") (0x74 :: 0x72 :: 0x75 :: 0x65 :: rest)
      = .ok (some (), rest) := by
    refine attempt_of_ok (keyword_takes ?_ h.2)
    rw [skipped_of_solid (by decide), hbytes]
    rfl
  rw [operand_eq, hfront]
  dsimp only
  rw [if_neg (by decide), if_neg (by decide), if_neg (by decide),
    read_bind_of_ok (lift_eq_ok.mpr ⟨hread, rfl⟩)]
  rfl

theorem operand_false (h : Front (bytesOf (Operand.bool false).text) s rest) :
    operand c s = .ok ((.bool false, c), rest) := by
  have hbytes : bytesOf "false" = [0x66, 0x61, 0x6C, 0x73, 0x65] :=
    bytesOf_ofList _
  have hfront : skipped s = 0x66 :: 0x61 :: 0x6C :: 0x73 :: 0x65 :: rest := by
    rw [h.1, Operand.text, hbytes]
    rfl
  obtain ⟨err, herr⟩ :=
    keyword_fails (t := "true")
      (s := 0x66 :: 0x61 :: 0x6C :: 0x73 :: 0x65 :: rest) (by
    rw [skipped_of_solid (by decide),
      show bytesOf "true" = [0x74, 0x72, 0x75, 0x65] from bytesOf_ofList _]
    exact after?_of_ne (by decide) _ _)
  have hread :
      attempt (keyword "false") (0x66 :: 0x61 :: 0x6C :: 0x73 :: 0x65 :: rest)
      = .ok (some (), rest) := by
    refine attempt_of_ok (keyword_takes ?_ h.2)
    rw [skipped_of_solid (by decide), hbytes]
    rfl
  rw [operand_eq, hfront]
  dsimp only
  rw [if_neg (by decide), if_neg (by decide), if_neg (by decide),
    read_bind_of_ok (lift_eq_ok.mpr ⟨attempt_of_error herr, rfl⟩)]
  rw [if_neg (by decide), read_bind_of_ok (lift_eq_ok.mpr ⟨hread, rfl⟩)]
  rfl

theorem operand_error (h : Front (bytesOf Operand.error.text) s rest) :
    operand c s = .ok ((.error, c), rest) := by
  have hhead : bytesOf "<error>" = 0x3C :: bytesOf "error>" := by decide +kernel
  have hfront : skipped s = 0x3C :: (bytesOf "error>" ++ rest) := by
    rw [h.1, Operand.text, hhead]
    rfl
  have hfails (t : String) (b : UInt8) (bs : List UInt8)
      (ht : bytesOf t = b :: bs) (hb : b ≠ 0x3C) :
      ∃ err, keyword t (0x3C :: (bytesOf "error>" ++ rest)) = .error err :=
    keyword_fails (by
      rw [skipped_of_solid (by decide), ht]
      exact after?_of_ne hb _ _)
  obtain ⟨err, herr⟩ := hfails "true" 0x74 [0x72, 0x75,
    0x65] (by decide +kernel) (by decide)
  obtain ⟨err', herr'⟩ := hfails "false" 0x66 [0x61, 0x6C, 0x73,
    0x65] (by decide +kernel) (by decide)
  have hafter : after? (bytesOf "<error>") (0x3C :: (bytesOf "error>" ++ rest))
      = some rest := by
    have := after?_append (bytesOf "<error>") rest
    rwa [hhead] at this ⊢
  rw [operand_eq, hfront]
  dsimp only
  rw [if_neg (by decide), if_neg (by decide), if_neg (by decide),
    read_bind_of_ok (lift_eq_ok.mpr ⟨attempt_of_error herr, rfl⟩)]
  rw [if_neg (by decide),
    read_bind_of_ok (lift_eq_ok.mpr ⟨attempt_of_error herr', rfl⟩)]
  rw [if_neg (by decide), hafter]
  rfl

/-- What an operand that was read can be, and what reading it did. -/
theorem operand_spec {v : Operand} (h : operand c s = .ok ((v, c'), s')) :
    (∃ id, v = .value id ∧ IsValueId id ∧ c'
      = { c with func := c.func.announce id }) ∨
      (v ≠ .invalid ∧ v.id? = none ∧ c' = c) := by
  rw [operand_eq] at h
  generalize skipped s = front at h
  match front with
  | [] => cases h
  | b :: rest =>
      dsimp only at h
      by_cases hvalue : b = 0x25
      · rw [if_pos hvalue] at h
        obtain ⟨id, c₁, s₁, hlift, h⟩ := read_bind_eq_ok.mp h
        obtain ⟨hid, rfl⟩ := lift_eq_ok.mp hlift
        cases h
        exact .inl ⟨id, rfl, valueId_spec hid, rfl⟩
      rw [if_neg hvalue] at h
      right
      by_cases hnumber : (decide (b = 0x2D) || isDigit b) = true
      · rw [if_pos hnumber] at h
        obtain ⟨n, c₁, s₁, hn, h⟩ := read_bind_eq_ok.mp h
        obtain ⟨hn, rfl⟩ := lift_eq_ok.mp hn
        split at h
        · cases h
          exact ⟨by simp, rfl, rfl⟩
        · cases h
      rw [if_neg hnumber] at h
      by_cases hunit : b = 0x28
      · rw [if_pos hunit] at h
        obtain ⟨_, c₁, s₁, hset, h⟩ := read_bind_eq_ok.mp h
        cases hset
        obtain ⟨closed, c₁, s₁, hclosed, h⟩ := read_bind_eq_ok.mp h
        obtain ⟨-, rfl⟩ := lift_eq_ok.mp hclosed
        split at h
        · cases h
          exact ⟨by simp, rfl, rfl⟩
        · cases h
      rw [if_neg hunit] at h
      obtain ⟨o, c₁, s₁, ho, h⟩ := read_bind_eq_ok.mp h
      obtain ⟨-, rfl⟩ := lift_eq_ok.mp ho
      split at h
      · cases h
        exact ⟨by simp, rfl, rfl⟩
      obtain ⟨o, c₁, s₁, ho, h⟩ := read_bind_eq_ok.mp h
      obtain ⟨-, rfl⟩ := lift_eq_ok.mp ho
      split at h
      · cases h
        exact ⟨by simp, rfl, rfl⟩
      match hafter : after? (bytesOf "<error>") (b :: rest), h with
      | some t, h =>
          cases h
          exact ⟨by simp, rfl, rfl⟩
      | none, h => cases h

/-- All operands that can be written begin like items. -/
theorem opens_operand {v : Operand} (hv : v ≠ .invalid) :
    Opens (bytesOf v.text) := by
  match v, hv with
  | .value id, _ =>
      rw [Operand.text, valueText, bytesOf_append, bytesOf_percent]
      exact opens_cons (by decide) _
  | .int n, _ =>
      obtain ⟨b, bs, hbytes, hb⟩ := number_head n.toInt
      rw [Operand.text, hbytes]
      refine opens_cons ?_ _
      rcases hb with rfl | hb
      · decide
      · exact opening_of_isDigit hb
  | .bool true, _ => exact opens_name (n := "true") (by decide +kernel)
  | .bool false, _ => exact opens_name (n := "false") (by decide +kernel)
  | .unit, _ =>
      rw [Operand.text, show bytesOf "()" = [0x28, 0x29] from bytesOf_ofList _]
      exact opens_cons (by decide) _
  | .error, _ =>
      rw [Operand.text, show bytesOf "<error>"
        = 0x3C :: bytesOf "error>" by decide +kernel]
      exact opens_cons (by decide) _

/-- An operand that was read is read again, and it may stand in a list. -/
theorem operand_echo (e : Setting) {v : Operand}
    (h : operand c s = .ok ((v, c'), s')) :
    Opens (bytesOf v.text) ∧ Echo e operand c c' (· = v)
      (Front (bytesOf v.text)) := by
  rcases operand_spec h with ⟨id, rfl, hid, rfl⟩ | ⟨hv, hnone, rfl⟩
  · refine ⟨opens_operand (by simp), grows_announce c id,
      fun _ c₂ s rest hsame hs => ?_⟩
    refine ⟨_, { c₂ with func := c₂.func.announce id }, rfl, ⟨?_, hsame.calls⟩,
      operand_value hid hs⟩
    show c₂.func.announce id = _
    rw [hsame.func]
  · refine ⟨opens_operand hv, .refl _,
      fun _ c₂ s rest hsame hs => ⟨v, c₂, rfl, hsame, ?_⟩⟩
    match v with
    | .value id => cases hnone
    | .int n => exact operand_int hs
    | .bool true => exact operand_true hs
    | .bool false => exact operand_false hs
    | .unit => exact operand_unit hs
    | .error => exact operand_error hs
    | .invalid => exact absurd rfl hv

end MirBackend.Source
