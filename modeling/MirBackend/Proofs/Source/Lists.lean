/-
Lists of operands, of items in parentheses and of sources are read again.

The readers of lists loop with a bound on the turns they take. The bound of a
second run is the length of its input, and each turn takes at least a byte, so
the echoes ask only that the input is shorter than the bound.
-/
import MirBackend.Proofs.Source.Echo

namespace MirBackend.Source

open Text

variable {α β : Type} {e : Setting} {c c' c₁ c₂ : Context}
  {s s' rest : List UInt8}

-- ================================================================== commas

/-- Texts with commas between them are listed items. -/
theorem bytesOf_intercalate (ts : List String) :
    bytesOf (", ".intercalate ts) = listed (ts.map bytesOf) := by
  match ts with
  | [] => exact bytesOf_empty
  | [t] => rw [String.intercalate_singleton]; exact (List.append_nil _).symm
  | t :: u :: ts =>
      rw [String.intercalate_cons_cons, bytesOf_append, bytesOf_append,
        bytesOf_commaSpace, bytesOf_intercalate (u :: ts)]
      simp only [List.map_cons, listed, further_cons, List.append_assoc,
        List.cons_append, List.nil_append]

/-- A blank in front of a text. -/
theorem bytesOf_space_append (t : String) :
    bytesOf (" " ++ t) = 0x20 :: bytesOf t := by
  rw [bytesOf_append, show bytesOf " " = [0x20] from bytesOf_ofList _]
  rfl

/-- An item behind a blank. -/
theorem front_space {w : List UInt8} (hw : Opens w) (hrest : Ends rest) :
    Front w (0x20 :: (w ++ rest)) rest :=
  ⟨by rw [skipped_space, (hw.append rest).skipped], hrest⟩

/-- What stands in front is no longer than the input. -/
theorem Front.length_le {w : List UInt8} (h : Front w s rest) :
    w.length + rest.length ≤ s.length := by
  have := skipped_length_le s
  rwa [h.1, List.length_append] at this

/-- No blank stands in front of an item. -/
theorem Opens.skippedBlanks {w : List UInt8} (h : Opens w) :
    skippedBlanks w = w := by
  obtain ⟨b, w', rfl, hb⟩ := h.exists_cons
  simp only [isOpening, isSolid, Bool.and_eq_true, Bool.not_eq_true'] at hb
  exact List.dropWhile_cons_of_neg (by simp [hb.1.1.1.1.1])

/-- A line does not end where an item begins. -/
theorem Opens.notEnd {w : List UInt8} (h : Opens w) :
    (w.isEmpty || decide (w.head? = some 0x0A) || decide (w.head? = some 0x7D)
      || atComment w) = false := by
  obtain ⟨b, w', rfl, hb⟩ := h.exists_cons
  simp only [isOpening, isSolid, Bool.and_eq_true, decide_eq_true_eq] at hb
  have hcomment : atComment (b :: w') = false := by
    unfold atComment
    split
    · rename_i heq
      cases heq
      exact absurd rfl hb.1.1.1.2
    · rfl
  simp [hcomment, hb.1.1.1.1.2, hb.2]

-- ============================================================== parentheses

/-- What stands in a list in parentheses when some of its items have been
read. -/
def remaining (first : Bool) (ws : List (List UInt8)) : List UInt8 :=
  if first then listed ws else further ws

/-- A list of items up to the closing parenthesis. -/
theorem itemsUpTo_echo {item : Nat → Read α} {w : α → List UInt8}
    (hitem : ∀ j c s a c' s', item j c s = .ok ((a, c'), s') →
      Opens (w a) ∧ Echo e (item j) c c' (· = a) (Front (w a)))
    (fuel : Nat) {as bs : List α}
    (h : itemsUpTo ")" item fuel as c s = .ok ((bs, c'), s')) :
    ∃ news, bs = as ++ news ∧ (∀ a ∈ news, Opens (w a)) ∧
      ∀ turns, Echo e (itemsUpTo ")" item turns as) c c' (· = bs) fun s rest =>
        s.length < turns ∧ skipped s = remaining as.isEmpty
          (news.map w) ++ 0x29 :: rest := by
  induction fuel generalizing as c s with
  | zero => cases h
  | succ fuel ih =>
      rw [itemsUpTo] at h
      obtain ⟨closed, c₁, s₁, hclosed, h⟩ := read_bind_eq_ok.mp h
      obtain ⟨-, rfl⟩ := lift_eq_ok.mp hclosed
      cases closed with
      | true =>
          cases h
          refine ⟨[], (List.append_nil _).symm, by simp,
            fun turns => ⟨.refl _, fun _ c₂ s rest hsame hs => ?_⟩⟩
          obtain ⟨k, rfl⟩ : ∃ k, turns = k + 1 := ⟨turns - 1, by omega⟩
          have hfront : skipped s = 0x29 :: rest := by
            rw [hs.2]
            cases bs <;> rfl
          refine ⟨bs, c₂, rfl, hsame, ?_⟩
          rw [itemsUpTo,
            read_bind_of_ok
            (lift_eq_ok.mpr ⟨closes_here bytesOf_parenClose hfront, rfl⟩)]
          rfl
      | false =>
          simp only [Bool.false_eq_true, if_false] at h
          have hrest :
              ∃ s₂, (item as.length >>= fun a =>
              itemsUpTo ")" item fuel (as ++ [a])) c s₂ =
              .ok ((bs, c'), s') := by
            split at h
            · obtain ⟨_, c₁, s₂, hcomma, h⟩ := read_bind_eq_ok.mp h
              obtain ⟨-, rfl⟩ := lift_eq_ok.mp hcomma
              exact ⟨s₂, h⟩
            · exact ⟨s₁, h⟩
          obtain ⟨s₂, h⟩ := hrest
          obtain ⟨a, c₃, s₃, ha, h⟩ := read_bind_eq_ok.mp h
          obtain ⟨hopens, hecho⟩ := hitem _ _ _ _ _ _ ha
          obtain ⟨news, rfl, hnews, hmore⟩ := ih h
          refine ⟨a :: news, by simp, List.forall_mem_cons.mpr ⟨hopens, hnews⟩,
            fun turns => ⟨hecho.1.trans (hmore 0).1,
            fun hagrees c₂ s rest hsame hs => ?_⟩⟩
          obtain ⟨k, rfl⟩ : ∃ k, turns = k + 1 := ⟨turns - 1, by omega⟩
          have hlast : (as ++ [a]).isEmpty = false := by simp
          have hends : Ends (further (news.map w) ++ 0x29 :: rest) :=
            ends_further (by decide) _ _
          -- the item and what follows it, from where the item stands
          have hrun (s₁ : List UInt8) (hlen : s₁.length ≤ s.length)
              (hfront : Front (w a) s₁ (further (news.map w) ++ 0x29 :: rest)) :
                  ∃ bs c₂', bs = as ++ [a] ++ news ∧
              Same e c' c₂'
                ∧ (item as.length >>= fun a => itemsUpTo ")" item k (as ++ [a]))
                c₂ s₁ =
                .ok ((bs, c₂'), rest) := by
            obtain ⟨_, c₃', rfl, hsame', hread⟩ :=
              hecho.2 (hagrees.of_grows (hmore 0).1) c₂ s₁ _ hsame hfront
            have hshorter := hfront.length_le
            have hpos := hopens.length_pos
            obtain ⟨us, c₂', rfl, hsame'', hread'⟩ := (hmore k).2 hagrees c₃'
              (further (news.map w) ++ 0x29 :: rest) rest hsame'
              ⟨by omega, by
                rw [hlast, remaining, if_neg (by simp)]
                exact skipped_further (by decide) _ _⟩
            exact ⟨_, c₂', rfl,
              hsame'', by rw [read_bind_of_ok hread]; exact hread'⟩
          by_cases hempty : as.isEmpty = true
          · have hfront : skipped s
                = w a ++ (further (news.map w) ++ 0x29 :: rest) := by
              rw [hs.2, remaining, if_pos hempty, List.map_cons, listed,
                List.append_assoc]
            obtain ⟨us, c₂', hus, hsame', hread⟩ :=
              hrun s (Nat.le_refl _) ⟨hfront, hends⟩
            refine ⟨us, c₂', hus, hsame', ?_⟩
            rw [itemsUpTo, read_bind_of_ok (lift_eq_ok.mpr
              ⟨closes_opening bytesOf_parenClose (.inl rfl) hfront
              (hopens.append _), rfl⟩)]
            simp only [Bool.false_eq_true, if_false, hempty, Bool.not_true]
            exact hread
          · have hfront : skipped s = 0x2C :: 0x20
                :: (w a ++ (further (news.map w) ++ 0x29 :: rest)) := by
              rw [hs.2, remaining, if_neg hempty, List.map_cons, further_cons]
              simp only [List.append_assoc, List.cons_append]
            have hshorter := skipped_length_le s
            rw [hfront, List.length_cons] at hshorter
            obtain ⟨us, c₂', hus, hsame', hread⟩ :=
              hrun _ (by omega) (front_space hopens hends)
            refine ⟨us, c₂', hus, hsame', ?_⟩
            rw [itemsUpTo, read_bind_of_ok (lift_eq_ok.mpr
              ⟨closes_elsewhere bytesOf_parenClose hfront (by decide), rfl⟩)]
            simp only [Bool.false_eq_true, if_false, hempty,
              Bool.not_false, if_true]
            rw [read_bind_of_ok
              (lift_eq_ok.mpr ⟨token_here bytesOf_comma hfront, rfl⟩)]
            exact hread

-- =================================================================== lines

/-- The end of a line of a function's body: no list goes on behind it. -/
def LineEnd (rest : List UInt8) : Prop :=
  ∃ r, rest = 0x0A :: r ∧ after? [0x2C] (skipped r) = none

/-- The end of a line ends names and numbers. -/
theorem LineEnd.ends (h : LineEnd rest) : Ends rest := by
  obtain ⟨r, rfl, -⟩ := h
  exact ends_cons (by decide) _

/-- The end of a line is no blank inside of it. -/
theorem LineEnd.skippedBlanks (h : LineEnd rest) :
    skippedBlanks rest = rest := by
  obtain ⟨r, rfl, -⟩ := h
  exact List.dropWhile_cons_of_neg (by decide)

/-- There is no comma behind the end of a line. -/
theorem LineEnd.closes (h : LineEnd rest) :
    closes "," rest = .ok (false, rest) := by
  obtain ⟨r, rfl, hr⟩ := h
  refine closes_fails ?_
  rw [bytesOf_comma, skipped_line]
  exact hr

/-- Items end before a comma and before the end of the line. -/
theorem LineEnd.ends_further (h : LineEnd rest) (ws : List (List UInt8)) :
    Ends (further ws ++ rest) := by
  obtain ⟨r, rfl, -⟩ := h
  exact Source.ends_further (by decide) ws r

/-- The written forms of operands. -/
def operandBytes (vs : List Operand) : List (List UInt8) :=
  vs.map fun v => bytesOf v.text

/-- The printed list of operands is its items with commas between them. -/
theorem bytesOf_listText (vs : List Operand) :
    bytesOf (Operand.listText vs) = listed (operandBytes vs) := by
  rw [Operand.listText, bytesOf_intercalate, List.map_map]
  rfl

/-- One turn of reading further operands, behind the blanks. -/
def operandsAt (turns : Nat) (vs : List Operand) : List UInt8 →
    Read (List Operand)
  | 0x2C :: rest => do
      setLeft rest
      let v ← operand
      moreOperands turns (vs ++ [v])
  | _ => return vs

/-- One turn looks at what stands behind the blanks. -/
theorem moreOperands_succ (turns : Nat) (vs : List Operand) (c : Context)
    (s : List UInt8) :
    moreOperands (turns + 1) vs c s = operandsAt turns vs
      (skippedBlanks s) c s := rfl

/-- Behind a comma there is another operand. -/
theorem moreOperands_comma (turns : Nat) (vs : List Operand) (c : Context)
    (t : List UInt8) :
    moreOperands (turns + 1) vs c (0x2C :: t)
        = (operand >>= fun v => moreOperands turns (vs ++ [v])) c t := rfl

/-- At the end of the line the list is complete. -/
theorem moreOperands_end (turns : Nat) (vs : List Operand) (h : LineEnd rest) :
    moreOperands (turns + 1) vs c rest = .ok ((vs, c), rest) := by
  obtain ⟨r, rfl, -⟩ := h
  rfl

/-- Further operands are read again behind any that were read before. Each takes
a turn, and there is one for each byte. -/
theorem moreOperands_echo (e : Setting) (fuel : Nat) {vs us : List Operand}
    (h : moreOperands fuel vs c s = .ok ((us, c'), s')) :
    ∃ news, us = vs ++ news ∧
      ∀ turns, Echo e (moreOperands turns vs) c c' (· = us) fun s rest =>
        s.length < turns ∧ LineEnd rest ∧ s = further
          (operandBytes news) ++ rest := by
  -- nothing more was read
  have hnone (c : Context) (vs : List Operand) : ∃ news, vs = vs ++ news ∧
      ∀ turns, Echo e (moreOperands turns vs) c c (· = vs) fun s rest =>
        s.length < turns ∧ LineEnd rest
          ∧ s = further (operandBytes news) ++ rest := by
    refine ⟨[], (List.append_nil _).symm,
      fun turns => ⟨.refl _, fun _ c₂ s rest hsame hs => ?_⟩⟩
    obtain ⟨k, rfl⟩ : ∃ k, turns = k + 1 := ⟨turns - 1, by omega⟩
    obtain ⟨-, hend, rfl⟩ := hs
    exact ⟨vs, c₂, rfl, hsame, moreOperands_end k vs hend⟩
  induction fuel generalizing vs c s with
  | zero =>
      obtain ⟨rfl, rfl, rfl⟩ := read_pure_eq_ok.mp h
      exact hnone _ _
  | succ fuel ih =>
      rw [moreOperands_succ] at h
      generalize hp : operandsAt fuel vs (skippedBlanks s) = p at h
      unfold operandsAt at hp
      split at hp
      · subst hp
        obtain ⟨_, c₁, s₁, hset, h⟩ := read_bind_eq_ok.mp h
        cases hset
        obtain ⟨v, c₃, s₃, hv, h⟩ := read_bind_eq_ok.mp h
        obtain ⟨hopens, hecho⟩ := operand_echo e hv
        obtain ⟨news, rfl, hmore⟩ := ih h
        refine ⟨v :: news, by simp,
          fun turns => ⟨hecho.1.trans (hmore 0).1,
          fun hagrees c₂ s rest hsame hs => ?_⟩⟩
        obtain ⟨k, rfl⟩ : ∃ k, turns = k + 1 := ⟨turns - 1, by omega⟩
        obtain ⟨hlen, hend, rfl⟩ := hs
        have hfront : Front (bytesOf v.text)
            (0x20 :: (bytesOf v.text ++ (further (operandBytes news) ++ rest)))
            _ :=
          front_space hopens (hend.ends_further _)
        obtain ⟨v, c₃', rfl, hsame', hread⟩ :=
          hecho.2 (hagrees.of_grows (hmore 0).1) c₂ _ _ hsame hfront
        obtain ⟨us, c₂', rfl, hsame'', hread'⟩ :=
          (hmore k).2 hagrees c₃' _ rest hsame' ⟨by
          simp only [operandBytes, List.map_cons, further_cons,
            List.length_cons, List.length_append] at hlen ⊢
          omega, hend, rfl⟩
        refine ⟨_, c₂', rfl, hsame'', ?_⟩
        show moreOperands (k + 1) vs c₂ (0x2C :: 0x20
          :: (bytesOf v.text ++ further (operandBytes news) ++ rest)) = _
        rw [List.append_assoc, moreOperands_comma, read_bind_of_ok hread]
        exact hread'
      · subst hp
        obtain ⟨rfl, rfl, rfl⟩ := read_pure_eq_ok.mp h
        exact hnone _ _

/-- A list that ends with its line. -/
theorem operandLine_echo (e : Setting) {vs : List Operand}
    (h : operandLine c s = .ok ((vs, c'), s')) :
    (∀ rest, LineEnd rest →
      skippedBlanks (bytesOf (Operand.listText vs) ++ rest) =
      bytesOf (Operand.listText vs) ++ rest) ∧
    Echo e operandLine c c' (· = vs) fun s rest =>
      LineEnd rest ∧ skippedBlanks s = bytesOf
        (Operand.listText vs) ++ rest := by
  rw [operandLine] at h
  obtain ⟨left, c₁, s₁, hleft, h⟩ := read_bind_eq_ok.mp h
  cases hleft
  obtain ⟨_, c₁, s₁, hset, h⟩ := read_bind_eq_ok.mp h
  cases hset
  split at h
  · cases h
    have hnil : bytesOf (Operand.listText []) = [] := bytesOf_listText []
    refine ⟨fun rest hrest => by rw [hnil]; exact hrest.skippedBlanks, .refl _,
      fun _ c₂ s rest hsame hs => ⟨[], c₂, rfl, hsame, ?_⟩⟩
    have hblank : skippedBlanks s = rest := by
      rw [hs.2, bytesOf_listText]
      rfl
    obtain ⟨r, rfl, -⟩ := hs.1
    rw [operandLine, read_bind_of_ok (a := s) (by rfl),
      read_bind_of_ok (a := ()) (by rfl), hblank]
    rfl
  · obtain ⟨v, c₁, s₁, hv, h⟩ := read_bind_eq_ok.mp h
    obtain ⟨n, c₃, s₃, hn, h⟩ := read_bind_eq_ok.mp h
    cases hn
    obtain ⟨hopens, hecho⟩ := operand_echo e hv
    obtain ⟨news, rfl, hmore⟩ := moreOperands_echo e _ h
    refine ⟨fun rest _ => ?_, hecho.1.trans (hmore 0).1,
      fun hagrees c₂ s rest hsame hs => ?_⟩
    · rw [bytesOf_listText]
      exact (((hopens.append (further (operandBytes news))).append
        rest).skippedBlanks)
    obtain ⟨hend, hblank⟩ := hs
    have hfront : skippedBlanks s = bytesOf v.text
        ++ (further (operandBytes news) ++ rest) := by
      rw [hblank, bytesOf_listText, ← List.append_assoc]
      rfl
    have hopen := hopens.append (further (operandBytes news) ++ rest)
    obtain ⟨v, c₃', rfl, hsame', hread⟩ :=
      hecho.2 (hagrees.of_grows (hmore 0).1) c₂ _ _ hsame
      ⟨hopen.skipped, hend.ends_further _⟩
    obtain ⟨us, c₂', rfl, hsame'', hread'⟩ :=
      (hmore _).2 hagrees c₃' _ rest hsame'
      ⟨Nat.lt_succ_self _, hend, rfl⟩
    refine ⟨_, c₂', rfl, hsame'', ?_⟩
    have hhead :
        ((bytesOf v.text ++ (further (operandBytes news) ++ rest)).isEmpty
        || decide ((bytesOf v.text
          ++ (further (operandBytes news) ++ rest)).head? = some 0x0A)
        || decide ((bytesOf v.text
          ++ (further (operandBytes news) ++ rest)).head? = some 0x7D)
        || atComment (bytesOf v.text ++ (further (operandBytes news) ++ rest)))
          = false := hopen.notEnd
    rw [operandLine, read_bind_of_ok (a := s) (by rfl),
      read_bind_of_ok (a := ()) (by rfl), hfront, hhead]
    simp only [Bool.false_eq_true, if_false]
    rw [read_bind_of_ok hread, read_bind_of_ok (a := _) (by rfl)]
    exact hread'

end MirBackend.Source
