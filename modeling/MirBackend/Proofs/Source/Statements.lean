/-
Every form of statement is read again from its line.

A statement is the word or the destinations it opens with and a tail up to the
end of its line. One echo is shown for the tail of each operation, and from them
those of definitions, of other instructions and of terminators. A struct without
fields leaves a blank at the end of its line; it is part of the padding behind
the tail.
-/
import MirBackend.Proofs.Source.Lists

namespace MirBackend.Source

open Text

variable {e : Setting} {c c' c₁ c₂ : Context} {s s' rest : List UInt8}

-- =============================================================== fragments

-- What scanners read in statements is read again.
theorem skip_echo (e : Setting) (c : Context) :
    Echo e (liftM skip) c c (· = ()) fun s rest => skipped s = rest :=
  Echo.scan e c fun s rest hs => by rw [← hs]; rfl

theorem token_echo (e : Setting) (c : Context) {t : String} {b : UInt8}
    (ht : bytesOf t = [b]) :
    Echo e (liftM (token t)) c c (· = ()) fun s rest => skipped s = b :: rest :=
  Echo.scan e c fun _ _ hs => token_here ht hs

theorem closes_echo_false (e : Setting) (c : Context) (t : String) :
    Echo e (liftM (closes t)) c c (· = false) fun s rest => closes t s
        = .ok (false, s) ∧ s = rest :=
  Echo.scan e c fun _ _ hs => by rw [hs.1, hs.2]

theorem closes_echo_true (e : Setting) (c : Context) {t : String} {b : UInt8}
    (ht : bytesOf t = [b]) :
    Echo e (liftM (closes t)) c c
      (· = true) fun s rest => skipped s = b :: rest :=
  Echo.scan e c fun _ _ hs => closes_here ht hs

theorem ident_echo (e : Setting) (c : Context) {n : String}
    (hn : isName n = true) :
    Echo e (liftM ident) c c (· = n) (Front (bytesOf n)) :=
  Echo.scan e c fun _ _ hs => ident_takes hn hs.1 hs.2

/-- A pair of operands, with one comma. -/
theorem operandPair_echo (e : Setting) {l r : Operand}
    (h : operandPair c s = .ok (((l, r), c'), s')) :
    Opens (bytesOf l.text) ∧ Echo e operandPair c c' (· = (l, r))
      (Front (bytesOf (Operand.listText [l, r]))) := by
  obtain ⟨l, c₁, s₁, hl, h⟩ := read_bind_eq_ok.mp h
  obtain ⟨_, c₃, s₃, hcomma, h⟩ := read_bind_eq_ok.mp h
  obtain ⟨-, rfl⟩ := lift_eq_ok.mp hcomma
  obtain ⟨r, c₃, s₃, hr, h⟩ := read_bind_eq_ok.mp h
  cases h
  obtain ⟨hlopens, hlecho⟩ := operand_echo e hl
  obtain ⟨hropens, hrecho⟩ := operand_echo e hr
  refine ⟨hlopens,
    (hlecho.seq ((token_echo e c₁ bytesOf_comma).seq
    (hrecho.seq (Echo.pure e c' (l, r))))).imp fun s rest hs => ?_⟩
  obtain ⟨hfront, hends⟩ := hs
  rw [bytesOf_listText] at hfront
  simp only [operandBytes, List.map_cons, List.map_nil, listed, further_cons,
    further_nil, List.append_nil, List.append_assoc, List.cons_append] at hfront
  exact ⟨_, ⟨hfront, ends_cons (by decide) _⟩, _,
    skipped_of_solid (by decide) _, _, front_space hropens hends, rfl⟩

/-- A comma and a number behind it. -/
theorem commaNumber_spec {n : Int} (h : commaNumber s = .ok (n, s')) :
    -9223372036854775808 ≤ n ∧ n < 9223372036854775808 := by
  obtain ⟨_, s₁, -, h⟩ := scan_bind_eq_ok.mp h
  exact number_spec h

/-- A number behind a comma is taken where it stands. -/
theorem commaNumber_takes {n : Int}
    (hn : -9223372036854775808 ≤ n ∧ n < 9223372036854775808)
    (h : s = 0x2C :: 0x20 :: (bytesOf (toString n) ++ rest))
    (hrest : Ends rest) : commaNumber s = .ok (n, rest) := by
  rw [commaNumber, h,
    scan_bind_of_ok (token_here bytesOf_comma (skipped_of_solid (by decide) _))]
  exact number_takes hn (by rw [skipped_space, skipped_number]) hrest

/-- The targets of a branch can be written. -/
theorem branchTargets_spec {t u : BlockId}
    (h : branchTargets s = .ok ((t, u), s')) : IsBlockId t ∧ IsBlockId u := by
  obtain ⟨_, s₁, -, h⟩ := scan_bind_eq_ok.mp h
  obtain ⟨t, s₂, ht, h⟩ := scan_bind_eq_ok.mp h
  obtain ⟨_, s₃, -, h⟩ := scan_bind_eq_ok.mp h
  obtain ⟨u, s₄, hu, h⟩ := scan_bind_eq_ok.mp h
  cases h
  exact ⟨blockId_spec ht, blockId_spec hu⟩

/-- The targets of a branch are taken where they stand. -/
theorem branchTargets_takes {t u : BlockId} (ht : IsBlockId t)
    (hu : IsBlockId u) (h : s = bytesOf (branchText t u) ++ rest)
    (hrest : Ends rest) : branchTargets s = .ok ((t, u), rest) := by
  have hthen : bytesOf " then " = 0x20 :: (bytesOf "then" ++ [0x20]) := by
    decide +kernel
  have helse : bytesOf " else " = 0x20 :: (bytesOf "else" ++ [0x20]) := by
    decide +kernel
  have hs :
      s = 0x20
      :: (bytesOf "then" ++ 0x20
      :: (bytesOf (blockText t) ++ 0x20 :: (bytesOf "else" ++
      0x20 :: (bytesOf (blockText u) ++ rest)))) := by
    rw [h, branchText, bytesOf_append, bytesOf_append,
      bytesOf_append, hthen, helse]
    simp only [List.append_assoc, List.cons_append, List.nil_append]
  have hname (n : String) (hn : isName n = true) (r : List UInt8) :
      skipped (0x20 :: (bytesOf n ++ r)) = bytesOf n ++ r := by
    rw [skipped_space, skipped_name hn]
  have hblock (b : BlockId) (r : List UInt8) :
      skipped (0x20 :: (bytesOf (blockText b) ++ r)) =
      bytesOf (blockText b) ++ r := by
    rw [skipped_space, skipped_block]
  rw [branchTargets, hs,
    scan_bind_of_ok (keyword_takes (hname "then" (by decide +kernel) _)
      (ends_cons (by decide) _)),
    scan_bind_of_ok (blockId_takes ht (hblock t _) (ends_cons (by decide) _)),
    scan_bind_of_ok (keyword_takes (hname "else" (by decide +kernel) _)
      (ends_cons (by decide) _)),
    scan_bind_of_ok (blockId_takes hu (hblock u _) hrest)]
  rfl

/-- The source of a phi begins with its bracket. -/
theorem opens_source (x : PhiSource) : Opens (bytesOf (sourceText x)) := by
  rw [sourceText, bytesOf_append, bytesOf_append, bytesOf_append,
    bytesOf_append, bytesOf_bracketOpen]
  exact opens_cons (by decide) _

/-- The source of a phi: a block and an operand. -/
theorem phiSource_echo (e : Setting) {x : PhiSource}
    (h : phiSource c s = .ok ((x, c'), s')) :
    Echo e phiSource c c' (· = x) (Front (bytesOf (sourceText x))) := by
  obtain ⟨_, c₁, s₁, hopen, h⟩ := read_bind_eq_ok.mp h
  obtain ⟨-, rfl⟩ := lift_eq_ok.mp hopen
  obtain ⟨b, c₁, s₁, hblock, h⟩ := read_bind_eq_ok.mp h
  obtain ⟨hb, rfl⟩ := lift_eq_ok.mp hblock
  obtain ⟨_, c₁, s₁, hcolon, h⟩ := read_bind_eq_ok.mp h
  obtain ⟨-, rfl⟩ := lift_eq_ok.mp hcolon
  obtain ⟨v, c₁, s₁, hv, h⟩ := read_bind_eq_ok.mp h
  obtain ⟨_, c₃, s₃, hclose, h⟩ := read_bind_eq_ok.mp h
  obtain ⟨-, rfl⟩ := lift_eq_ok.mp hclose
  cases h
  obtain ⟨hopens, hecho⟩ := operand_echo e hv
  have hread : Echo e (liftM blockId) c c (· = b)
      (Front (bytesOf (blockText b))) :=
    Echo.scan e c fun s rest hs => blockId_takes (blockId_spec hb) hs.1 hs.2
  refine ((token_echo e c bytesOf_bracketOpen).seq
    (hread.seq ((token_echo e c bytesOf_colon).seq
    (hecho.seq ((token_echo e c' bytesOf_bracketClose).seq
      (Echo.pure e c' (⟨b, v⟩ : PhiSource))))))).imp
      fun s rest hs => ?_
  obtain ⟨hfront, hends⟩ := hs
  rw [sourceText, bytesOf_append, bytesOf_append, bytesOf_append,
    bytesOf_append, bytesOf_bracketOpen,
    bytesOf_bracketClose, bytesOf_colonSpace] at hfront
  simp only [List.append_assoc, List.cons_append, List.nil_append] at hfront
  exact ⟨_, hfront, _, ⟨skipped_block b _, ends_cons (by decide) _⟩, _,
    skipped_of_solid (by decide) _, _,
    front_space hopens (ends_cons (by decide) _), _,
      skipped_of_solid (by decide) _, rfl⟩

/-- The written forms of the sources of a phi. -/
def sourceBytes (xs : List PhiSource) : List (List UInt8) :=
  xs.map fun x => bytesOf (sourceText x)

/-- Further sources are read again behind those that were read before. -/
theorem morePhiSources_echo (e : Setting) (fuel : Nat) {xs ys : List PhiSource}
    (h : morePhiSources fuel xs c s = .ok ((ys, c'), s')) :
    ∃ news, ys = xs ++ news ∧
      ∀ turns, Echo e (morePhiSources turns xs) c c' (· = ys) fun s rest =>
        s.length < turns ∧ LineEnd rest ∧ s = further
          (sourceBytes news) ++ rest := by
  -- nothing more was read
  have hnone (c : Context) (xs : List PhiSource) : ∃ news, xs = xs ++ news ∧
      ∀ turns, Echo e (morePhiSources turns xs) c c (· = xs) fun s rest =>
        s.length < turns ∧ LineEnd rest
          ∧ s = further (sourceBytes news) ++ rest := by
    refine ⟨[], (List.append_nil _).symm,
      fun turns => ⟨.refl _, fun _ c₂ s rest hsame hs => ?_⟩⟩
    obtain ⟨k, rfl⟩ : ∃ k, turns = k + 1 := ⟨turns - 1, by omega⟩
    obtain ⟨-, hend, rfl⟩ := hs
    refine ⟨xs, c₂, rfl, hsame, ?_⟩
    rw [morePhiSources, read_bind_of_ok (lift_eq_ok.mpr ⟨hend.closes, rfl⟩)]
    rfl
  induction fuel generalizing xs c s with
  | zero =>
      obtain ⟨rfl, rfl, rfl⟩ := read_pure_eq_ok.mp h
      exact hnone _ _
  | succ fuel ih =>
      rw [morePhiSources] at h
      obtain ⟨closed, c₁, s₁, hclosed, h⟩ := read_bind_eq_ok.mp h
      obtain ⟨-, rfl⟩ := lift_eq_ok.mp hclosed
      cases closed with
      | false =>
          obtain ⟨rfl, rfl, rfl⟩ := read_pure_eq_ok.mp h
          exact hnone _ _
      | true =>
          simp only [if_true] at h
          obtain ⟨x, c₃, s₃, hx, h⟩ := read_bind_eq_ok.mp h
          have hecho := phiSource_echo e hx
          obtain ⟨news, rfl, hmore⟩ := ih h
          refine ⟨x :: news, by simp,
            fun turns => ⟨hecho.1.trans (hmore 0).1,
            fun hagrees c₂ s rest hsame hs => ?_⟩⟩
          obtain ⟨k, rfl⟩ : ∃ k, turns = k + 1 := ⟨turns - 1, by omega⟩
          obtain ⟨hlen, hend, rfl⟩ := hs
          have hfront : Front (bytesOf (sourceText x))
              (0x20 :: (bytesOf (sourceText x)
              ++ (further (sourceBytes news) ++ rest))) _ :=
            front_space (opens_source x) (hend.ends_further _)
          obtain ⟨x, c₃', rfl, hsame', hread⟩ :=
            hecho.2 (hagrees.of_grows (hmore 0).1) c₂ _ _ hsame hfront
          obtain ⟨us, c₂', rfl, hsame'', hread'⟩ :=
            (hmore k).2 hagrees c₃' _ rest hsame' ⟨by
            simp only [sourceBytes, List.map_cons, further_cons,
              List.length_cons, List.length_append] at hlen ⊢
            omega, hend, rfl⟩
          refine ⟨_, c₂', rfl, hsame'', ?_⟩
          show morePhiSources (k + 1) xs c₂
            (0x2C :: 0x20 :: (bytesOf (sourceText x)
            ++ further (sourceBytes news) ++ rest)) = _
          rw [morePhiSources, List.append_assoc, read_bind_of_ok (lift_eq_ok.mpr
            ⟨closes_here bytesOf_comma (skipped_of_solid (by decide) _), rfl⟩)]
          simp only [if_true]
          rw [read_bind_of_ok hread]
          exact hread'

-- ================================================================== fields

/-- The written form of a field and the value given for it. -/
def givenBytes (f : String × Operand) : List UInt8 :=
  bytesOf (f.1 ++ ": " ++ f.2.text)

/-- What is left of a line behind the values of a struct's fields. -/
theorem fieldValues_echo (e : Setting) (fs : List TyField)
    {vs us : List (String × Operand)}
    (h : fieldValues fs vs c s = .ok ((us, c'), s')) : ∃ news, us = vs ++ news ∧
      (∀ f ∈ news, Opens (givenBytes f)) ∧
      Echo e (fieldValues fs vs) c c' (· = us) fun s rest => Ends rest ∧
        if news = [] then s = rest else skipped s = remaining vs.isEmpty
          (news.map givenBytes) ++ rest := by
  induction fs generalizing vs c s with
  | nil =>
      obtain ⟨rfl, rfl, rfl⟩ := read_pure_eq_ok.mp h
      exact ⟨[], (List.append_nil _).symm, by simp,
        (Echo.pure e _ _).imp fun s rest hs => by simpa using hs.2⟩
  | cons field fs ih =>
      rw [fieldValues] at h
      have hrest : ∃ s₂, (liftM ident >>= fun name => (do
          token ":"
          let v ← operand
          fieldValues fs (vs ++ [(name, v)]) : Read (List (String × Operand))))
            c s₂ = .ok ((us, c'), s') := by
        split at h
        · obtain ⟨_, c₁, s₂, hcomma, h⟩ := read_bind_eq_ok.mp h
          obtain ⟨-, rfl⟩ := lift_eq_ok.mp hcomma
          exact ⟨s₂, h⟩
        · exact ⟨s, h⟩
      obtain ⟨s₂, h⟩ := hrest
      obtain ⟨n, c₁, s₁, hident, h⟩ := read_bind_eq_ok.mp h
      obtain ⟨hn, rfl⟩ := lift_eq_ok.mp hident
      obtain ⟨_, c₁, s₁, hcolon, h⟩ := read_bind_eq_ok.mp h
      obtain ⟨-, rfl⟩ := lift_eq_ok.mp hcolon
      obtain ⟨v, c₁, s₁, hv, h⟩ := read_bind_eq_ok.mp h
      obtain ⟨hopens, hecho⟩ := operand_echo e hv
      obtain ⟨news, rfl, hnews, hmore⟩ := ih h
      have hname := ident_spec hn
      have hgiven : givenBytes (n, v) = bytesOf n
          ++ 0x3A :: 0x20 :: bytesOf v.text := by
        rw [givenBytes, bytesOf_append, bytesOf_append, bytesOf_colonSpace]
        simp only [List.append_assoc, List.cons_append, List.nil_append]
      have hopen : Opens (givenBytes (n, v)) := by
        rw [hgiven]
        exact (opens_name hname).append _
      refine ⟨(n, v) :: news, by simp,
        List.forall_mem_cons.mpr ⟨hopen, hnews⟩, ?_⟩
      have hlast : (vs ++ [(n, v)]).isEmpty = false := by simp
      -- the field, its value and the further ones, from where the field stands
      have hall : Echo e (liftM ident >>= fun name => (do
          token ":"
          let v ← operand
          fieldValues fs (vs ++ [(name, v)]) : Read (List (String × Operand))))
            c c' (· = vs ++ [(n, v)] ++ news)
          fun s rest => Ends rest ∧ skipped s = givenBytes (n, v)
          ++ (further (news.map givenBytes) ++ rest) := by
        refine ((ident_echo e c hname).seq
          ((token_echo e c bytesOf_colon).seq (hecho.seq hmore))).imp
          fun s rest hs => ?_
        obtain ⟨hends, hs⟩ := hs
        rw [hgiven] at hs
        simp only [List.append_assoc, List.cons_append] at hs
        have hnext : Ends (further (news.map givenBytes) ++ rest) := by
          cases news with
          | nil => exact hends
          | cons g gs => exact ends_cons (by decide) _
        refine ⟨_, ⟨hs, ends_cons (by decide) _⟩, _,
          skipped_of_solid (by decide) _, _, front_space hopens hnext,
          hends, ?_⟩
        split
        · rename_i hnil
          rw [hnil]
          rfl
        · rename_i hnil
          rw [hlast, remaining, if_neg (by simp)]
          obtain ⟨g, gs, rfl⟩ := List.exists_cons_of_ne_nil hnil
          exact skipped_of_solid (by decide) _
      by_cases hempty : vs.isEmpty = true
      · rw [fieldValues]
        simp only [hempty, Bool.not_true, Bool.false_eq_true, if_false]
        refine hall.imp fun s rest hs => ⟨hs.1, ?_⟩
        have hfront := hs.2
        rw [if_neg (by simp), remaining, if_pos rfl, List.map_cons, listed,
          List.append_assoc] at hfront
        exact hfront
      · rw [fieldValues]
        simp only [hempty, Bool.not_false, if_true]
        refine ((token_echo e c bytesOf_comma).seq hall).imp fun s rest hs => ?_
        have hfront := hs.2
        rw [if_neg (by simp), remaining, if_neg (by simp), List.map_cons,
          further_cons] at hfront
        simp only [List.append_assoc, List.cons_append] at hfront
        exact ⟨_, hfront, hs.1, by rw [skipped_space, (hopen.append _).skipped]⟩

-- =================================================================== calls

/-- A callee with a name is taken where it stands, as no number begins with a
letter. -/
theorem callee_takes {n : String} (hn : isName n = true) (hrest : Ends rest) :
    callee (bytesOf n ++ rest) = .ok ((n, none), rest) := by
  obtain ⟨b, bs, hbytes, hb, -⟩ := isName_iff.mp hn
  have hdigit : isDigit b = false :=
    byte_forall (P := fun b => isLetter b = true →
      isDigit b = false) (by decide +kernel) b hb
  have hhead : ((bytesOf n ++ rest).head?.any isDigit) = false := by
    rw [hbytes]
    simpa using hdigit
  rw [callee, scan_bind_of_ok (a := bytesOf n ++ rest) (by rfl), hhead]
  simp only [Bool.false_eq_true, if_false]
  rw [scan_bind_of_ok (ident_takes hn (skipped_name hn rest) hrest)]
  rfl

/-- The destinations of a call, if it has any. -/
def callDests (f : Func) (ds : List ValueId) : String :=
  if ds.isEmpty then "" else destText f ds

/-- A call that is noted goes in front of those noted before. -/
theorem grows_call (c : Context) (k : PendingCall) :
    Grows c { c with calls := k :: c.calls } :=
  ⟨rfl, fun _ h => h, fun _ h => .inl h, Nat.le_succ _, id⟩

/-- A call is read again under another name of its callee, if the setting
renames it. It is noted under the same turn. -/
theorem callWith_echo (e : Setting) {ds : List ValueId} {i : Instr}
    (h : callWith ds c s = .ok ((i, c'), s')) :
    ∃ w, e.text i = some (callDests e.func ds ++ ("call" ++ (" " ++ w))) ∧
      Echo e (callWith ds) c c' (· = i) fun s rest => s = bytesOf
        (" " ++ w) ++ rest := by
  rw [callWith] at h
  obtain ⟨start, c₁, s₁, hstart, h⟩ := read_bind_eq_ok.mp h
  cases hstart
  obtain ⟨_, c₁, s₁, hat, h⟩ := read_bind_eq_ok.mp h
  obtain ⟨-, rfl⟩ := lift_eq_ok.mp hat
  obtain ⟨⟨name, number⟩, c₁, s₁, hcallee, h⟩ := read_bind_eq_ok.mp h
  obtain ⟨-, rfl⟩ := lift_eq_ok.mp hcallee
  obtain ⟨_, c₁, s₁, hopen, h⟩ := read_bind_eq_ok.mp h
  obtain ⟨-, rfl⟩ := lift_eq_ok.mp hopen
  obtain ⟨n, c₁, s₁, hturns, h⟩ := read_bind_eq_ok.mp h
  cases hturns
  obtain ⟨args, c₁, s₁, hargs, h⟩ := read_bind_eq_ok.mp h
  cases h
  obtain ⟨args, rfl, hopens, hecho⟩ :=
    itemsUpTo_echo (e := e) (w := fun v => bytesOf v.text)
      (fun j c s v c' s' hv => by
    obtain ⟨hopens, hecho⟩ := operand_echo e (readInPart_eq_ok.mp hv)
    exact ⟨hopens, hecho.inPart⟩) _ hargs
  have hgrows := (hecho 0).1.trans (grows_call c₁ ⟨name, number, ds.length, s⟩)
  refine ⟨"@" ++ e.callee c₁.calls.length ++ "("
    ++ Operand.listText args ++ ")", ?_,
    Echo.of_agrees hgrows fun hagrees => ?_⟩
  · show some ((if ds.isEmpty then "" else destText e.func ds) ++ "call @"
      ++ e.callee c₁.calls.length ++ "("
      ++ Operand.listText args ++ ")") = _
    rw [callDests, show "call @" = "call" ++ " " ++ "@" by simp]
    simp only [String.append_assoc]
  · have hname : isName (e.callee c₁.calls.length) = true := e.named _ (by
      have := hagrees.calls
      rw [List.length_cons] at this
      exact this)
    have hcallee : Echo e (liftM (inPart "callee" callee)) c c
      (· = (e.callee c₁.calls.length, none)) fun s rest =>
        s = bytesOf (e.callee c₁.calls.length) ++ rest ∧ Ends rest :=
      Echo.scan e c fun s rest hs =>
        inPart_eq_ok.mpr (by rw [hs.1]; exact callee_takes hname hs.2)
    -- the call is noted under the turn that it had
    have hnote (start : List UInt8) : Echo e (do
        let c ← get
        let turn : FuncId := c.calls.length
        set { c with calls := ⟨e.callee c₁.calls.length, none, ds.length, start⟩ :: c.calls }
        return Instr.call ds turn args {}) c₁
          { c₁ with calls := ⟨name, number, ds.length, s⟩ :: c₁.calls }
        (· = Instr.call ds c₁.calls.length args {}) fun s rest => s = rest := by
      refine ⟨grows_call c₁ _, fun _ c₂ t rest hsame ht => ?_⟩
      refine ⟨.call ds c₂.calls.length args {},
        { c₂ with calls := ⟨e.callee c₁.calls.length, none, ds.length, start⟩ :: c₂.calls }, ?_,
        ⟨hsame.func, .cons hsame.calls rfl rfl⟩, ?_⟩
      · rw [hsame.calls.length_eq]
      · rw [ht]
        rfl
    refine Echo.imp (Echo.left fun start =>
      (token_echo e c (b := 0x40) (by decide +kernel)).seq
      (hcallee.seq ((token_echo e c bytesOf_parenOpen).seq
        (Echo.turns fun n => ((hecho n).seq (hnote start)).imp
          (V := fun s rest => s.length < n ∧
          s = listed (operandBytes args) ++ 0x29 :: rest) fun s rest hs =>
            ?_)))) fun s rest hs => ?_
    · refine ⟨rest, ⟨hs.1, ?_⟩, rfl⟩
      rw [hs.2]
      exact skipped_listed (by decide)
        (by simpa [operandBytes] using hopens) rest
    · rw [bytesOf_space_append, bytesOf_append, bytesOf_append, bytesOf_append,
        bytesOf_append, bytesOf_listText,
        bytesOf_parenOpen, bytesOf_parenClose, show bytesOf "@" = [0x40]
          from bytesOf_ofList _] at hs
      simp only [List.append_assoc, List.cons_append, List.nil_append] at hs
      exact ⟨_, by rw [hs, skipped_space, skipped_of_solid (by decide)], _,
        ⟨rfl, ends_cons (by decide) _⟩, _, skipped_of_solid (by decide) _, rfl⟩

-- ============================================================== operations

/-- The rest of a line behind a statement: padding and the end of the line. -/
def Padded (pad : String) (rest : List UInt8) : Prop :=
  ∃ r, rest = bytesOf pad ++ r ∧ LineEnd r

/-- The tail of a statement, behind its word: the text `w`, then padding. -/
structure Tail {α : Type} (e : Setting) (p : Read α) (c c' : Context) (a : α)
    (w pad : String) : Prop where
  padding : pad = "" ∨ pad = " "
  parted : w = "" ∨ ∃ w', w = " " ++ w'
  echo : Echo e p c c' (· = a) fun s rest => Padded pad rest
    ∧ s = bytesOf w ++ rest

/-- A tail that is one blank, a text and the end of the line. -/
theorem Tail.line {α : Type} {p : Read α} {a : α} {w : String}
    (h : Echo e p c c' (· = a) fun s rest => LineEnd rest
      ∧ s = 0x20 :: (bytesOf w ++ rest)) :
    Tail e p c c' a (" " ++ w) "" := by
  refine ⟨.inl rfl, .inr ⟨w, rfl⟩, h.imp fun s rest hs => ?_⟩
  obtain ⟨⟨r, rfl, hr⟩, hs⟩ := hs
  rw [bytesOf_space_append] at hs
  rw [bytesOf_empty] at hs ⊢
  exact ⟨hr, hs⟩

/-- A tail that is one operand. -/
theorem tail_operand {α : Type} (e : Setting) {v : Operand} {s s' : List UInt8}
    (h : operand c s = .ok ((v, c'), s')) (g : Operand → α) :
    Tail e (operand >>= fun v => pure (g v)) c c' (g v) (" " ++ v.text) "" := by
  obtain ⟨hopens, hecho⟩ := operand_echo e h
  refine .line ((hecho.seq (Echo.pure e c' (g v))).imp fun s rest hs => ?_)
  rw [hs.2]
  exact ⟨rest, front_space hopens hs.1.ends, rfl⟩

/-- A pair begins with its first operand. -/
theorem opens_pair {l r : Operand} (h : Opens (bytesOf l.text)) :
    Opens (bytesOf (Operand.listText [l, r])) := by
  rw [bytesOf_listText]
  exact h.append _

/-- A tail that is two operands. -/
theorem tail_pair {α : Type} (e : Setting) {l r : Operand} {s s' : List UInt8}
    (h : operandPair c s = .ok (((l, r), c'), s')) (g : Operand × Operand → α) :
    Tail e (operandPair >>= fun x => pure (g x)) c c' (g (l, r))
      (" " ++ Operand.listText [l, r]) "" := by
  obtain ⟨hopens, hecho⟩ := operandPair_echo e h
  refine .line ((hecho.seq (Echo.pure e c' (g (l, r)))).imp fun s rest hs => ?_)
  rw [hs.2]
  exact ⟨rest, front_space (opens_pair hopens) hs.1.ends, rfl⟩

/-- A tail that is a list of operands up to the end of the line. -/
theorem tail_operandLine {α : Type} (e : Setting) {vs : List Operand}
    {s s' : List UInt8} (h : operandLine c s = .ok ((vs, c'), s'))
    {k : List Operand → Read α} {a : α}
    (hk : Echo e (k vs) c' c' (· = a) fun s rest => s = rest) :
    Tail e (operandLine >>= k) c c' a (" " ++ Operand.listText vs) "" := by
  obtain ⟨hblanks, hecho⟩ := operandLine_echo e h
  refine .line ((hecho.seq hk).imp fun s rest hs => ?_)
  rw [hs.2]
  refine ⟨rest, ⟨hs.1, ?_⟩, rfl⟩
  exact (List.dropWhile_cons_of_pos (by decide)).trans (hblanks rest hs.1)

/-- The line of a definition, from its word on. -/
theorem destText_word (e : Setting) (ds : List ValueId)
    {n : String} {word : String} (hword : word = n ++ " ") (w : String) :
    some (destText e.func ds ++ word ++ w)
        = some (destText e.func ds ++ (n ++ (" " ++ w ++ ""))) := by
  rw [hword]
  simp only [String.append_assoc, String.append_empty]

/-- A number behind a comma is read again. -/
theorem commaNumber_echo (e : Setting) (c : Context) {n : Int}
    (hn : -9223372036854775808 ≤ n ∧ n < 9223372036854775808) :
    Echo e (liftM commaNumber) c c (· = n) fun s rest =>
      s = 0x2C :: 0x20 :: (bytesOf (toString n) ++ rest) ∧ Ends rest :=
  Echo.scan e c fun _ _ hs => commaNumber_takes hn hs.1 hs.2

/-- Where an operation that was read is read again: behind its word stands a
tail, and what is read there does not depend on the places at which reading
would fail. -/
def Echoes (e : Setting) (d : ValueId) (op : String)
    (p : List UInt8 → List UInt8 → Read Instr) (c c' : Context)
    (i : Instr) : Prop :=
  ∃ w pad, e.text i = some (destText e.func [d] ++ (op ++ (w ++ pad))) ∧
    ∀ opened named, Tail e (p opened named) c c' i w pad

section

variable (e : Setting) (opened named : List UInt8) {op word : String}
  {d : ValueId} {t : Ty} {i : Instr}

/-- Operations on one operand. -/
theorem operand_echoes {g : Operand → Instr} (hword : word = op ++ " ")
    (htext : ∀ v, e.text (g v) = some (destText e.func [d] ++ word ++ v.text))
    (h : (operand >>= fun v => pure (g v)) c s = .ok ((i, c'), s')) :
    Echoes e d op (fun _ _ => operand >>= fun v => pure (g v)) c c' i := by
  obtain ⟨v, c₁, s₁, hv, h⟩ := read_bind_eq_ok.mp h
  cases h
  exact ⟨" " ++ v.text, "", (htext v).trans (destText_word e [d] hword v.text),
    fun _ _ => tail_operand e hv g⟩

/-- Operations on two operands. -/
theorem operandPair_echoes {g : Operand × Operand → Instr}
    (hword : word = op ++ " ")
    (htext : ∀ x, e.text (g x)
      = some (destText e.func [d] ++ word ++ Operand.listText [x.1, x.2]))
    (h : (operandPair >>= fun x => pure (g x)) c s = .ok ((i, c'), s')) :
    Echoes e d op (fun _ _ => operandPair >>= fun x => pure (g x)) c c' i := by
  obtain ⟨x, c₁, s₁, hx, h⟩ := read_bind_eq_ok.mp h
  cases h
  exact ⟨" " ++ Operand.listText [x.1, x.2], "",
    (htext x).trans (destText_word e [d] hword _), fun _ _ => tail_pair e hx g⟩

/-- Nothing stands behind the word of an allocation. -/
theorem frameAlloc_echoes
    (h : operation "framealloc" d t opened named c s = .ok ((i, c'), s')) :
    Echoes e d "framealloc" (operation "framealloc" d t) c c' i := by
  cases t with
  | ptr x =>
      cases h
      refine ⟨"", "", ?_, fun _ _ => ⟨.inl rfl, .inl rfl, ?_⟩⟩
      · show some (destText e.func [d] ++ "framealloc") = _
        simp only [String.append_empty]
      · show Echo e (pure (Instr.frameAlloc d x)) _ _ _ _
        refine (Echo.pure e c _).imp fun s rest hs => ?_
        rw [bytesOf_empty] at hs
        exact hs.2
  | _ => cases h

/-- The address of a value, and of no other operand. -/
theorem addressOf_echoes
    (h : operation "addressof" d t opened named c s = .ok ((i, c'), s')) :
    Echoes e d "addressof" (operation "addressof" d t) c c' i := by
  obtain ⟨v, c₁, s₁, hv, h⟩ := read_bind_eq_ok.mp h
  cases v with
  | value id =>
      cases h
      refine ⟨" " ++ valueText id, "",
        destText_word e [d] (by simp) _, fun _ _ => .line ?_⟩
      obtain ⟨hopens, hecho⟩ := operand_echo e hv
      refine Echo.imp (hecho.seq (Echo.pure e c' (Instr.addressOf d id)))
        fun s rest hs => ?_
      rw [hs.2]
      exact ⟨rest, front_space hopens hs.1.ends, rfl⟩
  | _ => cases h

/-- One source, and then others as long as there is a comma. -/
theorem phi_echoes
    (h : operation "phi" d t opened named c s = .ok ((i, c'), s')) :
    Echoes e d "phi" (operation "phi" d t) c c' i := by
  obtain ⟨x, c₁, s₁, hx, h⟩ := read_bind_eq_ok.mp h
  obtain ⟨n, c₃, s₃, hn, h⟩ := read_bind_eq_ok.mp h
  cases hn
  obtain ⟨ys, c₃, s₃, hys, h⟩ := read_bind_eq_ok.mp h
  cases h
  obtain ⟨news, rfl, hmore⟩ := morePhiSources_echo e _ hys
  have htext : bytesOf (", ".intercalate (([x] ++ news).map sourceText))
      = bytesOf (sourceText x) ++ further (sourceBytes news) := by
    rw [bytesOf_intercalate, List.map_map]
    rfl
  refine ⟨" " ++ ", ".intercalate (([x] ++ news).map sourceText), "",
    destText_word e [d] (by simp) _, fun _ _ => .line ?_⟩
  refine Echo.imp ((phiSource_echo e hx).seq (Echo.turns fun n => ((hmore n).seq
    (Echo.pure e c' (Instr.phi d t ([x] ++ news)))).imp
      (V := fun s rest => s.length < n ∧ LineEnd rest
      ∧ s = further (sourceBytes news) ++ rest)
      fun s rest hs => ⟨rest, hs, rfl⟩)) fun s rest hs => ?_
  rw [hs.2, htext, List.append_assoc]
  exact ⟨_, front_space (opens_source x) (hs.1.ends_further _), hs.1, rfl⟩

/-- A tuple is made of all operands of its line. -/
theorem makeTuple_echoes
    (h : operation "tuple" d t opened named c s = .ok ((i, c'), s')) :
    Echoes e d "tuple" (operation "tuple" d t) c c' i := by
  cases t with
  | tuple ts =>
      obtain ⟨vs, c₁, s₁, hvs, h⟩ := read_bind_eq_ok.mp h
      cases h
      exact ⟨" " ++ Operand.listText vs, "",
        destText_word e [d] (by simp) _,
        fun _ _ => tail_operandLine e hvs
        (Echo.pure e c' (Instr.makeTuple d vs ts))⟩
  | _ => cases h

/-- An array is made of as many operands as its type says. -/
theorem makeArray_echoes
    (h : operation "array" d t opened named c s = .ok ((i, c'), s')) :
    Echoes e d "array" (operation "array" d t) c c' i := by
  cases t with
  | array x n =>
      obtain ⟨vs, c₁, s₁, hvs, h⟩ := read_bind_eq_ok.mp h
      by_cases hcount : Int64.ofNat vs.length = n
      · rw [if_pos hcount] at h
        cases h
        refine ⟨" " ++ Operand.listText vs, "",
          destText_word e [d] (by simp) _,
          fun _ _ => tail_operandLine e hvs ?_⟩
        rw [if_pos hcount]
        exact Echo.pure e c' (Instr.makeArray d vs x)
      · rw [if_neg hcount] at h
        cases h
  | _ => cases h

/-- An element of a tuple: the tuple and a number. -/
theorem extractTuple_echoes
    (h : operation "extract" d t opened named c s = .ok ((i, c'), s')) :
    Echoes e d "extract" (operation "extract" d t) c c' i := by
  obtain ⟨v, c₁, s₁, hv, h⟩ := read_bind_eq_ok.mp h
  obtain ⟨n, c₃, s₃, hlift, h⟩ := read_bind_eq_ok.mp h
  obtain ⟨hn, rfl⟩ := lift_eq_ok.mp hlift
  cases h
  refine ⟨" " ++ (v.text ++ (", " ++ toString n)), "", ?_, fun _ _ => .line ?_⟩
  · show some (destText e.func [d] ++ "extract " ++ v.text ++ ", "
      ++ toString n) = _
    rw [show "extract " = "extract" ++ " " by simp]
    simp only [String.append_assoc, String.append_empty]
  · obtain ⟨hopens, hecho⟩ := operand_echo e hv
    refine Echo.imp
      (hecho.seq ((commaNumber_echo e c' (commaNumber_spec hn)).seq
      (Echo.pure e c' (Instr.extractTuple d v n t)))) fun s rest hs => ?_
    rw [hs.2, bytesOf_append, bytesOf_append, bytesOf_commaSpace]
    simp only [List.append_assoc, List.cons_append, List.nil_append]
    exact ⟨_, front_space hopens (ends_cons (by decide) _), _,
      ⟨rfl, hs.1.ends⟩, rfl⟩

/-- A tuple with another element: the tuple, a number and the element. -/
theorem insertTuple_echoes
    (h : operation "inserttuple" d t opened named c s = .ok ((i, c'), s')) :
    Echoes e d "inserttuple" (operation "inserttuple" d t) c c' i := by
  cases t with
  | tuple ts =>
      obtain ⟨v, c₁, s₁, hv, h⟩ := read_bind_eq_ok.mp h
      obtain ⟨n, c₃, s₃, hlift, h⟩ := read_bind_eq_ok.mp h
      obtain ⟨hn, rfl⟩ := lift_eq_ok.mp hlift
      obtain ⟨_, c₃, s₃, hcomma, h⟩ := read_bind_eq_ok.mp h
      obtain ⟨-, rfl⟩ := lift_eq_ok.mp hcomma
      obtain ⟨x, c₃, s₃, hx, h⟩ := read_bind_eq_ok.mp h
      cases h
      refine ⟨" " ++ (v.text ++ (", " ++ (toString n ++ (", " ++ x.text)))), "",
        ?_, fun _ _ => .line ?_⟩
      · show some (destText e.func [d] ++ "inserttuple " ++ v.text ++ ", "
          ++ toString n ++ ", "
          ++ x.text) = _
        rw [show "inserttuple " = "inserttuple" ++ " " by simp]
        simp only [String.append_assoc, String.append_empty]
      · obtain ⟨hopens, hecho⟩ := operand_echo e hv
        obtain ⟨hxopens, hxecho⟩ := operand_echo e hx
        refine Echo.imp
          (hecho.seq ((commaNumber_echo e c₁ (commaNumber_spec hn)).seq
          ((token_echo e c₁ bytesOf_comma).seq
            (hxecho.seq (Echo.pure e c' (Instr.insertTuple d v n x ts))))))
            fun s rest hs => ?_
        rw [hs.2, bytesOf_append, bytesOf_append,
          bytesOf_append, bytesOf_append, bytesOf_commaSpace]
        simp only [List.append_assoc, List.cons_append, List.nil_append]
        exact ⟨_, front_space hopens (ends_cons (by decide) _), _,
          ⟨rfl, ends_cons (by decide) _⟩, _, skipped_of_solid (by decide) _, _,
          front_space hxopens hs.1.ends, rfl⟩
  | _ => cases h

/-- A struct is made of its fields. If it has none, a blank stays at the end of
the line. -/
theorem makeStruct_echoes
    (h : operation "struct" d t opened named c s = .ok ((i, c'), s')) :
    Echoes e d "struct" (operation "struct" d t) c c' i := by
  cases t with
  | struct n fs =>
      obtain ⟨vs, c₁, s₁, hvs, h⟩ := read_bind_eq_ok.mp h
      cases h
      obtain ⟨news, hnews, hopens, hecho⟩ := fieldValues_echo e fs hvs
      obtain rfl : vs = news := hnews
      have hpure := Echo.pure e c' (Instr.makeStruct d vs ⟨n, fs⟩)
      have htext : e.text (.makeStruct d vs ⟨n, fs⟩)
        = some (destText e.func [d] ++ "struct "
        ++ ", ".intercalate (vs.map fun x => x.1 ++ ": " ++ x.2.text)) := rfl
      have hbytes :
          bytesOf (", ".intercalate (vs.map fun x => x.1 ++ ": " ++ x.2.text))
          = listed (vs.map givenBytes) := by
        rw [bytesOf_intercalate, List.map_map]
        rfl
      by_cases hempty : vs = []
      · -- nothing is read behind the word, and the blank stays
        subst hempty
        refine ⟨"", " ", ?_, fun _ _ => ⟨.inr rfl, .inl rfl, ?_⟩⟩
        · rw [htext, List.map_nil, String.intercalate_nil, String.append_empty,
            show "struct" ++ ("" ++ " ") = "struct " by simp]
        refine Echo.imp (hecho.seq hpure) fun s rest hs => ?_
        obtain ⟨⟨r, rfl, hr⟩, hs⟩ := hs
        rw [bytesOf_empty] at hs
        refine ⟨_, ⟨?_, by rw [if_pos rfl]; exact hs⟩, rfl⟩
        rw [show bytesOf " " = [0x20] from bytesOf_ofList _]
        exact ends_cons (by decide) _
      · refine ⟨" " ++ ", ".intercalate (vs.map fun x => x.1 ++ ": "
          ++ x.2.text), "", ?_, fun _ _ => .line ?_⟩
        · rw [htext]
          exact destText_word e [d] (by simp) _
        · refine Echo.imp (hecho.seq hpure) fun s rest hs => ?_
          refine ⟨rest, ⟨hs.1.ends, ?_⟩, rfl⟩
          obtain ⟨f, fs, rfl⟩ := List.exists_cons_of_ne_nil hempty
          rw [if_neg hempty, hs.2, skipped_space, hbytes]
          exact (((hopens f List.mem_cons_self).append _).append _).skipped
  | _ => cases h

/-- A field of a struct: the struct and a name. -/
theorem extractField_echoes
    (h : operation "field" d t opened named c s = .ok ((i, c'), s')) :
    Echoes e d "field" (operation "field" d t) c c' i := by
  obtain ⟨v, c₁, s₁, hv, h⟩ := read_bind_eq_ok.mp h
  obtain ⟨_, c₃, s₃, hcomma, h⟩ := read_bind_eq_ok.mp h
  obtain ⟨-, rfl⟩ := lift_eq_ok.mp hcomma
  obtain ⟨n, c₃, s₃, hlift, h⟩ := read_bind_eq_ok.mp h
  obtain ⟨hn, rfl⟩ := lift_eq_ok.mp hlift
  cases h
  have hname := ident_spec hn
  refine ⟨" " ++ (v.text ++ (", " ++ n)), "", ?_, fun _ _ => .line ?_⟩
  · show some (destText e.func [d] ++ "field " ++ v.text ++ ", " ++ n) = _
    rw [show "field " = "field" ++ " " by simp]
    simp only [String.append_assoc, String.append_empty]
  · obtain ⟨hopens, hecho⟩ := operand_echo e hv
    refine Echo.imp
      (hecho.seq ((token_echo e c' bytesOf_comma).seq
      ((ident_echo e c' hname).seq
      (Echo.pure e c' (Instr.extractField d v n t))))) fun s rest hs => ?_
    rw [hs.2, bytesOf_append, bytesOf_append, bytesOf_commaSpace]
    simp only [List.append_assoc, List.cons_append, List.nil_append]
    exact ⟨_, front_space hopens (ends_cons (by decide) _), _,
      skipped_of_solid (by decide) _, _,
      front_space (opens_name hname) hs.1.ends, rfl⟩

/-- A struct with another field: the struct, a name and the field. -/
theorem insertField_echoes
    (h : operation "insertfield" d t opened named c s = .ok ((i, c'), s')) :
    Echoes e d "insertfield" (operation "insertfield" d t) c c' i := by
  obtain ⟨v, c₁, s₁, hv, h⟩ := read_bind_eq_ok.mp h
  obtain ⟨_, c₃, s₃, hcomma, h⟩ := read_bind_eq_ok.mp h
  obtain ⟨-, rfl⟩ := lift_eq_ok.mp hcomma
  obtain ⟨n, c₃, s₃, hlift, h⟩ := read_bind_eq_ok.mp h
  obtain ⟨hn, rfl⟩ := lift_eq_ok.mp hlift
  have hname := ident_spec hn
  cases t with
  | struct m fs =>
      obtain ⟨_, c₃, s₃, hcomma, h⟩ := read_bind_eq_ok.mp h
      obtain ⟨-, rfl⟩ := lift_eq_ok.mp hcomma
      obtain ⟨x, c₃, s₃, hx, h⟩ := read_bind_eq_ok.mp h
      cases h
      refine ⟨" " ++ (v.text ++ (", " ++ (n ++ (", " ++ x.text)))), "", ?_,
        fun _ _ => .line ?_⟩
      · show some (destText e.func [d] ++ "insertfield " ++ v.text ++ ", " ++ n
          ++ ", " ++ x.text)
          = _
        rw [show "insertfield " = "insertfield" ++ " " by simp]
        simp only [String.append_assoc, String.append_empty]
      · obtain ⟨hopens, hecho⟩ := operand_echo e hv
        obtain ⟨hxopens, hxecho⟩ := operand_echo e hx
        refine Echo.imp (hecho.seq ((token_echo e c₁ bytesOf_comma).seq
          ((ident_echo e c₁ hname).seq
            ((token_echo e c₁ bytesOf_comma).seq (hxecho.seq
            (Echo.pure e c' (Instr.insertField d v n x ⟨m, fs⟩)))))))
            fun s rest hs => ?_
        rw [hs.2, bytesOf_append, bytesOf_append,
          bytesOf_append, bytesOf_append, bytesOf_commaSpace]
        simp only [List.append_assoc, List.cons_append, List.nil_append]
        exact ⟨_, front_space hopens (ends_cons (by decide) _), _,
          skipped_of_solid (by decide) _, _,
          front_space (opens_name hname) (ends_cons (by decide) _), _,
          skipped_of_solid (by decide) _, _, front_space hxopens hs.1.ends, rfl⟩
  | _ => cases h

/-- An operation that was read is read again, whatever the places are where it
would fail. -/
theorem operation_echo {opened named : List UInt8}
    (h : operation op d t opened named c s = .ok ((i, c'), s')) :
    Echoes e d op (operation op d t) c c' i := by
  generalize hp : operation op d t opened named = p at h
  unfold operation at hp
  split at hp
  · rename_i u hu
    subst hp
    obtain rfl : u.text = op := by simpa using List.find?_some hu
    have hbody : operation u.text d t = fun _ _ => operand
        >>= fun v => pure (.unary u d v) := by
      funext _ _
      unfold operation
      rw [hu]
    rw [hbody]
    refine operand_echoes e rfl (fun v => ?_) h
    show some (destText e.func [d] ++ u.text ++ " " ++ v.text) = _
    simp only [String.append_assoc]
  split at hp
  · rename_i hu _ b hb
    subst hp
    obtain rfl : b.text = op := by simpa using List.find?_some hb
    have hbody : operation b.text d t
        = fun _ _ => operandPair >>= fun x => pure (.binary b d x.1 x.2) := by
      funext _ _
      unfold operation
      rw [hu, hb]
    rw [hbody]
    refine operandPair_echoes e rfl (fun x => ?_) h
    show some (destText e.func [d] ++ b.text ++ " "
      ++ Operand.listText [x.1, x.2]) = _
    simp only [String.append_assoc]
  split at hp
  all_goals subst hp
  case h_1 =>
      exact operand_echoes e (show "assign " = _ by simp) (fun _ => rfl) h
  case h_2 =>
      exact operand_echoes e (show "load " = _ by simp) (fun _ => rfl) h
  case h_3 => exact frameAlloc_echoes e opened named h
  case h_4 => exact addressOf_echoes e opened named h
  case h_5 =>
      exact operandPair_echoes e (show "gep " = _ by simp) (fun _ => rfl) h
  case h_6 =>
      exact operand_echoes e (show "cast " = _ by simp) (fun _ => rfl) h
  case h_7 => exact phi_echoes e opened named h
  case h_8 => exact makeTuple_echoes e opened named h
  case h_9 => exact extractTuple_echoes e opened named h
  case h_10 => exact insertTuple_echoes e opened named h
  case h_11 => exact makeStruct_echoes e opened named h
  case h_12 => exact extractField_echoes e opened named h
  case h_13 => exact insertField_echoes e opened named h
  case h_14 => exact makeArray_echoes e opened named h
  case h_15 => cases h

end

-- ============================================================= definitions

/-- The context once a type is written for a value. -/
def Context.annotated (c : Context) (id : ValueId) (t : Ty) : Context :=
  { c with func := c.func.declare id t,
           annotations := (c.func.name, id, t) :: c.annotations }

/-- Declaring a value sets its type and moves the counter. -/
theorem declare_eq (f : Func) (id : ValueId) {t : Ty}
    (ht : t.isMissing = false) :
    f.declare id t
        = { f with types := f.types.insert id t, nextValue := (f.announce id).nextValue } := by
  unfold Func.declare
  rw [ht, announce_frame]
  rfl

/-- A type that is written for a value stays, and others stay as they are. -/
theorem grows_annotated (c : Context) (id : ValueId) {t : Ty}
    (ht : t.isMissing = false) : Grows c (c.annotated id t) := by
  have hdeclare := declare_eq c.func id ht
  refine ⟨?_, fun x hx => List.mem_cons_of_mem _ hx, fun x hx => ?_,
    Nat.le_refl _, fun htyped v u hu => ?_⟩
  · show c.func.declare id t = _
    rw [Context.annotated, hdeclare]
  · rcases List.mem_cons.mp hx with rfl | hx
    · exact .inr rfl
    · exact .inl hx
  · have hname : (c.annotated id t).func.name = c.func.name := by
      rw [Context.annotated, hdeclare]
    have htypes : (c.annotated id t).func.types = c.func.types.insert id t := by
      rw [Context.annotated, hdeclare]
    rw [hname] at hu ⊢
    rw [htypes]
    by_cases hv : v = id
    · subst hv
      exact ⟨t, by simp, List.mem_cons_self⟩
    · have hold : (c.func.name, v, u) ∈ c.annotations := by
        rcases List.mem_cons.mp hu with heq | hu
        · cases heq
          exact absurd rfl hv
        · exact hu
      obtain ⟨u', hu', hmem⟩ := htyped v u hold
      refine ⟨u', ?_, List.mem_cons_of_mem _ hmem⟩
      rw [Std.ExtTreeMap.getElem?_insert,
        if_neg (by simpa using fun h : id = v => hv h.symm)]
      exact hu'

/-- What is declared is declared again. -/
theorem annotate_echo (e : Setting) (c : Context) (id : ValueId) {t : Ty}
    (ht : t.isMissing = false) :
    Echo e (annotate id t) c (c.annotated id t)
      (· = ()) fun s rest => s = rest := by
  refine ⟨grows_annotated c id ht, fun _ c₂ s rest hsame hs =>
    ⟨(), c₂.annotated id t, rfl, ⟨?_, hsame.calls⟩, ?_⟩⟩
  · show c₂.func.declare id t = c.func.declare id t
    rw [hsame.func]
  · rw [hs]
    rfl

/-- A value with its type is read again. -/
theorem typedValue_echo (e : Setting) (c : Context) {id : ValueId} {t : Ty}
    (hid : IsValueId id) (ht : Written t) :
    Echo e (liftM typedValue) c c (· = (id, t))
      (Front (bytesOf (valueText id ++ ": " ++ t.text))) :=
  Echo.scan e c fun _ _ hs => typedValue_takes hid ht hs.1 hs.2

/-- The type written for a value is printed for it again. -/
theorem typedText_annotated {e : Setting} {id : ValueId} {t : Ty}
    (h : Agrees e (c.annotated id t)) (ht : t.isMissing = false) :
    typedText e.func id = valueText id ++ ": " ++ t.text := by
  have hname : c.func.name = e.func.name := by
    rw [← h.name, (grows_annotated c id ht).name]
  rw [typedText, h.types id t (by rw [← hname]; exact List.mem_cons_self)]

/-- A value with its type begins with the percent sign. -/
theorem opens_typed (f : Func) (id : ValueId) :
    Opens (bytesOf (typedText f id)) := by
  rw [typedText, valueText, bytesOf_append, bytesOf_append,
    bytesOf_append, bytesOf_percent]
  exact opens_cons (by decide) _

/-- The written forms of values with their types. -/
def typedBytes (f : Func) (ids : List ValueId) : List (List UInt8) :=
  ids.map fun id => bytesOf (typedText f id)

/-- Destinations are read again one by one, with the types that they were
declared with, up to the equals sign. -/
theorem destinations_echo (e : Setting) (fuel : Nat) {ds us : List ValueId}
    (h : destinations (fuel + 1) ds c s = .ok ((us, c'), s')) :
    ∃ d news, us = ds ++ d :: news ∧
      ∀ turns, Echo e (destinations turns ds) c c'
        (· = us) fun s rest => s.length < turns ∧
        (∃ r, rest = 0x20 :: 0x3D :: r) ∧ skipped s = listed
        (typedBytes e.func (d :: news)) ++ rest := by
  -- a value after which none follows
  have hlast (c : Context) (ds : List ValueId) {id : ValueId} {t : Ty}
      (hid : IsValueId id) (ht : Written t)
      (turns : Nat) : Echo e (destinations turns ds) c (c.annotated id t)
      (· = ds ++ [id]) fun s rest =>
        s.length < turns ∧ (∃ r, rest = 0x20 :: 0x3D :: r)
          ∧ skipped s = listed (typedBytes e.func [id]) ++ rest := by
    refine Echo.of_agrees (grows_annotated c id ht.present) fun hagrees => ?_
    cases turns with
    | zero => exact ⟨grows_annotated c id ht.present,
      fun _ _ _ _ _ hs => absurd hs.1 (Nat.not_lt_zero _)⟩
    | succ turns =>
        rw [destinations]
        refine Echo.imp ((typedValue_echo e c hid ht).seq
          ((annotate_echo e c id ht.present).seq
          ((closes_echo_false e (c.annotated id t) ",").seq
          (Echo.pure e _ (ds ++ [id]))))) fun s rest hs => ?_
        obtain ⟨-, ⟨r, rfl⟩, hs⟩ := hs
        rw [typedBytes, List.map_singleton, listed,
          further_nil, List.append_nil,
          typedText_annotated hagrees ht.present] at hs
        exact ⟨_, ⟨hs, ends_cons (by decide) _⟩, _, rfl, _,
          ⟨closes_elsewhere bytesOf_comma
          (by rw [skipped_space, skipped_of_solid (by decide)]) (by decide),
          rfl⟩, rfl⟩
  induction fuel generalizing ds c s with
  | zero =>
      rw [destinations] at h
      obtain ⟨⟨id, t⟩, c₁, s₁, hlift, h⟩ := read_bind_eq_ok.mp h
      obtain ⟨hread, rfl⟩ := lift_eq_ok.mp hlift
      obtain ⟨_, c₁, s₁, hnote, h⟩ := read_bind_eq_ok.mp h
      cases hnote
      obtain ⟨closed, c₁, s₁, hclosed, h⟩ := read_bind_eq_ok.mp h
      obtain ⟨-, rfl⟩ := lift_eq_ok.mp hclosed
      have hboth : (pure (ds ++ [id]) : Read (List ValueId)) (c.annotated id t)
          s₁ = .ok ((us, c'), s') := by
        cases closed <;> exact h
      obtain ⟨rfl, rfl, rfl⟩ := read_pure_eq_ok.mp hboth
      obtain ⟨hid, ht⟩ := typedValue_spec hread
      exact ⟨id, [], rfl, hlast c ds hid ht⟩
  | succ fuel ih =>
      rw [destinations] at h
      obtain ⟨⟨id, t⟩, c₁, s₁, hlift, h⟩ := read_bind_eq_ok.mp h
      obtain ⟨hread, rfl⟩ := lift_eq_ok.mp hlift
      obtain ⟨_, c₁, s₁, hnote, h⟩ := read_bind_eq_ok.mp h
      cases hnote
      obtain ⟨closed, c₁, s₁, hclosed, h⟩ := read_bind_eq_ok.mp h
      obtain ⟨-, rfl⟩ := lift_eq_ok.mp hclosed
      obtain ⟨hid, ht⟩ := typedValue_spec hread
      cases closed with
      | false =>
          obtain ⟨rfl, rfl, rfl⟩ := read_pure_eq_ok.mp h
          exact ⟨id, [], rfl, hlast c ds hid ht⟩
      | true =>
          rw [if_pos rfl] at h
          obtain ⟨d, news, rfl, hmore⟩ := ih (c := c.annotated id t) h
          have hgrows := (grows_annotated c id ht.present).trans (hmore 0).1
          refine ⟨id, d :: news, by simp,
            fun turns => Echo.of_agrees hgrows fun hagrees => ?_⟩
          cases turns with
          | zero =>
            exact ⟨hgrows, fun _ _ _ _ _ hs => absurd hs.1 (Nat.not_lt_zero _)⟩
          | succ turns =>
              have htext :=
                typedText_annotated (hagrees.of_grows (hmore 0).1) ht.present
              rw [destinations]
              refine Echo.imp ((typedValue_echo e c hid ht).seq
                ((annotate_echo e c id ht.present).seq
                ((closes_echo_true e (c.annotated id t) bytesOf_comma).seq
                (hmore turns)))) fun s rest hs => ?_
              obtain ⟨hlen, hrest, hs⟩ := hs
              have hshorter := skipped_length_le s
              have hlist : listed (typedBytes e.func (id :: d :: news))
                  = bytesOf (valueText id ++ ": " ++ t.text) ++
                  0x2C :: 0x20 :: listed (typedBytes e.func (d :: news)) := by
                rw [← htext]
                rfl
              rw [hlist, List.append_assoc, List.cons_append,
                List.cons_append] at hs
              rw [hs, List.length_append, List.length_cons,
                List.length_cons] at hshorter
              refine ⟨_, ⟨hs, ends_cons (by decide) _⟩, _, rfl, _,
                skipped_of_solid (by decide) _, ?_, hrest, ?_⟩
              · simp only [List.length_cons]
                omega
              · rw [skipped_space]
                exact ((opens_typed e.func d).append _ |>.append _).skipped

/-- A definition behind the word of its operation. -/
def behindWord (ds : List ValueId) (opened : List UInt8)
    (op : String) : Read Instr := do
  if op = "call" then callWith ds
  else match ds with
    | [d] => operation op d ((← get).func.types.getD d .missing) opened (← left)
    | _ => Read.failAt opened (.notOneDest op)

/-- One echo for all definitions, behind the word of the operation. Only a call
may have any number of destinations. -/
theorem behindWord_echo (e : Setting) {ds : List ValueId} (hds : ds ≠ [])
    {op : String} {opened : List UInt8} {i : Instr}
    (h : behindWord ds opened op c s = .ok ((i, c'), s')) :
    ∃ w pad, e.text i = some (destText e.func ds ++ (op ++ (w ++ pad))) ∧
      ∀ opened, Tail e (behindWord ds opened op) c c' i w pad := by
  unfold behindWord at h ⊢
  by_cases hcall : op = "call"
  · subst hcall
    rw [if_pos rfl] at h
    obtain ⟨w, htext, hecho⟩ := callWith_echo e h
    refine ⟨" " ++ w, "", ?_, fun opened => ⟨.inl rfl, .inr ⟨w, rfl⟩, ?_⟩⟩
    · rw [htext, callDests, if_neg (by simpa using hds), String.append_empty]
    · rw [if_pos rfl]
      exact hecho.imp fun s rest hs => hs.2
  · rw [if_neg hcall] at h
    match ds, hds, h with
    | [d], _, h =>
        obtain ⟨cNow, c₁, s₁, hget, h⟩ := read_bind_eq_ok.mp h
        cases hget
        obtain ⟨named, c₁, s₁, hleft, h⟩ := read_bind_eq_ok.mp h
        cases hleft
        obtain ⟨w, pad, htext, htail⟩ := operation_echo e h
        refine ⟨w, pad, htext,
          fun opened => ⟨(htail [] []).padding, (htail [] []).parted, ?_⟩⟩
        rw [if_neg hcall]
        refine Echo.get (htail [] []).echo.1 fun c₂ hsame =>
          Echo.left fun named => ?_
        rw [hsame.func]
        exact (htail opened named).echo
    | d :: d' :: ds, _, h => cases h

/-- A word is parted from the tail behind it. -/
theorem Tail.ends {α : Type} {p : Read α} {a : α} {w pad : String}
    (h : Tail e p c c' a w pad) (hrest : Padded pad rest) :
    Ends (bytesOf w ++ rest) := by
  rcases h.parted with rfl | ⟨w', rfl⟩
  · rw [bytesOf_empty]
    obtain ⟨r, rfl, hr⟩ := hrest
    rcases h.padding with rfl | rfl
    · rw [bytesOf_empty]
      exact hr.ends
    · rw [show bytesOf " " = [0x20] from bytesOf_ofList _]
      exact ends_cons (by decide) _
  · rw [bytesOf_space_append]
    exact ends_cons (by decide) _

/-- A definition is read again behind its equals sign. -/
theorem definition_echo (e : Setting) {ds : List ValueId}
    (hds : ds ≠ []) {i : Instr} (h : definition ds c s = .ok ((i, c'), s')) :
    ∃ w pad, (pad = "" ∨ pad = " ") ∧
      e.text i = some (destText e.func ds ++ (w ++ pad)) ∧
      Echo e (definition ds) c c' (· = i) fun s rest => Padded pad rest
          ∧ s = 0x20 :: (bytesOf w ++ rest) := by
  obtain ⟨_, c₁, s₁, hskip, h⟩ := read_bind_eq_ok.mp h
  cases hskip
  obtain ⟨opened, c₁, s₁, hleft, h⟩ := read_bind_eq_ok.mp h
  cases hleft
  obtain ⟨op, c₁, s₁, hident, h⟩ := read_bind_eq_ok.mp h
  obtain ⟨hop, rfl⟩ := lift_eq_ok.mp hident
  have hname := ident_spec (inPart_eq_ok.mp hop)
  obtain ⟨w, pad, htext, htail⟩ := behindWord_echo e hds
    (show behindWord ds (skipped s) op c s₁ = .ok ((i, c'), s') from h)
  have hword : Echo e (liftM (inPart "operation" ident)) c c (· = op)
      (Front (bytesOf op)) :=
    Echo.scan e c fun _ _ hs => inPart_eq_ok.mpr (ident_takes hname hs.1 hs.2)
  refine ⟨op ++ w, pad, (htail []).padding, by rw [htext, String.append_assoc],
    ?_⟩
  refine Echo.imp
    ((skip_echo e c).seq (Echo.left fun opened =>
    hword.seq (htail opened).echo)) fun s rest hs => ?_
  obtain ⟨hpad, rfl⟩ := hs
  rw [bytesOf_append, List.append_assoc, skipped_space, skipped_name hname]
  exact ⟨_, rfl, _, ⟨skipped_name hname _, (htail []).ends hpad⟩, hpad, rfl⟩

-- ============================================================== statements

/-- The printed form of a statement. -/
def Setting.line (e : Setting) : Instr ⊕ Terminator → Option String
  | .inl i => e.text i
  | .inr t => some (termText t)

/-- A branch on a comparison, behind the name of the comparison. -/
def behindComparison (named : List UInt8) (name : String) :
    Read (Instr ⊕ Terminator) :=
  match (BinaryOp.ofName? name).filter BinaryOp.isComparison with
  | none => Read.failAt named (.notComparison name)
  | some b => do
      let (l, r) ← operandPair
      let (t, e) ← (branchTargets : Scan (BlockId × BlockId))
      return .inr (.branchCmp b l r t e)

/-- A statement behind its first word. -/
def behindFirst (start : List UInt8) (op : String) :
    Read (Instr ⊕ Terminator) := do
  match op with
  | "store" =>
      let (a, v) ← operandPair
      return .inl (.store a v .missing)
  | "debug" =>
      let m ← (message : Scan (List UInt8))
      return .inl (.debug m (← operandLine))
  | "nop" => return .inl .nop
  | "call" => return .inl (← callWith [])
  | "jump" => return .inr (.jump (← (blockId : Scan BlockId)))
  | "if" =>
      let c ← operand
      let (t, e) ← (branchTargets : Scan (BlockId × BlockId))
      return .inr (.branch c t e)
  | "brcmp" =>
      let named ← left
      let name ← (ident : Scan String)
      behindComparison named name
  | "return" => return .inr (.ret (← operandLine))
  | "unreachable" => return .inr .unreachable
  | _ => Read.failAt start (.unknownInstr op)

/-- A statement is a definition if it begins with a percent sign, and else what
its first word says. -/
theorem statement_eq : statement = (do
    let start ← left
    skip
    if (← left).head? = some 0x25 then
      let ds ← destinations (← turns) []
      token "="
      return .inl (← definition ds)
    else
      let op ← inPart "instruction" ident
      behindFirst start op) := rfl

/-- The targets of a branch are read again. -/
theorem branchTargets_echo (e : Setting) (c : Context) {t u : BlockId}
    (h : IsBlockId t ∧ IsBlockId u) :
    Echo e (liftM branchTargets) c c (· = (t, u)) fun s rest => s = bytesOf
      (branchText t u) ++ rest ∧ Ends rest :=
  Echo.scan e c fun _ _ hs => branchTargets_takes h.1 h.2 hs.1 hs.2

/-- A line of a word and a tail. -/
theorem word_line {n word : String} (hword : word = n ++ " ") (w : String) :
    some (word ++ w) = some (n ++ (" " ++ w ++ "")) := by
  rw [hword]
  simp only [String.append_assoc, String.append_empty]

/-- Operands end where the targets of a branch begin. -/
theorem ends_branch (t u : BlockId) (rest : List UInt8) :
    Ends (bytesOf (branchText t u) ++ rest) := by
  rw [branchText, bytesOf_append, bytesOf_append, bytesOf_append,
    show bytesOf " then " = 0x20 :: bytesOf "then " by decide +kernel]
  exact ends_cons (by decide) _

/-- Operands to the end of a line that may have none: with none there is no
blank either. -/
theorem skippedBlanks_line {vs : List Operand} (hblanks : ∀ rest, LineEnd rest →
      skippedBlanks (bytesOf (Operand.listText vs) ++ rest) = bytesOf
        (Operand.listText vs) ++ rest)
    (hrest : LineEnd rest) :
    skippedBlanks
      (bytesOf (if vs.isEmpty then "" else " " ++ Operand.listText vs) ++ rest)
        =
      bytesOf (Operand.listText vs) ++ rest := by
  split
  · rename_i hempty
    rw [List.isEmpty_iff.mp hempty] at hblanks ⊢
    exact hblanks rest hrest
  · rw [bytesOf_space_append]
    exact (List.dropWhile_cons_of_pos (by decide)).trans (hblanks rest hrest)

/-- No blanks are skipped in front of a message. -/
theorem skipped_quote (bs rest : List UInt8) :
    skipped (bytesOf (quote bs) ++ rest) = bytesOf (quote bs) ++ rest := by
  rw [quote, bytesOf_append, bytesOf_append,
    show bytesOf "\"" = [0x22] from bytesOf_ofList _]
  exact skipped_of_solid (by decide) _

/-- One echo for all statements that are no definitions, behind their first
word. -/
theorem behindFirst_echo (e : Setting) {start : List UInt8} {op : String}
    {x : Instr ⊕ Terminator}
    (h : behindFirst start op c s = .ok ((x, c'), s')) :
    ∃ w, e.line x = some (op ++ (w ++ "")) ∧
      ∀ start, Tail e (behindFirst start op) c c' x w "" := by
  generalize hp : behindFirst start op = p at h
  unfold behindFirst at hp
  split at hp
  all_goals subst hp
  -- `store`
  case h_1 =>
    obtain ⟨⟨l, r⟩, c₁, s₁, hlr, h⟩ := read_bind_eq_ok.mp h
    cases h
    exact ⟨" " ++ Operand.listText [l, r],
      word_line (by simp) _, fun start =>
      tail_pair e hlr fun x => Sum.inl (Instr.store x.1 x.2 .missing)⟩
  -- `debug`: a message in quotes, and operands if there are any
  case h_2 =>
    obtain ⟨m, c₁, s₁, hlift, h⟩ := read_bind_eq_ok.mp h
    obtain ⟨-, rfl⟩ := lift_eq_ok.mp hlift
    obtain ⟨vs, c₁, s₁, hvs, h⟩ := read_bind_eq_ok.mp h
    cases h
    obtain ⟨hblanks, hecho⟩ := operandLine_echo e hvs
    refine ⟨" "
      ++ (quote m ++ (if vs.isEmpty then "" else " " ++ Operand.listText vs)),
      ?_, fun start => .line ?_⟩
    · rw [← word_line (show "debug " = "debug" ++ " " by simp),
        ← String.append_assoc]
      rfl
    · have hmessage : Echo e (liftM message) c c (· = m) fun s rest => skipped s
          = bytesOf (quote m) ++ rest :=
        Echo.scan e c fun _ _ hs => message_takes hs
      refine Echo.imp
        (hmessage.seq (hecho.seq (Echo.pure e c' (Sum.inl (Instr.debug m vs)))))
        fun s rest hs => ?_
      rw [hs.2, bytesOf_append, List.append_assoc]
      refine ⟨_, by rw [skipped_space, skipped_quote], _, ⟨hs.1, ?_⟩, rfl⟩
      exact skippedBlanks_line hblanks hs.1
  -- `nop` has nothing behind it
  case h_3 =>
    cases h
    refine ⟨"", rfl, fun start => ⟨.inl rfl, .inl rfl, ?_⟩⟩
    refine Echo.imp (Echo.pure e c (Sum.inl Instr.nop)) fun s rest hs => ?_
    rw [bytesOf_empty] at hs
    exact hs.2
  -- `call` with no results
  case h_4 =>
    obtain ⟨i, c₁, s₁, hcall, h⟩ := read_bind_eq_ok.mp h
    cases h
    obtain ⟨w, htext, hecho⟩ := callWith_echo e hcall
    refine ⟨" " ++ w, ?_, fun start => ⟨.inl rfl, .inr ⟨w, rfl⟩, ?_⟩⟩
    · show e.text i = _
      rw [htext, show callDests e.func [] = "" from rfl, String.empty_append,
        String.append_empty]
    · exact Echo.imp (hecho.seq (Echo.pure e c' (Sum.inl i)))
        fun s rest hs => ⟨rest, hs.2, rfl⟩
  -- `jump`
  case h_5 =>
    obtain ⟨b, c₁, s₁, hlift, h⟩ := read_bind_eq_ok.mp h
    obtain ⟨hb, rfl⟩ := lift_eq_ok.mp hlift
    cases h
    refine ⟨" " ++ blockText b, word_line (by simp) _,
      fun start => .line ?_⟩
    have hblock : Echo e (liftM blockId) c c (· = b)
        (Front (bytesOf (blockText b))) :=
      Echo.scan e c fun _ _ hs => blockId_takes (blockId_spec hb) hs.1 hs.2
    refine Echo.imp (hblock.seq (Echo.pure e c (Sum.inr (Terminator.jump b))))
      fun s rest hs => ?_
    rw [hs.2]
    exact ⟨rest, ⟨by rw [skipped_space, skipped_block], hs.1.ends⟩, rfl⟩
  -- `if`
  case h_6 =>
    obtain ⟨v, c₁, s₁, hv, h⟩ := read_bind_eq_ok.mp h
    obtain ⟨⟨t, u⟩, c₃, s₃, hlift, h⟩ := read_bind_eq_ok.mp h
    obtain ⟨htu, rfl⟩ := lift_eq_ok.mp hlift
    cases h
    obtain ⟨hopens, hecho⟩ := operand_echo e hv
    refine ⟨" " ++ (v.text ++ branchText t u), ?_, fun start => .line ?_⟩
    · rw [← word_line (show "if " = "if" ++ " " by simp),
        ← String.append_assoc]
      rfl
    · refine Echo.imp
        (hecho.seq ((branchTargets_echo e c' (branchTargets_spec htu)).seq
        (Echo.pure e c' (Sum.inr (Terminator.branch v t u)))))
        fun s rest hs => ?_
      rw [hs.2, bytesOf_append, List.append_assoc]
      exact ⟨_, front_space hopens (ends_branch t u rest), _,
        ⟨rfl, hs.1.ends⟩, rfl⟩
  -- `brcmp`: the comparison is a name, looked up in the table of operators
  case h_7 =>
    obtain ⟨named, c₁, s₁, hleft, h⟩ := read_bind_eq_ok.mp h
    cases hleft
    obtain ⟨n, c₁, s₁, hlift, h⟩ := read_bind_eq_ok.mp h
    obtain ⟨hn, rfl⟩ := lift_eq_ok.mp hlift
    have hname := ident_spec hn
    unfold behindComparison at h
    cases hop : (BinaryOp.ofName? n).filter BinaryOp.isComparison with
    | none =>
        rw [hop] at h
        cases h
    | some b =>
        rw [hop] at h
        obtain ⟨⟨l, r⟩, c₁, s₁, hlr, h⟩ := read_bind_eq_ok.mp h
        obtain ⟨⟨t, u⟩, c₃, s₃, hlift', h⟩ := read_bind_eq_ok.mp h
        obtain ⟨htu, rfl⟩ := lift_eq_ok.mp hlift'
        cases h
        obtain ⟨hopens, hecho⟩ := operandPair_echo e hlr
        obtain rfl : b.text = n := by
          obtain ⟨hfind, -⟩ := Option.filter_eq_some_iff.mp hop
          simpa using List.find?_some hfind
        refine ⟨" "
          ++ (b.text ++ (" " ++ (Operand.listText [l, r] ++ branchText t u))),
          ?_, fun start => .line ?_⟩
        · rw [← word_line (show "brcmp " = "brcmp" ++ " " by simp),
            ← String.append_assoc, ← String.append_assoc, ← String.append_assoc]
          rfl
        · have hlast (named : List UInt8) :
              Echo e (behindComparison named b.text) c c'
              (· = Sum.inr (Terminator.branchCmp b l r t u))
                fun s rest => Ends rest ∧
                s = 0x20 :: (bytesOf (Operand.listText [l, r])
                  ++ (bytesOf (branchText t u) ++ rest)) := by
            unfold behindComparison
            rw [hop]
            refine Echo.imp
              (hecho.seq ((branchTargets_echo e c' (branchTargets_spec htu)).seq
              (Echo.pure e c' (Sum.inr (Terminator.branchCmp b l r t u)))))
              fun s rest hs => ?_
            rw [hs.2]
            exact ⟨_, front_space (opens_pair hopens) (ends_branch t u rest),
              _, ⟨rfl, hs.1⟩, rfl⟩
          refine Echo.imp (Echo.left fun named =>
            (ident_echo e c hname).seq (hlast named)) fun s rest hs => ?_
          rw [hs.2, bytesOf_append, bytesOf_space_append, bytesOf_append,
            List.append_assoc, List.cons_append, List.append_assoc]
          exact ⟨_, front_space (opens_name hname) (ends_cons (by decide) _),
            hs.1.ends, rfl⟩
  -- `return`, where no operand leaves no blank either
  case h_8 =>
    obtain ⟨vs, c₁, s₁, hvs, h⟩ := read_bind_eq_ok.mp h
    cases h
    obtain ⟨hblanks, hecho⟩ := operandLine_echo e hvs
    refine ⟨if vs.isEmpty then ""
      else " " ++ Operand.listText vs, by rw [String.append_empty]; rfl,
      fun start => ⟨.inl rfl, ?_, ?_⟩⟩
    · split
      · exact .inl rfl
      · exact .inr ⟨_, rfl⟩
    · refine Echo.imp (hecho.seq (Echo.pure e c' (Sum.inr (Terminator.ret vs))))
        fun s rest hs => ?_
      obtain ⟨⟨r, rfl, hr⟩, rfl⟩ := hs
      rw [bytesOf_empty]
      exact ⟨_, ⟨hr, skippedBlanks_line hblanks hr⟩, rfl⟩
  -- `unreachable`
  case h_9 =>
    cases h
    refine ⟨"", rfl, fun start => ⟨.inl rfl, .inl rfl, ?_⟩⟩
    refine Echo.imp (Echo.pure e c (Sum.inr Terminator.unreachable))
      fun s rest hs => ?_
    rw [bytesOf_empty] at hs
    exact hs.2
  -- any other word is an error
  case h_10 => cases h

/-- Destinations begin with the sign of a value, words do not. -/
theorem head_typed (f : Func) (d : ValueId) (ds : List ValueId)
    (r : List UInt8) :
    (listed (typedBytes f (d :: ds)) ++ r).head? = some 0x25 := by
  rw [typedBytes, List.map_cons, listed, typedText, valueText, bytesOf_append,
    bytesOf_append, bytesOf_append, bytesOf_percent]
  rfl

/-- No name begins with a percent sign, so no other statement is taken for a
definition. -/
theorem head_name {n : String} (hn : isName n = true) (r : List UInt8) :
    (bytesOf n ++ r).head? ≠ some 0x25 := by
  obtain ⟨b, bs, hbytes, hb, -⟩ := isName_iff.mp hn
  rw [hbytes]
  intro h
  cases h
  exact absurd hb (by decide)

/-- Every statement that was read is read again from its line. -/
theorem statement_echo (e : Setting) {x : Instr ⊕ Terminator}
    (h : statement c s = .ok ((x, c'), s')) :
    ∃ w pad, (pad = "" ∨ pad = " " ∧ ∃ i, x = .inl i)
        ∧ e.line x = some (w ++ pad) ∧ Opens (bytesOf w) ∧
      Echo e statement c c' (· = x) fun s rest => Padded pad rest
          ∧ skipped s = bytesOf w ++ rest := by
  rw [statement_eq] at h ⊢
  obtain ⟨start, c₁, s₁, hstart, h⟩ := read_bind_eq_ok.mp h
  cases hstart
  obtain ⟨_, c₁, s₁, hskipped, h⟩ := read_bind_eq_ok.mp h
  cases hskipped
  obtain ⟨front, c₁, s₁, hfront, h⟩ := read_bind_eq_ok.mp h
  cases hfront
  -- a percent sign begins a definition, a word anything else
  by_cases hvalue : (skipped s).head? = some 0x25
  · rw [if_pos hvalue] at h
    obtain ⟨n, c₁, s₁, hturns, h⟩ := read_bind_eq_ok.mp h
    cases hturns
    obtain ⟨ds, c₁, s₁, hds, h⟩ := read_bind_eq_ok.mp h
    obtain ⟨_, c₃, s₃, hequals, h⟩ := read_bind_eq_ok.mp h
    obtain ⟨-, rfl⟩ := lift_eq_ok.mp hequals
    obtain ⟨i, c₃, s₃, hi, h⟩ := read_bind_eq_ok.mp h
    cases h
    obtain ⟨d, news, rfl, hdests⟩ := destinations_echo e _ hds
    obtain ⟨w, pad, hpad, htext, hecho⟩ := definition_echo e (by simp) hi
    have hdestText : bytesOf (destText e.func (d :: news)) =
        listed (typedBytes e.func (d :: news)) ++ [0x20, 0x3D, 0x20] := by
      rw [destText, bytesOf_append, bytesOf_intercalate, List.map_map,
        show bytesOf " = " = [0x20, 0x3D, 0x20] from bytesOf_ofList _]
      rfl
    have hopens : Opens (listed (typedBytes e.func (d :: news))) :=
      (opens_typed e.func d).append _
    refine ⟨destText e.func (d :: news) ++ w, pad,
      hpad.imp_right fun hpad => ⟨hpad, i, rfl⟩, ?_, ?_, ?_⟩
    · show e.text i = _
      rw [htext, String.append_assoc]
      rfl
    · rw [bytesOf_append, hdestText]
      exact (hopens.append _).append _
    · have hall : Echo e (do
          let ds ← destinations (← turns) []
          token "="
          return .inl (← definition ds) : Read (Instr ⊕ Terminator)) c c'
            (· = Sum.inl i) fun s rest =>
          Padded pad rest ∧ s = listed (typedBytes e.func (d :: news))
            ++ 0x20 :: 0x3D :: 0x20 :: (bytesOf w ++ rest) := by
        refine Echo.turns fun n => ?_
        refine Echo.imp
          ((hdests n).seq ((token_echo e c₁ (b := 0x3D) (by decide +kernel)).seq
          (hecho.seq (Echo.pure e c' (Sum.inl i))))) fun s rest hs => ?_
        obtain ⟨hlen, hpadded, rfl⟩ := hs
        exact ⟨_, ⟨hlen, ⟨_, rfl⟩, (hopens.append _).skipped⟩, _,
          by rw [skipped_space, skipped_of_solid (by decide)], _,
            ⟨hpadded, rfl⟩, rfl⟩
      refine Echo.imp (Echo.left fun start =>
        (skip_echo e c).seq (hall.leftPos fun s rest hs => ?_))
        fun s rest hs => ?_
      · rw [hs.2]
        exact head_typed e.func d news _
      · obtain ⟨hpadded, hs⟩ := hs
        rw [bytesOf_append, hdestText, List.append_assoc,
          List.append_assoc] at hs
        exact ⟨_, rfl, hpadded, hs⟩
  · rw [if_neg hvalue] at h
    obtain ⟨op, c₁, s₁, hlift, h⟩ := read_bind_eq_ok.mp h
    obtain ⟨hident, rfl⟩ := lift_eq_ok.mp hlift
    have hname := ident_spec (inPart_eq_ok.mp hident)
    obtain ⟨w, htext, htail⟩ := behindFirst_echo e h
    refine ⟨op ++ w, "", .inl rfl, by rw [htext, String.append_assoc], ?_, ?_⟩
    · rw [bytesOf_append]
      exact (opens_name hname).append _
    · have hword : Echo e (liftM (inPart "instruction" ident)) c c (· = op)
          (Front (bytesOf op)) :=
        Echo.scan e c fun _ _ hs =>
          inPart_eq_ok.mpr (ident_takes hname hs.1 hs.2)
      have hall (start : List UInt8) : Echo e (do
          let op ← inPart "instruction" ident
          behindFirst start op : Read (Instr ⊕ Terminator)) c c'
            (· = x) fun s rest =>
          Padded "" rest ∧ s = bytesOf op ++ (bytesOf w ++ rest) := by
        refine Echo.imp (hword.seq (htail start).echo) fun s rest hs => ?_
        rw [hs.2]
        exact ⟨_, ⟨skipped_name hname _, (htail []).ends hs.1⟩, hs.1, rfl⟩
      refine Echo.imp (Echo.left fun start =>
        (skip_echo e c).seq ((hall start).leftNeg fun s rest hs => ?_))
        fun s rest hs => ?_
      · rw [hs.2]
        exact head_name hname _
      · obtain ⟨hpadded, hs⟩ := hs
        rw [bytesOf_append, List.append_assoc] at hs
        exact ⟨_, rfl, hpadded, hs⟩

end MirBackend.Source
