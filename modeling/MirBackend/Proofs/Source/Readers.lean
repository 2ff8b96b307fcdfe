/-
Readers of functions stay inside the input, and note every call they read.

A reader does what scanners do, and keeps a list of calls that are still to be
resolved (`Reads`). The list only grows, by calls that stand in the input, and
the turn that a call instruction carries is the place of its own entry
(`CallNoted`), so what the call is resolved to later was asked for with as many
results as the instruction has destinations.
-/
import MirBackend.Proofs.Source.Bounds
import MirBackend.Proofs.Source.Statements

namespace MirBackend.Source

open Text

variable {α β : Type} {c c' c₁ : Context}
  {input s s' s₁ : List UInt8} {n m : Nat}

-- ================================================================ judgement

/-- A later context has the calls of an earlier one and others that stand in the
input. -/
def Extends (input : List UInt8) (c c' : Context) : Prop :=
  ∃ new, c'.calls = new ++ c.calls ∧ ∀ k ∈ new, k.left <:+ input

theorem Extends.refl (input : List UInt8) (c : Context) : Extends input c c :=
  ⟨[], rfl, fun _ h => absurd h List.not_mem_nil⟩

/-- Where no call is noted, there are the same. -/
theorem Extends.of_calls (h : c'.calls = c.calls) : Extends input c c' :=
  ⟨[], h, fun _ h => absurd h List.not_mem_nil⟩

theorem Extends.trans (h : Extends input c c₁) (h' : Extends input c₁ c') :
    Extends input c c' := by
  obtain ⟨new, heq, hnew⟩ := h
  obtain ⟨new', heq', hnew'⟩ := h'
  refine ⟨new' ++ new, by rw [heq', heq, List.append_assoc], fun k hk => ?_⟩
  rcases List.mem_append.mp hk with hk | hk
  · exact hnew' k hk
  · exact hnew k hk

/-- Run on an end of the input, the reader leaves an end of that, shorter by
some bytes at least, with a context that extends its own and an answer of the
kind `R`; or it fails at an end of the input. -/
structure Reads (input : List UInt8) (c : Context) (s : List UInt8)
    (n : Nat) (p : Read α) (R : α → Context → Prop) : Prop where
  inside : s <:+ input
  takes : ∀ a c' s', p c s = .ok ((a, c'), s') →
    s' <:+ s ∧ s'.length + n ≤ s.length ∧ Extends input c c' ∧ R a c'
  fails : ∀ e, p c s = .error e → e.left <:+ input

/-- Readers in turn fail if the first one does, or the second one behind it. -/
theorem read_bind_eq_error {x : Read α} {k : α → Read β} {e : Failure} :
    (x >>= k) c s = .error e ↔ x c s = .error e
      ∨ ∃ a c₁ s₁, x c s = .ok ((a, c₁), s₁) ∧ k a c₁ s₁ = .error e := by
  show (x c >>= fun y => k y.1 y.2) s = _ ↔ _
  rw [scan_bind_eq_error]
  exact or_congr_right ⟨fun ⟨⟨a, c₁⟩, s₁, h₁, h₂⟩ => ⟨a, c₁, s₁, h₁, h₂⟩,
    fun ⟨a, c₁, s₁, h₁, h₂⟩ => ⟨(a, c₁), s₁, h₁, h₂⟩⟩

namespace Reads

variable {p : Read α} {x : Scan α} {k : α → Read β} {P : α → Context → Prop}
  {R : β → Context → Prop} {a : α}

-- The judgement for what readers are made of.
theorem imp {Q : α → Context → Prop} (h : Reads input c s n p P)
    (hQ : ∀ a c, P a c → Q a c) : Reads input c s n p Q :=
  ⟨h.inside, fun a c' s' ha => by
    obtain ⟨hsuffix, hlen, hext, hP⟩ := h.takes a c' s' ha
    exact ⟨hsuffix, hlen, hext, hQ a c' hP⟩, h.fails⟩

theorem weaken (h : Reads input c s n p P) : Reads input c s 0 p P :=
  ⟨h.inside, fun a c' s' ha => by
    obtain ⟨hsuffix, -, hrest⟩ := h.takes a c' s' ha
    exact ⟨hsuffix, hsuffix.length_le, hrest⟩, h.fails⟩

theorem pure (hs : s <:+ input) (ha : P a c) : Reads input c s 0 (pure a) P :=
  ⟨hs, fun _ c' s' h => by
    obtain ⟨rfl, rfl, rfl⟩ := read_pure_eq_ok.mp h
    exact ⟨List.suffix_rfl, Nat.le_refl _, .refl _ _, ha⟩,
      fun _ h => by cases h⟩

theorem fail {rest : List UInt8} (hs : s <:+ input)
    (hrest : rest <:+ input) (e : ReadError) :
    Reads input c s n (Read.failAt rest e : Read α) P := by
  refine ⟨hs, fun _ _ _ h => ?_, fun _ h => ?_⟩
  · cases h
  · cases h
    exact hrest

theorem inPart (h : Reads input c s n p P) (part : String) :
    Reads input c s n (Read.inPart part p) P := by
  refine ⟨h.inside, fun a c' s' ha => h.takes a c' s' (readInPart_eq_ok.mp ha),
    fun e he => ?_⟩
  have hs : Within input s 0 (p c) := ⟨h.inside, fun a s' ha => by
    obtain ⟨hsuffix, -⟩ := h.takes a.1 a.2 s' ha
    exact ⟨hsuffix, hsuffix.length_le⟩, h.fails⟩
  exact (hs.inPart part).fails e he

/-- What a reader takes, those behind it need not. -/
theorem bind (hp : Reads input c s m p P)
    (hk : ∀ a c' s', s' <:+ input → Extends input c c' →
    P a c' → Reads input c' s' (n - m) (k a) R) :
      Reads input c s n (p >>= k) R := by
  refine ⟨hp.inside, fun b c' s' hb => ?_, fun e he => ?_⟩
  · obtain ⟨a, c₁, s₁, ha, hb⟩ := read_bind_eq_ok.mp hb
    obtain ⟨hsuffix, hlen, hext, hP⟩ := hp.takes a c₁ s₁ ha
    obtain ⟨hsuffix', hlen', hext', hR⟩ :=
      (hk a c₁ s₁ (hsuffix.trans hp.inside) hext hP).takes b c' s' hb
    exact ⟨hsuffix'.trans hsuffix, by omega, hext.trans hext', hR⟩
  · rcases read_bind_eq_error.mp he with he | ⟨a, c₁, s₁, ha, he⟩
    · exact hp.fails e he
    · obtain ⟨hsuffix, -, hext, hP⟩ := hp.takes a c₁ s₁ ha
      exact (hk a c₁ s₁ (hsuffix.trans hp.inside) hext hP).fails e he

/-- A step that goes on from a known place and context. -/
theorem step (hs : s <:+ input)
    (hp : p c s = .ok ((a, c₁), s₁)) (hs₁ : s₁ <:+ s)
    (hlen : s₁.length + m ≤ s.length) (hext : Extends input c c₁)
    (hk : Reads input c₁ s₁ (n - m) (k a) R) :
    Reads input c s n (p >>= k) R := by
  have heq : (p >>= k) c s = k a c₁ s₁ := read_bind_of_ok hp
  refine ⟨hs, fun b c' s' hb => ?_, fun e he => hk.fails e (heq ▸ he)⟩
  obtain ⟨hsuffix, hlen', hext', hR⟩ := hk.takes b c' s' (heq ▸ hb)
  exact ⟨hsuffix.trans hs₁, by omega, hext.trans hext', hR⟩

/-- A step that takes nothing and leaves the calls. -/
theorem quiet (hs : s <:+ input) (hp : p c s = .ok ((a, c₁), s))
    (hcalls : c₁.calls = c.calls) (hk : Reads input c₁ s n (k a) R) :
    Reads input c s n (p >>= k) R :=
  step (m := 0) hs hp List.suffix_rfl (Nat.le_refl _) (.of_calls hcalls) hk

/-- A scanner reads. -/
theorem scan (h : Within input s n x) :
    Reads input c s n (liftM x) fun _ c' => c' = c :=
  ⟨h.inside, fun a c' s' ha => by
    obtain ⟨hx, rfl⟩ := lift_eq_ok.mp ha
    obtain ⟨hsuffix, hlen⟩ := h.takes a s' hx
    exact ⟨hsuffix, hlen, .refl _ _, rfl⟩, fun e he => by
    have he : (x >>= fun a => Pure.pure (a, c) : Scan (α × Context)) s
        = .error e := he
    rcases scan_bind_eq_error.mp he with he | ⟨a, s₁, -, he⟩
    · exact h.fails e he
    · cases he⟩

/-- A scanner, then a reader in the same context. -/
theorem lift (h : Within input s m x) (hk : ∀ a s', s' <:+ input →
    Reads input c s' (n - m) (k a) R) :
      Reads input c s n (liftM x >>= k) R := by
  refine (scan h).bind fun a c' s' hs' _ heq => ?_
  subst heq
  exact hk a s' hs'

/-- What follows an attempt may rest on whether something was taken. -/
theorem attempted {k : Option α → Read β} (h : Within input s m x)
    (hsome : ∀ a s', s' <:+ input → Reads input c s' (n - m) (k (some a)) R)
    (hnone : Reads input c s n (k none) R) :
    Reads input c s n (liftM (attempt x) >>= k) R := by
  cases hx : x s with
  | error e =>
      exact quiet h.inside (lift_eq_ok.mpr ⟨attempt_of_error hx, rfl⟩) rfl hnone
  | ok r =>
      obtain ⟨a, s₁⟩ := r
      obtain ⟨hsuffix, hlen⟩ := h.takes a s₁ hx
      exact step h.inside (lift_eq_ok.mpr ⟨attempt_of_ok hx, rfl⟩)
        hsuffix hlen (.refl _ _)
        (hsome a s₁ (hsuffix.trans h.inside))

theorem left {k : List UInt8 → Read β} (h : Reads input c s n (k s) R) :
    Reads input c s n (Source.left >>= k) R :=
  quiet h.inside rfl rfl h

theorem turns {k : Nat → Read β} (h : Reads input c s n (k (s.length + 1)) R) :
    Reads input c s n (Source.turns >>= k) R :=
  quiet h.inside rfl rfl h

/-- A comma before an item, unless it is the first. -/
theorem separated {first : Bool} {k : Unit → Read β} (hs : s <:+ input)
    (hk : ∀ s', s' <:+ input → Reads input c s' n (k ()) R) :
    Reads input c s n (if (!first) = true then liftM (token ",") >>= k
      else k ()) R := by
  split
  · exact lift (token_within hs ",") fun _ s' hs' => hk s' hs'
  · exact hk s hs

end Reads

-- ================================================================= operands

theorem bytesOf_true : bytesOf "true" = [0x74, 0x72, 0x75, 0x65] :=
  bytesOf_ofList _

theorem bytesOf_false : bytesOf "false" = [0x66, 0x61, 0x6C, 0x73, 0x65] :=
  bytesOf_ofList _

/-- An operand takes one byte at least. -/
theorem operand_reads (hs : s <:+ input) (c : Context) :
    Reads input c s 1 operand fun _ _ => True := by
  have hskip := skipped_suffix s
  have hs' := hskip.trans hs
  suffices h : Reads input c (skipped s) 1 _ fun _ _ => True by
    refine ⟨hs, fun a c' t ha => ?_,
      fun e he => h.fails e (operand_eq c s ▸ he)⟩
    obtain ⟨hsuffix, hlen, hrest⟩ := h.takes a c' t (operand_eq c s ▸ ha)
    have := hskip.length_le
    exact ⟨hsuffix.trans hskip, by omega, hrest⟩
  cases hfront : skipped s with
  | nil => exact .fail (hfront ▸ hs') List.nil_suffix _
  | cons b rest =>
      rw [hfront] at hs'
      have hrest := (List.suffix_cons b rest).trans hs'
      dsimp only
      split
      · refine .lift (valueId_within hs') fun id t ht =>
          .quiet ht rfl rfl (.pure ht trivial)
      · split
        · refine .lift (number_within hs') fun k t ht => ?_
          split
          · exact .pure ht trivial
          · exact .fail ht hs' _
        · split
          · refine .step (m := 1) hs' rfl (List.suffix_cons b rest)
              (Nat.le_refl _) (.refl _ _)
              (.lift (closes_within hrest ")") fun closed t ht => ?_)
            split
            · exact .pure ht trivial
            · exact .fail ht ((skipped_suffix rest).trans hrest) _
          · have htrue := keyword_within hs' "true"
            have hfalse := keyword_within hs' "false"
            rw [bytesOf_true] at htrue
            rw [bytesOf_false] at hfalse
            refine .attempted htrue (fun _ t ht => .pure ht trivial) ?_
            refine .attempted hfalse (fun _ t ht => .pure ht trivial) ?_
            rw [Option.isSome_none, if_neg Bool.false_ne_true]
            cases hafter : after? (bytesOf "<error>") (b :: rest) with
            | none => exact .fail hs' hs' _
            | some t =>
                obtain ⟨hsuffix, hlen⟩ := after?_suffix hafter
                have hlong : 1 ≤ (bytesOf "<error>").length := by
                  rw [show bytesOf "<error>" = _ from bytesOf_ofList _]
                  decide
                exact .step (m := 1) hs' rfl hsuffix (by omega) (.refl _ _)
                  (.pure (hsuffix.trans hs') trivial)

theorem operandPair_reads (hs : s <:+ input) (c : Context) :
    Reads input c s 1 operandPair fun _ _ => True :=
  (operand_reads hs c).bind fun _ c₁ _ hs₁ _ _ =>
  .lift (token_within hs₁ ",") fun _ _ hs₂ =>
    (operand_reads hs₂ c₁).bind fun _ _ _ hs₃ _ _ => .pure hs₃ trivial

/-- Blanks inside a line are taken from the front. -/
theorem skippedBlanks_suffix (s : List UInt8) : skippedBlanks s <:+ s :=
  List.dropWhile_suffix _

/-- Further operands may be none, so nothing is taken for sure. -/
theorem moreOperands_reads (fuel : Nat) (hs : s <:+ input) (c : Context)
    (vs : List Operand) :
    Reads input c s 0 (moreOperands fuel vs) fun _ _ => True := by
  induction fuel generalizing c s vs with
  | zero => exact .pure hs trivial
  | succ fuel ih =>
      rw [moreOperands]
      refine .left ?_
      have hblanks := skippedBlanks_suffix s
      split
      · rename_i rest hrest
        have hsuffix : rest <:+ s :=
          (List.suffix_cons 0x2C rest).trans (hrest ▸ hblanks)
        exact .step (m := 0) hs rfl hsuffix hsuffix.length_le (.refl _ _)
          ((operand_reads (hsuffix.trans hs) c).bind fun v c₁ _ hs₁ _ _ =>
          ih hs₁ c₁ _)
      · exact .pure hs trivial

theorem operandLine_reads (hs : s <:+ input) (c : Context) :
    Reads input c s 0 operandLine fun _ _ => True := by
  have hblanks := skippedBlanks_suffix s
  have hs' := hblanks.trans hs
  refine .left (.step (m := 0) hs rfl hblanks hblanks.length_le (.refl _ _) ?_)
  split
  · exact .pure hs' trivial
  · exact (operand_reads hs' c).bind fun v c₁ _ hs₁ _ _ =>
      .turns (moreOperands_reads _ hs₁ c₁ _)

/-- Items that take something each, up to the closing token. -/
theorem itemsUpTo_reads {close : String} {item : Nat → Read α}
    (hitem : ∀ j c s, s <:+ input →
    Reads input c s 1 (item j) fun _ _ => True) (fuel : Nat) (hs :
      s <:+ input) (c : Context)
    (as : List α) : Reads input c s 0 (itemsUpTo close item fuel as)
      fun _ _ => True := by
  induction fuel generalizing c s as with
  | zero => exact .left (.fail hs hs _)
  | succ fuel ih =>
      rw [itemsUpTo]
      refine .lift (closes_within hs close) fun closed s₁ hs₁ => ?_
      split
      · exact .pure hs₁ trivial
      · exact .separated hs₁ fun s₂ hs₂ =>
          (hitem _ c s₂ hs₂).bind fun a c₁ _ hs₃ _ _ =>
          ih hs₃ c₁ _

-- ==================================================================== calls

/-- A call instruction carries the place of its own entry among the calls. -/
def CallNoted (c : Context) : Instr → Prop
  | .call ds turn _ _ => ∃ (j : Nat) (k : PendingCall), turn = j
        ∧ c.calls.reverse[j]? = some k
      ∧ k.results = ds.length
  | _ => True

/-- Entries keep their places. -/
theorem CallNoted.extends {i : Instr} (h : CallNoted c i)
    (hext : Extends input c c') : CallNoted c' i := by
  cases i with
  | call ds turn args sig =>
      obtain ⟨j, k, rfl, hk, hresults⟩ := h
      obtain ⟨new, heq, -⟩ := hext
      refine ⟨j, k, rfl, ?_, hresults⟩
      rw [heq, List.reverse_append, List.getElem?_append_left, hk]
      exact (List.getElem?_eq_some_iff.mp hk).1
  | _ => trivial

/-- A callee is named or numbered. -/
theorem callee_within (hs : s <:+ input) : Within input s 1 callee := by
  refine .get ?_
  split
  · exact (number_within hs).bind fun _ _ _ hs₁ _ => .pure hs₁ _
  · exact (ident_within hs).bind fun _ _ _ hs₁ _ => .pure hs₁ _

/-- A call is noted, and stands in the code under the turn it was noted at. -/
theorem callWith_reads (hs : s <:+ input) (c : Context) (dests : List ValueId) :
    Reads input c s 0 (callWith dests) fun i c' => CallNoted c' i := by
  refine .left (.lift (token_within hs "@") fun _ s₁ hs₁ =>
    .lift ((callee_within hs₁).inPart _) fun ⟨name, number⟩ s₂ hs₂ =>
    .lift (token_within hs₂ "(") fun _ s₃ hs₃ => .turns ?_)
  refine (itemsUpTo_reads (fun j c s hs =>
    (operand_reads hs c).inPart _) _ hs₃ c []).bind
    fun args c₁ s₄ hs₄ _ _ =>
      .quiet hs₄ rfl rfl (.step (m := 0) hs₄ rfl List.suffix_rfl
      (Nat.le_refl _) ⟨[⟨name, number, dests.length, s⟩], rfl,
      ?_⟩ (.pure hs₄ ?_))
  · intro k hk
    obtain rfl := List.mem_singleton.mp hk
    exact hs
  · exact ⟨c₁.calls.length, ⟨name, number, dests.length, s⟩, rfl, by simp, rfl⟩

-- ============================================================= instructions

theorem phiSource_reads (hs : s <:+ input) (c : Context) :
    Reads input c s 1 phiSource fun _ _ => True :=
  .lift (token_within hs "[") fun _ _ hs₁ =>
    .lift (blockId_within hs₁) fun _ _ hs₂ =>
    .lift (token_within hs₂ ":") fun _ _ hs₃ =>
      (operand_reads hs₃ c).bind fun _ _ _ hs₄ _ _ =>
    .lift (token_within hs₄ "]") fun _ _ hs₅ => .pure hs₅ trivial

theorem morePhiSources_reads (fuel : Nat) (hs : s <:+ input) (c : Context)
    (ss : List PhiSource) :
    Reads input c s 0 (morePhiSources fuel ss) fun _ _ => True := by
  induction fuel generalizing c s ss with
  | zero => exact .pure hs trivial
  | succ fuel ih =>
      rw [morePhiSources]
      refine .lift (closes_within hs ",") fun closed s₁ hs₁ => ?_
      split
      · exact (phiSource_reads hs₁ c).bind fun _ c₁ _ hs₂ _ _ => ih hs₂ c₁ _
      · exact .pure hs₁ trivial

theorem branchTargets_within (hs : s <:+ input) :
    Within input s 0 branchTargets :=
  (keyword_within hs "then").weaken.bind fun _ _ _ hs₁ _ =>
    (blockId_within hs₁).bind
    fun _ _ _ hs₂ _ => (keyword_within hs₂ "else").weaken.bind
    fun _ _ _ hs₃ _ =>
    (blockId_within hs₃).bind fun _ _ _ hs₄ _ => .pure hs₄ _

theorem commaNumber_within (hs : s <:+ input) : Within input s 0 commaNumber :=
  (token_within hs ",").bind fun _ _ _ hs₁ _ => (number_within hs₁).weaken

theorem fieldValues_reads (fs : List TyField) (hs : s <:+ input) (c : Context)
    (vs : List (String × Operand)) :
    Reads input c s 0 (fieldValues fs vs) fun _ _ => True := by
  induction fs generalizing c s vs with
  | nil => exact .pure hs trivial
  | cons f fs ih =>
      rw [fieldValues]
      exact .separated hs fun _ hs₁ => .lift (ident_within hs₁) fun _ _ hs₂ =>
        .lift (token_within hs₂ ":") fun _ _ hs₃ => (operand_reads hs₃ c).bind
        fun _ c₁ _ hs₄ _ _ => ih hs₄ c₁ _

/-- An operand and what is made of it. -/
theorem of_operand {f : Operand → Instr} (hs : s <:+ input) (c : Context)
    (hf : ∀ v c, CallNoted c (f v)) :
    Reads input c s 0 (do return f (← operand)) fun i c' => CallNoted c' i :=
  (operand_reads hs c).bind fun _ _ _ hs₁ _ _ => .pure hs₁ (hf _ _)

/-- No operation but a call notes one, and errors are placed where the caller
says. -/
theorem operation_reads (op : String) (d : ValueId) (t : Ty)
    {opened named : List UInt8} (hopened : opened <:+ input)
    (hnamed : named <:+ input) (hs : s <:+ input) (c : Context) :
    Reads input c s 0 (operation op d t opened named) fun i c' =>
      CallNoted c' i := by
  unfold operation
  split
  · exact of_operand hs c fun _ _ => trivial
  split
  · exact (operandPair_reads hs c).bind fun _ _ _ hs₁ _ _ => .pure hs₁ trivial
  split
  · exact of_operand hs c fun _ _ => trivial
  · exact of_operand hs c fun _ _ => trivial
  · split
    · exact .pure hs trivial
    · exact .fail hs hopened _
  · refine (operand_reads hs c).bind fun v _ _ hs₁ _ _ => ?_
    split
    · exact .pure hs₁ trivial
    · exact .fail hs₁ hnamed _
  · exact (operandPair_reads hs c).bind fun _ _ _ hs₁ _ _ => .pure hs₁ trivial
  · exact of_operand hs c fun _ _ => trivial
  · exact (phiSource_reads hs c).bind fun _ c₁ _ hs₁ _ _ => .turns
      ((morePhiSources_reads _ hs₁ c₁ _).bind fun _ _ _ hs₂ _ _ =>
      .pure hs₂ trivial)
  · split
    · exact (operandLine_reads hs c).bind fun _ _ _ hs₁ _ _ => .pure hs₁ trivial
    · exact .fail hs hopened _
  · exact (operand_reads hs c).bind fun _ _ _ hs₁ _ _ =>
      .lift (commaNumber_within hs₁)
      fun _ _ hs₂ => .pure hs₂ trivial
  · split
    · exact (operand_reads hs c).bind fun _ c₁ _ hs₁ _ _ =>
        .lift (commaNumber_within hs₁)
        fun _ _ hs₂ => .lift (token_within hs₂ ",") fun _ _ hs₃ =>
        of_operand hs₃ c₁ fun _ _ => trivial
    · exact .fail hs hopened _
  · split
    · exact (fieldValues_reads _ hs c []).bind fun _ _ _ hs₁ _ _ =>
        .pure hs₁ trivial
    · exact .fail hs hnamed _
  · exact (operand_reads hs c).bind fun _ _ _ hs₁ _ _ =>
      .lift (token_within hs₁ ",")
      fun _ _ hs₂ => .lift (ident_within hs₂) fun _ _ hs₃ => .pure hs₃ trivial
  · refine (operand_reads hs c).bind fun _ c₁ _ hs₁ _ _ =>
      .lift (token_within hs₁ ",")
      fun _ _ hs₂ => .lift (ident_within hs₂) fun _ _ hs₃ => ?_
    split
    · exact .lift (token_within hs₃ ",") fun _ _ hs₄ =>
        of_operand hs₄ c₁ fun _ _ => trivial
    · exact .fail hs₃ hnamed _
  · split
    · refine (operandLine_reads hs c).bind fun vs _ _ hs₁ _ _ => ?_
      split
      · exact .pure hs₁ trivial
      · exact .fail hs₁ hnamed _
    · exact .fail hs hnamed _
  · exact .fail hs hopened _

/-- A definition may be a call. -/
theorem definition_reads (hs : s <:+ input) (c : Context)
    (dests : List ValueId) :
    Reads input c s 0 (definition dests) fun i c' => CallNoted c' i := by
  have hskip := skipped_suffix s
  have hs' := hskip.trans hs
  refine .lift (skip_within hs) fun _ s₁ hs₁ =>
    .left (.lift ((ident_within hs₁).inPart _)
    fun op s₂ hs₂ => ?_)
  split
  · exact callWith_reads hs₂ c dests
  · split
    · exact .quiet hs₂ rfl rfl (.left (operation_reads _ _ _ hs₁ hs₂ hs₂ c))
    · exact .fail hs₂ hs₁ _

/-- One turn reads one destination at least. -/
theorem destinations_reads (fuel : Nat) (hs : s <:+ input) (c : Context)
    (ds : List ValueId) :
    Reads input c s 1 (destinations (fuel + 1) ds) fun _ _ => True := by
  induction fuel generalizing c s ds with
  | zero =>
      refine .lift (typedValue_within hs) fun ⟨id, t⟩ s₁ hs₁ =>
        .quiet hs₁ rfl rfl
        (.lift (closes_within hs₁ ",") fun closed s₂ hs₂ => ?_)
      split
      · exact .pure hs₂ trivial
      · exact .pure hs₂ trivial
  | succ fuel ih =>
      refine .lift (typedValue_within hs) fun ⟨id, t⟩ s₁ hs₁ =>
        .quiet hs₁ rfl rfl
        (.lift (closes_within hs₁ ",") fun closed s₂ hs₂ => ?_)
      split
      · exact (ih hs₂ _ _).weaken
      · exact .pure hs₂ trivial

/-- What can follow a word that begins a statement. -/
theorem behindFirst_reads (op : String) {start : List UInt8}
    (hstart : start <:+ input) (hs : s <:+ input) (c : Context) :
    Reads input c s 0 (behindFirst start op) fun st c' =>
      ∀ i, st = .inl i → CallNoted c' i := by
  unfold behindFirst
  split
  · exact (operandPair_reads hs c).bind fun _ _ _ hs₁ _ _ =>
      .pure hs₁ fun i hi => by cases hi; trivial
  · exact .lift (message_within hs) fun _ _ hs₁ =>
      (operandLine_reads hs₁ c).bind
      fun _ _ _ hs₂ _ _ => .pure hs₂ fun i hi => by cases hi; trivial
  · exact .pure hs fun i hi => by cases hi; trivial
  · refine (callWith_reads hs c []).bind fun i c₁ _ hs₁ _ hi =>
      .pure hs₁ fun j hj => ?_
    cases hj
    exact hi
  · exact .lift (blockId_within hs) fun _ _ hs₁ => .pure hs₁ fun i hi => by
      cases hi
  · exact (operand_reads hs c).bind fun _ _ _ hs₁ _ _ =>
      .lift (branchTargets_within hs₁)
      fun _ _ hs₂ => .pure hs₂ fun i hi => by cases hi
  · refine .left (.lift (ident_within hs) fun name s₁ hs₁ => ?_)
    unfold behindComparison
    split
    · exact .fail hs₁ hs _
    · exact (operandPair_reads hs₁ c).bind fun _ _ _ hs₂ _ _ =>
        .lift (branchTargets_within hs₂)
        fun _ _ hs₃ => .pure hs₃ fun i hi => by cases hi
  · exact (operandLine_reads hs c).bind fun _ _ _ hs₁ _ _ =>
      .pure hs₁ fun i hi => by cases hi
  · exact .pure hs fun i hi => by cases hi
  · exact .fail hs hstart _

/-- A statement takes one byte at least, and so ends the loop over statements.
-/
theorem statement_reads (hs : s <:+ input) (c : Context) :
    Reads input c s 1 statement fun st c' => ∀ i, st = .inl i →
      CallNoted c' i := by
  rw [statement_eq]
  refine .left (.lift (skip_within hs) fun _ s₁ hs₁ => .left ?_)
  split
  · refine .turns ((destinations_reads _ hs₁ c []).bind fun ds c₁ s₂ hs₂ _ _ =>
      .lift (token_within hs₂ "=") fun _ s₃ hs₃ =>
        (definition_reads hs₃ c₁ ds).bind
      fun i c₃ s₄ hs₄ _ hi => .pure hs₄ fun j hj => ?_)
    cases hj
    exact hi
  · exact .lift ((ident_within hs₁).inPart _) fun op s₂ hs₂ =>
      behindFirst_reads op hs hs₂ c

-- =================================================================== blocks

/-- A block whose terminator stands in the input, and all calls of which are
noted. -/
structure BlockNoted (input : List UInt8) (c : Context)
    (b : RawBlock) : Prop where
  place : b.termLeft <:+ input
  call : ∀ i ∈ b.instrs, CallNoted c i

/-- Calls that are noted later do not change those noted before. -/
theorem BlockNoted.extends {b : RawBlock} (h : BlockNoted input c b)
    (hext : Extends input c c') :
    BlockNoted input c' b := ⟨h.place, fun i hi => (h.call i hi).extends hext⟩

/-- The statements of a block up to its terminator, behind those already there.
-/
theorem statements_reads (fuel : Nat) (hs : s <:+ input)
    (c : Context) {is : List Instr} (his : ∀ i ∈ is, CallNoted c i) :
    Reads input c s 0 (statements fuel is) fun x c' =>
      x.2.2 <:+ input ∧ ∀ i ∈ x.1, CallNoted c' i := by
  induction fuel generalizing c s is with
  | zero => exact .left (.fail hs hs _)
  | succ fuel ih =>
      rw [statements]
      refine .left ((statement_reads hs c).bind fun st c₁ s₁ hs₁ hext hst => ?_)
      cases st with
      | inr t =>
          refine .pure hs₁ ⟨(skipped_suffix s).trans hs,
            fun i hi => (his i hi).extends hext⟩
      | inl i =>
          refine ih hs₁ c₁ fun j hj => ?_
          rcases List.mem_append.mp hj with hj | hj
          · exact (his j hj).extends hext
          · obtain rfl := List.mem_singleton.mp hj
            exact hst j rfl

/-- A block takes one byte at least, and so ends the loop over blocks. -/
theorem rawBlock_reads (want : BlockId) (hs : s <:+ input) (c : Context) :
    Reads input c s 1 (rawBlock want) fun b c' => BlockNoted input c' b := by
  have hstart := (skipped_suffix s).trans hs
  refine .left (.lift ((blockId_within hs).inPart _) fun id s₁ hs₁ => ?_)
  split
  · exact .fail hs₁ hstart _
  · exact .lift (ident_within hs₁).attempt fun o s₂ hs₂ =>
      .lift (token_within hs₂ ":")
      fun _ s₃ hs₃ => (Reads.inPart (.turns (statements_reads _ hs₃ c fun _ h =>
        absurd h List.not_mem_nil)) _).bind fun x c₁ s₄ hs₄ _ hx =>
          .pure hs₄ ⟨hx.1, hx.2⟩

/-- The blocks up to the end of the function, behind those already there. -/
theorem rawBlocks_reads (fuel : Nat) (hs : s <:+ input) (c : Context)
    {bs : List RawBlock} (hbs : ∀ b ∈ bs, BlockNoted input c b) :
    Reads input c s 0 (rawBlocks fuel bs) fun bs c' =>
      ∀ b ∈ bs, BlockNoted input c' b := by
  induction fuel generalizing c s bs with
  | zero => exact .left (.fail hs hs _)
  | succ fuel ih =>
      rw [rawBlocks]
      refine .lift (closes_within hs "\x7d") fun closed s₁ hs₁ => ?_
      split
      · exact .pure hs₁ hbs
      · refine (rawBlock_reads _ hs₁ c).bind fun b c₁ s₂ hs₂ hext hb =>
          ih hs₂ c₁ fun d hd => ?_
        rcases List.mem_append.mp hd with hd | hd
        · exact (hbs d hd).extends hext
        · obtain rfl := List.mem_singleton.mp hd
          exact hb

end MirBackend.Source
