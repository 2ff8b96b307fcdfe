/-
Every value that a text defines has a type with a size.

A definition writes the types of its destinations, and a type that is written
has one of the written forms, all the way down (`Formed`): no part of it is
missing and no array has a negative length. Readers only add such types to those
recorded so far (`Records`), so a definition keeps the types it was read with,
whatever follows it.
-/
import MirBackend.Proofs.Source.Graphs
import MirBackend.Proofs.Ty

namespace MirBackend

namespace Source

variable {α β : Type} {t : Ty}

-- ================================================================= extents

/-- Fields laid one after the other take what their types take. -/
theorem extentOfFields_place (off : Int64) (fs : List (String × Ty)) :
    Ty.extentOfFields (Record.place off fs) = Ty.extentOfList
      (fs.map Prod.snd) := by
  induction fs generalizing off with
  | nil => rw [Record.place, List.map_nil, Ty.extentOfFields, Ty.extentOfList]
  | cons f fs ih => rw [Record.place, List.map_cons, Ty.extentOfFields,
    Ty.extentOfList, ih]

/-- Types with an extent have one side by side. -/
theorem exists_extentOfList {ts : List Ty}
    (h : ∀ t ∈ ts, ∃ n : Nat, t.extent = some (n : Int)) :
    ∃ n : Nat, Ty.extentOfList ts = some (n : Int) := by
  induction ts with
  | nil => exact ⟨0, by rw [Ty.extentOfList]; rfl⟩
  | cons t ts ih =>
      obtain ⟨m, hm⟩ := h t List.mem_cons_self
      obtain ⟨n, hn⟩ := ih fun u hu => h u (List.mem_cons_of_mem _ hu)
      exact ⟨m + n, by rw [Ty.extentOfList, hm, hn]; rfl⟩

/-- A type that can be written takes a number of words in memory. -/
theorem Formed.exists_extent (h : Formed t) :
    ∃ n : Nat, t.extent = some (n : Int) := by
  induction h with
  | unknown | felt | bool | ptr | fn => exact ⟨1, by rw [Ty.extent]; rfl⟩
  | u32 => exact ⟨2, by rw [Ty.extent]; rfl⟩
  | unit => exact ⟨0, by rw [Ty.extent]; rfl⟩
  | @array t n _ hn ih =>
      obtain ⟨k, hk⟩ := ih
      refine ⟨k * n.toInt.toNat, ?_⟩
      rw [Ty.extent, hk, Option.map_some, Nat.cast_mul, Int.toNat_of_nonneg hn]
  | tuple _ _ ih =>
      rw [Ty.extent]
      exact exists_extentOfList ih
  | struct _ _ _ ih =>
      rw [Ty.extent, extentOfFields_place]
      exact exists_extentOfList (List.forall_mem_map.mpr ih)

-- ================================================================ judgement

/-- The types that are recorded for values. -/
abbrev Types := Std.ExtTreeMap ValueId Ty

variable {T T' : Types} {d : ValueId} {ds : List ValueId}

/-- All recorded types have written forms. -/
def AllFormed (T : Types) : Prop := ∀ (v : ValueId) (t : Ty),
    T[v]? = some t → Formed t

/-- Run where the types `T` are recorded, the reader adds to them types with
written forms only, and its answer suits the types that are recorded then. -/
def Records (T : Types) (p : Read α) (R : Types → α → Prop) : Prop :=
  AllFormed T →
    ∀ (c : Context) (s : List UInt8) (a : α) (c' : Context) (s' : List UInt8),
    c.func.types = T → p c s = .ok ((a, c'), s') →
      AllFormed c'.func.types ∧ (∀ v ∈ T, v ∈ c'.func.types) ∧ R c'.func.types a

namespace Records

variable {p : Read α} {x : Scan α} {k : α → Read β} {P : Types → α → Prop}
  {R : Types → β → Prop} {a : α}

-- The judgement for what readers are made of.
theorem pure (h : P T a) : Records T (pure a) P := by
  intro hT c s b c' s' hc hb
  obtain ⟨rfl, rfl, rfl⟩ := read_pure_eq_ok.mp hb
  subst hc
  exact ⟨hT, fun _ hv => hv, h⟩

theorem fail (rest : List UInt8) (e : ReadError) :
    Records T (Read.failAt rest e : Read α) P :=
  fun _ _ _ _ _ _ _ h => by cases h

theorem bind (hp : Records T p P)
    (hk : ∀ a T', AllFormed T' → (∀ v ∈ T, v ∈ T') → P T' a →
    Records T' (k a) R) : Records T (p >>= k) R := by
  intro hT c s b c' s' hc hb
  obtain ⟨a, c₁, s₁, ha, hb⟩ := read_bind_eq_ok.mp hb
  obtain ⟨hT₁, hkeep, hP⟩ := hp hT c s a c₁ s₁ hc ha
  obtain ⟨hT', hkeep', hR⟩ := hk a _ hT₁ hkeep hP hT₁ c₁ s₁ b c' s' rfl hb
  exact ⟨hT', fun v hv => hkeep' v (hkeep v hv), hR⟩

/-- A step that leaves the types. -/
theorem quiet (hp : ∀ c s a c' s', p c s = .ok ((a, c'), s') →
      c'.func.types = c.func.types)
    (hk : ∀ a, Records T (k a) R) : Records T (p >>= k) R := by
  intro hT c s b c' s' hc hb
  obtain ⟨a, c₁, s₁, ha, hb⟩ := read_bind_eq_ok.mp hb
  exact hk a hT c₁ s₁ b c' s' ((hp c s a c₁ s₁ ha).trans hc) hb

theorem lift (hk : ∀ a s s', x s = .ok (a, s') → Records T (k a) R) :
    Records T (liftM x >>= k) R := by
  intro hT c s b c' s' hc hb
  obtain ⟨a, c₁, s₁, ha, hb⟩ := read_bind_eq_ok.mp hb
  obtain ⟨hx, rfl⟩ := lift_eq_ok.mp ha
  exact hk a s s₁ hx hT c s₁ b c' s' hc hb

theorem left {k : List UInt8 → Read β} (hk : ∀ s, Records T (k s) R) :
    Records T (Source.left >>= k) R :=
  quiet (fun _ _ _ _ _ h => by cases h; rfl) hk

theorem turns {k : Nat → Read β} (hk : ∀ n, Records T (k n) R) :
    Records T (Source.turns >>= k) R :=
  quiet (fun _ _ _ _ _ h => by cases h; rfl) hk

theorem setLeft {s : List UInt8} {k : Unit → Read β} (hk : Records T (k ()) R) :
    Records T (Source.setLeft s >>= k) R :=
  quiet (fun _ _ _ _ _ h => by cases h; rfl) fun _ => hk

/-- A look at the context shows the types. -/
theorem get {k : Context → Read β}
    (hk : ∀ c, c.func.types = T → Records T (k c) R) :
    Records T (MonadState.get >>= k) R :=
  fun hT c s b c' s' hc hb => hk c hc hT c s b c' s' hc hb

theorem set {c : Context} {k : PUnit → Read β} (hc : c.func.types = T)
    (hk : Records T (k ⟨⟩) R) : Records T (MonadStateOf.set c >>= k) R := by
  intro hT c₁ s b c' s' _ hb
  obtain ⟨u, c₂, s₂, ha, hb⟩ := read_bind_eq_ok.mp hb
  cases ha
  exact hk hT c s b c' s' hc hb

theorem inPart (h : Records T p P) (part : String) :
    Records T (Read.inPart part p) P :=
  fun hT c s a c' s' hc ha => h hT c s a c' s' hc (readInPart_eq_ok.mp ha)

/-- Writing a type for a value records it. -/
theorem annotate (ht : Formed t) {k : Unit → Read β}
    (hk : ∀ T', (∀ v ∈ T, v ∈ T') → d ∈ T' → Records T' (k ()) R) :
    Records T (Source.annotate d t >>= k) R := by
  intro hT c s b c' s' hc hb
  subst hc
  obtain ⟨u, c₁, s₁, ha, hb⟩ := read_bind_eq_ok.mp hb
  cases ha
  have htypes : (c.annotated d t).func.types = c.func.types.insert d t := by
    rw [Context.annotated, declare_eq _ _ ht.written.present]
  have hkeep : ∀ v ∈ c.func.types, v ∈ c.func.types.insert d t := fun v hv =>
    Std.ExtTreeMap.mem_insert.mpr (.inr hv)
  have hformed : AllFormed (c.func.types.insert d t) := by
    intro v u hu
    rw [Std.ExtTreeMap.getElem?_insert] at hu
    split at hu
    · cases hu
      exact ht
    · exact hT v u hu
  obtain ⟨hT', hkeep', hR⟩ :=
    hk _ hkeep Std.ExtTreeMap.mem_insert_self hformed (c.annotated d t)
    s b c' s' htypes hb
  exact ⟨hT', fun v hv => hkeep' v (hkeep v hv), hR⟩

/-- A comma before an item, unless it is the first. -/
theorem separated {first : Bool} {k : Unit → Read β} (hk : Records T (k ()) R) :
    Records T (if (!first) = true then liftM (token ",") >>= k
      else k ()) R := by
  split
  · exact lift fun _ _ _ _ => hk
  · exact hk

end Records

-- ================================================================= operands

/-- An operand is announced at most. -/
theorem operand_records (T : Types) : Records T operand fun _ _ => True := by
  intro hT c s v c' s' hc hv
  subst hc
  have htypes : c'.func.types = c.func.types := by
    obtain ⟨id, -, -, rfl⟩ | ⟨-, -, rfl⟩ := operand_spec hv
    · show (c.func.announce id).types = _
      rw [announce_frame]
    · rfl
  rw [htypes]
  exact ⟨hT, fun _ hv => hv, trivial⟩

-- Operands are announced, but no type is written for them.
theorem operandPair_records (T : Types) :
    Records T operandPair fun _ _ => True :=
  (operand_records T).bind fun _ T₁ _ _ _ => .lift fun _ _ _ _ =>
    (operand_records T₁).bind
    fun _ _ _ _ _ => .pure trivial

theorem moreOperands_records (fuel : Nat) (T : Types) (vs : List Operand) :
    Records T (moreOperands fuel vs) fun _ _ => True := by
  induction fuel generalizing T vs with
  | zero => exact .pure trivial
  | succ fuel ih =>
      rw [moreOperands]
      refine .left fun s => ?_
      split
      · exact .setLeft ((operand_records T).bind fun _ T₁ _ _ _ => ih T₁ _)
      · exact .pure trivial

theorem operandLine_records (T : Types) :
    Records T operandLine fun _ _ => True := by
  refine .left fun s => .setLeft ?_
  split
  · exact .pure trivial
  · exact (operand_records T).bind fun _ T₁ _ _ _ => .turns fun n =>
      moreOperands_records n T₁ _

/-- Items of which each suits the types once it is read, up to the closing
token. -/
theorem itemsUpTo_records {close : String} {item : Nat → Read α}
    {P : Types → α → Prop} (hmono : ∀ T T' a, (∀ v ∈ T, v ∈ T') → P T a →
      P T' a) (hitem : ∀ j T, Records T (item j) P)
    (fuel : Nat) (T : Types) {as : List α} (has : ∀ a ∈ as, P T a) :
    Records T (itemsUpTo close item fuel as) fun T' as => ∀ a ∈ as, P T' a := by
  induction fuel generalizing T as with
  | zero => exact .left fun _ => .fail _ _
  | succ fuel ih =>
      rw [itemsUpTo]
      refine .lift fun closed _ _ _ => ?_
      split
      · exact .pure has
      · refine .separated ((hitem _ T).bind fun a T₁ _ hkeep ha =>
          ih T₁ fun b hb => ?_)
        rcases List.mem_append.mp hb with hb | hb
        · exact hmono T T₁ b hkeep (has b hb)
        · obtain rfl := List.mem_singleton.mp hb
          exact ha

theorem phiSource_records (T : Types) : Records T phiSource fun _ _ => True :=
  .lift fun _ _ _ _ => .lift fun _ _ _ _ => .lift fun _ _ _ _ =>
    (operand_records T).bind
    fun _ _ _ _ _ => .lift fun _ _ _ _ => .pure trivial

theorem morePhiSources_records (fuel : Nat) (T : Types) (ss : List PhiSource) :
    Records T (morePhiSources fuel ss) fun _ _ => True := by
  induction fuel generalizing T ss with
  | zero => exact .pure trivial
  | succ fuel ih =>
      rw [morePhiSources]
      refine .lift fun closed _ _ _ => ?_
      split
      · exact (phiSource_records T).bind fun _ T₁ _ _ _ => ih T₁ _
      · exact .pure trivial

theorem fieldValues_records (fs : List TyField) (T : Types)
    (vs : List (String × Operand)) :
    Records T (fieldValues fs vs) fun _ _ => True := by
  induction fs generalizing T vs with
  | nil => exact .pure trivial
  | cons f fs ih =>
      rw [fieldValues]
      exact .separated (.lift fun _ _ _ _ => .lift fun _ _ _ _ =>
        (operand_records T).bind
        fun _ T₁ _ _ _ => ih T₁ _)

-- ============================================================= instructions

/-- There is an instruction, its destinations have types, and so does what it
allocates. -/
structure TypedInstr (T : Types) (i : Instr) : Prop where
  present : i ≠ .missing
  dest : ∀ d ∈ i.dests, d ∈ T
  alloc : ∀ r u, i = .frameAlloc r u → Formed u

/-- Types that are written later do not take those away that there are. -/
theorem TypedInstr.mono {i : Instr} (h : TypedInstr T i)
    (hkeep : ∀ v ∈ T, v ∈ T') :
    TypedInstr T' i := ⟨h.present, fun d hd => hkeep d (h.dest d hd), h.alloc⟩

/-- An instruction with one destination that allocates nothing. -/
theorem typed_of_dest {i : Instr} (hd : d ∈ T) (hi : i.dests = [d])
    (hne : ∀ r u, i ≠ .frameAlloc r u) : TypedInstr T i := by
  refine ⟨?_, fun e he => ?_, fun r u h => absurd h (hne r u)⟩
  · rintro rfl
    cases hi
  · rw [hi, List.mem_singleton] at he
    exact he ▸ hd

/-- A call has the destinations that were declared. -/
theorem callWith_records (hds : ∀ d ∈ ds, d ∈ T) :
    Records T (callWith ds) TypedInstr := by
  have hargs (j : Nat) (T : Types) :
      Records T (Read.inPart ("arg " ++ toString j) operand) fun _ _ => True :=
    (operand_records T).inPart _
  refine .left fun start => .lift fun _ _ _ _ => .lift fun _ _ _ _ =>
    .lift fun _ _ _ _ =>
    .turns fun n =>
      (itemsUpTo_records (fun _ _ _ _ _ => trivial) hargs n T (by simp)).bind
    fun args T₁ _ hkeep _ => .get fun c hc => .set hc (.pure
      ⟨nofun, fun d hd => hkeep d (hds d hd), nofun⟩)

/-- An operand and what is made of it. -/
theorem of_operand_records {f : Operand → Instr} (hd : d ∈ T)
    (hf : ∀ v, (f v).dests = [d]) (hne : ∀ v r u, f v ≠ .frameAlloc r u) :
    Records T (do return f (← operand)) TypedInstr :=
  (operand_records T).bind fun v _ _ hkeep _ =>
  .pure (typed_of_dest (hkeep d hd) (hf v) (hne v))

/-- An operation defines what was declared; an allocation makes a pointer to a
type that can be written. -/
theorem operation_records (op : String) (opened named : List UInt8) (hd : d ∈ T)
    (ht : ∀ u, t = .ptr u → Formed u) :
    Records T (operation op d t opened named) TypedInstr := by
  unfold operation
  split
  · exact of_operand_records hd (fun _ => rfl) nofun
  split
  · exact (operandPair_records T).bind fun _ _ _ hkeep _ =>
      .pure (typed_of_dest (hkeep d hd) rfl nofun)
  split
  · exact of_operand_records hd (fun _ => rfl) nofun
  · exact of_operand_records hd (fun _ => rfl) nofun
  · -- the one operation that allocates
    split
    · rename_i u
      refine .pure ⟨nofun, fun e he => List.mem_singleton.mp he ▸
        hd, fun r w h => ?_⟩
      cases h
      exact ht u rfl
    · exact .fail _ _
  · refine (operand_records T).bind fun v _ _ hkeep _ => ?_
    split
    · exact .pure (typed_of_dest (hkeep d hd) rfl nofun)
    · exact .fail _ _
  · exact (operandPair_records T).bind fun _ _ _ hkeep _ =>
      .pure (typed_of_dest (hkeep d hd) rfl nofun)
  · exact of_operand_records hd (fun _ => rfl) nofun
  · exact (phiSource_records T).bind fun _ T₁ _ hkeep _ => .turns fun n =>
      (morePhiSources_records n T₁ _).bind fun _ _ _ hkeep' _ =>
      .pure (typed_of_dest (hkeep' d (hkeep d hd)) rfl nofun)
  · split
    · exact (operandLine_records T).bind fun _ _ _ hkeep _ =>
        .pure (typed_of_dest (hkeep d hd) rfl nofun)
    · exact .fail _ _
  · exact (operand_records T).bind fun _ _ _ hkeep _ => .lift fun _ _ _ _ =>
      .pure (typed_of_dest (hkeep d hd) rfl nofun)
  · split
    · exact (operand_records T).bind fun _ _ _ hkeep _ => .lift fun _ _ _ _ =>
        .lift fun _ _ _ _ => of_operand_records (hkeep d hd)
          (fun _ => rfl) nofun
    · exact .fail _ _
  · split
    · exact (fieldValues_records _ T []).bind fun _ _ _ hkeep _ =>
        .pure (typed_of_dest (hkeep d hd) rfl nofun)
    · exact .fail _ _
  · exact (operand_records T).bind fun _ _ _ hkeep _ => .lift fun _ _ _ _ =>
      .lift fun _ _ _ _ => .pure (typed_of_dest (hkeep d hd) rfl nofun)
  · refine (operand_records T).bind fun _ _ _ hkeep _ => .lift fun _ _ _ _ =>
      .lift fun _ _ _ _ => ?_
    split
    · exact .lift fun _ _ _ _ =>
        of_operand_records (hkeep d hd) (fun _ => rfl) nofun
    · exact .fail _ _
  · split
    · refine (operandLine_records T).bind fun vs _ _ hkeep _ => ?_
      split
      · exact .pure (typed_of_dest (hkeep d hd) rfl nofun)
      · exact .fail _ _
    · exact .fail _ _
  · exact .fail _ _

/-- A definition defines what was declared before it. -/
theorem definition_records (hds : ∀ d ∈ ds, d ∈ T) :
    Records T (definition ds) TypedInstr := by
  intro hT
  suffices h : Records T (definition ds) TypedInstr from h hT
  refine .lift fun _ _ _ _ => .left fun opened => .lift fun op _ _ _ => ?_
  split
  · exact callWith_records hds
  · split
    · rename_i d
      have hd := hds d List.mem_cons_self
      refine .get fun c hc => .left fun named =>
        operation_records op _ _ hd fun u hu => ?_
      -- the type at hand is the recorded one
      rw [hc, Std.ExtTreeMap.getD_eq_getD_getElem?] at hu
      cases hrec : T[d]? with
      | none =>
          rw [hrec] at hu
          cases hu
      | some t =>
          rw [hrec, Option.getD_some] at hu
          subst hu
          cases hT d _ hrec with
          | ptr hformed => exact hformed
    · exact .fail _ _

/-- Destinations are declared as they are read. -/
theorem destinations_records (fuel : Nat) (hds : ∀ d ∈ ds, d ∈ T) :
    Records T (destinations fuel ds) fun T' ds => ∀ d ∈ ds, d ∈ T' := by
  induction fuel generalizing T ds with
  | zero => exact .pure hds
  | succ fuel ih =>
      refine .lift fun ⟨id, t⟩ s s' hread =>
        .annotate (typedValue_formed hread).2
        fun T₁ hkeep hid => .lift fun closed _ _ _ => ?_
      have hall : ∀ d ∈ ds ++ [id], d ∈ T₁ := by
        intro d hd
        rcases List.mem_append.mp hd with hd | hd
        · exact hkeep d (hds d hd)
        · exact List.mem_singleton.mp hd ▸ hid
      split
      · exact ih hall
      · exact .pure hall

-- ============================================================== statements

/-- What can follow a word that begins a statement defines nothing but results
of a call. -/
theorem behindFirst_records (start : List UInt8) (op : String) (T : Types) :
    Records T (behindFirst start op) fun T' st => ∀ i, st = .inl i →
      TypedInstr T' i := by
  have hnone {i : Instr} (hne : i ≠ .missing) (hi : i.dests = []) (T : Types) :
      TypedInstr T i :=
    ⟨hne, by simp [hi], fun r u h => by rw [h] at hi; cases hi⟩
  have hinr (t : Terminator) (T : Types) (i : Instr)
      (h : Sum.inr t = Sum.inl i) :
      TypedInstr T i := absurd h Sum.inr_ne_inl
  unfold behindFirst
  split
  · exact (operandPair_records T).bind fun _ T₁ _ _ _ => .pure fun i hi => by
      cases hi
      exact hnone (by simp) rfl T₁
  · exact .lift fun _ _ _ _ => (operandLine_records T).bind fun _ T₁ _ _ _ =>
      .pure fun i hi => by
      cases hi
      exact hnone (by simp) rfl T₁
  · refine .pure fun i hi => ?_
    cases hi
    exact hnone (by simp) rfl T
  · refine (callWith_records (by simp)).bind fun i T₁ _ _ hi =>
      .pure fun j hj => ?_
    cases hj
    exact hi
  · exact .lift fun _ _ _ _ => .pure (hinr _ _)
  · exact (operand_records T).bind fun _ _ _ _ _ =>
      .lift fun _ _ _ _ => .pure (hinr _ _)
  · refine .left fun named => .lift fun name _ _ _ => ?_
    unfold behindComparison
    split
    · exact .fail _ _
    · exact (operandPair_records T).bind fun _ _ _ _ _ =>
        .lift fun _ _ _ _ => .pure (hinr _ _)
  · exact (operandLine_records T).bind fun _ _ _ _ _ => .pure (hinr _ _)
  · exact .pure (hinr _ _)
  · exact .fail _ _

/-- Every instruction that is read is typed. -/
theorem statement_records (T : Types) :
    Records T statement fun T' st => ∀ i, st = .inl i → TypedInstr T' i := by
  rw [statement_eq]
  refine .left fun start => .lift fun _ _ _ _ => .left fun here => ?_
  split
  · refine .turns fun n => (destinations_records n (by simp)).bind
      fun ds T₁ _ _ hds =>
      .lift fun _ _ _ _ => (definition_records hds).bind fun i T₂ _ _ hi =>
        .pure fun j hj => ?_
    cases hj
    exact hi
  · exact .lift fun op _ _ _ => behindFirst_records start op T

/-- So are those of a block, -/
theorem statements_records (fuel : Nat) {is : List Instr}
    (his : ∀ i ∈ is, TypedInstr T i) :
    Records T (statements fuel is) fun T' x => ∀ i ∈ x.1, TypedInstr T' i := by
  induction fuel generalizing T is with
  | zero => exact .left fun _ => .fail _ _
  | succ fuel ih =>
      rw [statements]
      refine .left fun here =>
        (statement_records T).bind fun st T₁ _ hkeep hst => ?_
      have hold : ∀ i ∈ is, TypedInstr T₁ i := fun i hi => (his i hi).mono hkeep
      cases st with
      | inr t => exact .pure hold
      | inl i =>
          refine ih fun j hj => ?_
          rcases List.mem_append.mp hj with hj | hj
          · exact hold j hj
          · obtain rfl := List.mem_singleton.mp hj
            exact hst j rfl

/-- with its terminator, -/
theorem rawBlock_records (want : BlockId) (T : Types) :
    Records T (rawBlock want) fun T' b => ∀ i ∈ b.instrs, TypedInstr T' i := by
  refine .left fun start => .lift fun id _ _ _ => ?_
  split
  · exact .fail _ _
  · exact .lift fun _ _ _ _ => .lift fun _ _ _ _ =>
      (Records.inPart (.turns fun n =>
      statements_records n (by simp)) _).bind fun _ _ _ _ hx => .pure hx

/-- and those of all blocks. -/
theorem rawBlocks_records (fuel : Nat) {bs : List RawBlock}
    (hbs : ∀ b ∈ bs, ∀ i ∈ b.instrs, TypedInstr T i) :
    Records T (rawBlocks fuel bs) fun T' bs => ∀ b ∈ bs, ∀ i ∈ b.instrs,
      TypedInstr T' i := by
  induction fuel generalizing T bs with
  | zero => exact .left fun _ => .fail _ _
  | succ fuel ih =>
      rw [rawBlocks]
      refine .lift fun closed _ _ _ => ?_
      split
      · exact .pure hbs
      · refine (rawBlock_records _ T).bind fun b T₁ _ hkeep hb => ih fun d hd =>
          ?_
        rcases List.mem_append.mp hd with hd | hd
        · exact fun i hi => (hbs d hd i hi).mono hkeep
        · obtain rfl := List.mem_singleton.mp hd
          exact hb

-- =============================================================== functions

/-- A parameter is declared. -/
theorem param_records (j : Nat) (T : Types) :
    Records T (param j) fun T' v => v ∈ T' :=
  .lift fun ⟨_, _⟩ _ _ hread =>
    .annotate (typedValue_formed (inPart_eq_ok.mp hread)).2
    fun _ _ hid => .pure hid

/-- Results declare nothing. -/
theorem returnType_records (j : Nat) (T : Types) :
    Records T (liftM (inPart ("return " ++ toString j) type))
        fun _ _ => True := by
  intro hT c s a c' s' hc ha
  obtain ⟨-, rfl⟩ := lift_eq_ok.mp ha
  subst hc
  exact ⟨hT, fun _ hv => hv, trivial⟩

/-- No place of the block list is vacant, parameters and destinations have
types, and all types, those that are allocated included, have written forms. -/
structure Annotated (f : Func) : Prop where
  full : ∀ o ∈ f.blocks, o.isSome = true
  param : ∀ v ∈ f.params, v ∈ f.types
  formed : AllFormed f.types
  instr : ∀ i, f.HasInstr i → TypedInstr f.types i

variable {c c' : Context} {f : Func}

/-- What is filled in changes neither destinations nor allocations. -/
theorem TypedInstr.fillTypes {i : Instr} (h : TypedInstr T i) (g : Func) :
    TypedInstr T (fillTypes g i) := by
  unfold Source.fillTypes
  split
  · exact ⟨nofun, h.dest, nofun⟩
  · exact ⟨nofun, h.dest, nofun⟩
  · exact h

/-- Resolving a call changes no destination. -/
theorem TypedInstr.resolveCall {i : Instr} (h : TypedInstr T i)
    (callees : List (FuncId × Signature)) :
    TypedInstr T (resolveCall callees i) := by
  unfold Source.resolveCall
  split
  · exact ⟨nofun, h.dest, nofun⟩
  · exact h

/-- A function that was read keeps the types that its text writes. -/
theorem Made.annotated (m : Made c f c') : Annotated f := by
  obtain ⟨fuel, s, s', hparams⟩ := m.params_eq
  obtain ⟨hformed, -, hparam⟩ :=
    itemsUpTo_records (fun _ _ v hkeep hv => hkeep v hv) param_records
    fuel ∅ (by simp) (fun v t h => by simp at h) _ _ _ _ _ (by rfl) hparams
  obtain ⟨fuel, s, s', hreturns⟩ := m.returns_eq
  obtain ⟨hformed, hkeep, -⟩ :=
    itemsUpTo_records (fun _ _ _ _ _ => trivial) returnType_records
    fuel _ (by simp) hformed _ _ _ _ _ rfl hreturns
  obtain ⟨fuel, s, s', hblocks⟩ := m.blocks_eq
  obtain ⟨hformed, hkeep', hinstr⟩ := rawBlocks_records fuel
    (fun _ h => absurd h List.not_mem_nil) hformed m.opened _ _ _ _ rfl hblocks
  have htypes : f.types = m.afterBlocks.func.types := m.header.types
  have hheader : f.params = m.params := by
    rw [m.header.params, m.afterBlocks_func]
  refine ⟨fun o ho => ?_, fun v hv => ?_, htypes ▸ hformed, fun i hi => ?_⟩
  · rcases m.drawn.graph with hbare | hclosed
    · rw [hbare] at ho
      obtain rfl := List.mem_singleton.mp ho
      rfl
    · exact hclosed.full o ho
  · rw [hheader] at hv
    rw [htypes]
    exact hkeep' v (hkeep v (hparam v hv))
  · obtain ⟨r, hr, j, hj, rfl⟩ := m.instr_read hi
    rw [htypes]
    exact (hinstr r hr j hj).fillTypes _

/-- A function stays annotated when its calls are resolved. -/
theorem Annotated.resolved (h : Annotated f)
    (callees : List (FuncId × Signature)) : Annotated (resolved callees f) := by
  refine ⟨fun o ho => ?_, h.param, h.formed, fun i hi => ?_⟩
  · obtain ⟨o', ho', rfl⟩ := List.mem_map.mp ho
    rw [Option.isSome_map]
    exact h.full o' ho'
  · obtain ⟨j, hj, rfl⟩ := hasInstr_resolved hi
    exact (h.instr j hj).resolveCall callees

/-- The functions of a text have types for all that they define. -/
theorem readModule_annotated {input : List UInt8} {m : Module}
    (h : readModule input = .ok m) : ∀ f ∈ m.functions, Annotated f := by
  intro f hf
  obtain ⟨callees, c, g, c', ⟨made⟩, rfl⟩ := readModule_made h f hf
  exact made.annotated.resolved callees

end Source

end MirBackend
