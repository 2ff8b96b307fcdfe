/-
New values of a function that was read.

A text numbers its values itself, in any order. Each mention is announced to the
function, which moves the counter behind a number that it has not passed yet.
Readers keep the tally (`Tally`): the counter stands where the mentions so far
have led it, and what an answer mentions is what its reader has added, in the
order of the text (`Mentions`). So a function that was read has the counter that
its own mentions lead to, one after the other (`Counted`).

The largest number has none behind it, and the counter wraps around to the
smallest. If that is the end of the text, it goes on below all numbers that a
text can write. A mention further down leads it anywhere above itself, where
numbers may be taken.
-/
import MirBackend.Proofs.Source.Graphs

namespace MirBackend

-- ================================================================ mentions

namespace Operand

@[simp] theorem ids_nil : ids [] = [] := rfl

-- Ids of operands, collected along lists of operands.
@[simp] theorem ids_cons (v : Operand) (vs : List Operand) :
    ids (v :: vs) = v.id?.toList ++ ids vs := by
  rw [ids, ids, List.filterMap_cons]
  cases v.id? <;> rfl

@[simp] theorem ids_append (vs ws : List Operand) :
    ids (vs ++ ws) = ids vs ++ ids ws :=
  List.filterMap_append

theorem ids_singleton (v : Operand) : ids [v] = v.id?.toList := by
  rw [ids_cons, ids_nil, List.append_nil]

theorem ids_concat (vs : List Operand) (v : Operand) :
    ids (vs ++ [v]) = ids vs ++ v.id?.toList := by
  rw [ids_append, ids_singleton]

/-- Collecting ids one operand at a time. -/
theorem ids_eq_flatMap (vs : List Operand) :
    ids vs = vs.flatMap (·.id?.toList) :=
  List.filterMap_eq_flatMap_toList id? vs

end Operand

/-- The values an instruction mentions, as they are written: those it defines,
then those it reads. -/
def Instr.mentioned (i : Instr) : List ValueId := i.dests ++ i.uses

/-- The values a block mentions, as they are written. -/
def Block.mentioned (b : Block) : List ValueId :=
  b.instrs.flatMap Instr.mentioned ++ usesOf b.term

namespace Func

/-- The values a function mentions, as they are written: its parameters, then
what its blocks define and read. -/
def mentioned (f : Func) : List ValueId :=
  f.params ++ f.blocks.flatMap fun o => o.elim [] Block.mentioned

/-- Take a new value, with a type if one is given. -/
def draw (f : Func) : Option Ty → ValueId × Func
  | none => f.newValue
  | some t => f.newTyped t

/-- Take new values, one after the other. -/
def drawAll (f : Func) : List (Option Ty) → List ValueId
  | [] => []
  | t :: ts => (f.draw t).1 :: (f.draw t).2.drawAll ts

/-- A value that is drawn is the counter, -/
theorem fst_draw (f : Func) (t : Option Ty) :
    (f.draw t).1 = f.nextValue := by cases t <;> rfl

/-- and the counter moves on by one, whether it wraps or not. -/
theorem nextValue_draw (f : Func) (t : Option Ty) :
    (f.draw t).2.nextValue = f.nextValue + 1 := by
  cases t <;> rfl

/-- New values are counted up from where the counter stands. -/
theorem drawAll_eq (f : Func) (ts : List (Option Ty)) :
    f.drawAll ts = (List.range ts.length).map fun k =>
      f.nextValue + Int64.ofNat k := by
  induction ts generalizing f with
  | nil => rfl
  | cons t ts ih =>
      rw [drawAll, ih, fst_draw, nextValue_draw, List.length_cons,
        List.range_succ_eq_map, List.map_cons, List.map_map]
      congr 1
      · simp
      · refine List.map_congr_left fun k _ => ?_
        rw [Function.comp_apply, Nat.succ_eq_add_one,
          Int64.ofNat_add, Int64.add_assoc, Int64.add_comm 1]
        rfl

end Func

namespace Source

variable {α β : Type} {n v d : ValueId} {ds vs : List ValueId}

-- ================================================================= counter

/-- Counting on from a number wraps around behind the largest. -/
theorem toInt_add_ofNat (n : ValueId) {k : Nat} (hk : k < 2 ^ 63) :
    (n + Int64.ofNat k).toInt =
    if n.toInt + k < 2 ^ 63 then n.toInt + k else n.toInt + k - 2 ^ 64 := by
  have hlow := n.le_toInt
  have hhigh := n.toInt_lt
  rw [Int64.toInt_add, Int64.toInt_ofNat_of_lt hk, Int.bmod_def]
  split <;> split <;> omega

/-- Where the counter stands behind a value that is announced. -/
def passing (n v : ValueId) : ValueId := if n ≤ v then v + 1 else n

/-- Announcing an id moves the counter past it. -/
theorem nextValue_announce (f : Func) (v : ValueId) :
    (f.announce v).nextValue = passing f.nextValue v := by
  unfold Func.announce passing
  split <;> rfl

/-- The counter stands above the values. -/
def Above (n : ValueId) (vs : List ValueId) : Prop :=
  ∀ v ∈ vs, v.toInt < n.toInt

/-- A value that has a number behind it leaves the counter above. -/
theorem Above.passing (h : Above n vs) (hmax : v ≠ Int64.maxValue) :
    Above (passing n v) (vs ++ [v]) := by
  have hlt : v.toInt < 2 ^ 63 - 1 :=
    lt_of_le_of_ne (Int.le_sub_one_of_lt v.toInt_lt) fun heq =>
      hmax (Int64.toInt_inj.mp heq)
  have hbehind : (v + 1).toInt = v.toInt + 1 := by
    rw [show v + 1 = v + Int64.ofNat 1 from rfl, toInt_add_ofNat v (by decide),
      if_pos (by omega)]
    rfl
  have hmoved : n.toInt ≤ (Source.passing n v).toInt
      ∧ v.toInt < (Source.passing n v).toInt := by
    unfold Source.passing
    split
    · rename_i hle
      rw [Int64.le_iff_toInt_le] at hle
      omega
    · rename_i hle
      rw [Int64.le_iff_toInt_le] at hle
      omega
  intro w hw
  rcases List.mem_append.mp hw with hw | hw
  · exact (h w hw).trans_le hmoved.1
  · exact List.mem_singleton.mp hw ▸ hmoved.2

/-- The counter has stayed above values that all have a number behind them. -/
theorem above_foldl (hmax : Int64.maxValue ∉ vs) :
    Above (vs.foldl passing 0) vs := by
  induction vs using List.reverseRecOn with
  | nil => exact fun v hv => absurd hv List.not_mem_nil
  | append_singleton vs v ih =>
      rw [List.mem_append, List.mem_singleton, not_or] at hmax
      rw [List.foldl_append]
      exact (ih hmax.1).passing (Ne.symm hmax.2)

/-- Counting on from above the values meets none of them, even where it wraps
around: values are not negative. -/
theorem Above.add_notMem (h : Above n vs)
    (hid : ∀ v ∈ vs, IsValueId v) {k : Nat} (hk : k < 2 ^ 62) :
    n + Int64.ofNat k ∉ vs := by
  intro hmem
  have hnonneg : 0 ≤ (n + Int64.ofNat k).toInt := hid _ hmem
  have hbelow := h _ hmem
  have hhigh := n.toInt_lt
  rw [toInt_add_ofNat n (by omega)] at hnonneg hbelow
  split at hbelow <;> omega

/-- Behind the largest number the counter goes on below all values. -/
theorem minValue_add_notMem (hid : ∀ v ∈ vs, IsValueId v) {k : Nat}
    (hk : k < 2 ^ 62) : Int64.minValue + Int64.ofNat k ∉ vs := by
  intro hmem
  have hnonneg : 0 ≤ (Int64.minValue + Int64.ofNat k).toInt := hid _ hmem
  rw [toInt_add_ofNat _ (by omega), Int64.toInt_minValue] at hnonneg
  split at hnonneg <;> omega

/-- The values behind the counter are new, unless the largest number was
mentioned and another one last. -/
theorem foldl_passing_add_notMem (hid : ∀ v ∈ vs, IsValueId v)
    (hlast : Int64.maxValue ∈ vs → vs.getLast? = some Int64.maxValue) {k : Nat}
    (hk : k < 2 ^ 62) : vs.foldl passing 0 + Int64.ofNat k ∉ vs := by
  by_cases hmax : Int64.maxValue ∈ vs
  · -- whatever the counter was before the last value, it wraps around
    obtain ⟨us, rfl⟩ := List.getLast?_eq_some_iff.mp (hlast hmax)
    have hwrap : passing (us.foldl passing 0) Int64.maxValue
        = Int64.minValue := by
      rw [passing, if_pos (Int64.le_maxValue _)]
      rfl
    rw [List.foldl_append, List.foldl_cons, List.foldl_nil, hwrap]
    exact minValue_add_notMem hid hk
  · exact (above_foldl hmax).add_notMem hid hk

-- ================================================================ judgement

/-- The values are written ones, and the counter stands where they have led
it. -/
structure Tally (n : ValueId) (vs : List ValueId) : Prop where
  written : ∀ v ∈ vs, IsValueId v
  counter : n = vs.foldl passing 0

/-- An id that was mentioned is one more to be past. -/
theorem Tally.announce {f : Func} (h : Tally f.nextValue vs)
    (hv : IsValueId v) : Tally (f.announce v).nextValue (vs ++ [v]) := by
  refine ⟨fun w hw => ?_, ?_⟩
  · rcases List.mem_append.mp hw with hw | hw
    · exact h.written w hw
    · exact List.mem_singleton.mp hw ▸ hv
  · rw [nextValue_announce, List.foldl_append, ← h.counter]
    rfl

/-- Run where the values `G` have been mentioned, the reader adds to them what
its answer mentions, and nothing else. -/
def Mentions (G : List ValueId) (p : Read α) (R : α → List ValueId) : Prop :=
  ∀ (c : Context) (s : List UInt8) (a : α) (c' : Context) (s' : List UInt8),
    Tally c.func.nextValue G → p c s = .ok ((a, c'), s') →
      Tally c'.func.nextValue (R a)

namespace Mentions

variable {G : List ValueId} {p : Read α} {x : Scan α} {k : α → Read β}
  {P : α → List ValueId} {R : β → List ValueId} {a : α}

-- The judgement for what readers are made of.
theorem pure (h : P a = G) : Mentions G (pure a) P := by
  intro c s b c' s' hG hb
  obtain ⟨rfl, rfl, rfl⟩ := read_pure_eq_ok.mp hb
  exact h ▸ hG

/-- Nothing stands before what a loop adds. -/
theorem start (h : Mentions (G ++ []) p P) : Mentions G p P :=
  List.append_nil G ▸ h

theorem fail (rest : List UInt8) (e : ReadError) :
    Mentions G (Read.failAt rest e : Read α) P :=
  fun _ _ _ _ _ _ h => by cases h

theorem bind (hp : Mentions G p P) (hk : ∀ a, Mentions (P a) (k a) R) :
    Mentions G (p >>= k) R := by
  intro c s b c' s' hG hb
  obtain ⟨a, c₁, s₁, ha, hb⟩ := read_bind_eq_ok.mp hb
  exact hk a c₁ s₁ b c' s' (hp c s a c₁ s₁ hG ha) hb

/-- A step that leaves the counter. -/
theorem quiet (hp : ∀ c s a c' s', p c s = .ok ((a, c'), s') →
      c'.func.nextValue = c.func.nextValue)
    (hk : ∀ a, Mentions G (k a) R) : Mentions G (p >>= k) R :=
  bind (P := fun _ => G) (fun c s a c' s' hG ha => hp c s a c' s' ha ▸ hG) hk

theorem lift (hk : ∀ a s s', x s = .ok (a, s') → Mentions G (k a) R) :
    Mentions G (liftM x >>= k) R := by
  intro c s b c' s' hG hb
  obtain ⟨a, c₁, s₁, ha, hb⟩ := read_bind_eq_ok.mp hb
  obtain ⟨hx, rfl⟩ := lift_eq_ok.mp ha
  exact hk a s s₁ hx c s₁ b c' s' hG hb

theorem left {k : List UInt8 → Read β} (hk : ∀ s, Mentions G (k s) R) :
    Mentions G (Source.left >>= k) R :=
  quiet (fun _ _ _ _ _ h => by cases h; rfl) hk

theorem turns {k : Nat → Read β} (hk : ∀ n, Mentions G (k n) R) :
    Mentions G (Source.turns >>= k) R :=
  quiet (fun _ _ _ _ _ h => by cases h; rfl) hk

theorem setLeft {s : List UInt8} {k : Unit → Read β}
    (hk : Mentions G (k ()) R) : Mentions G (Source.setLeft s >>= k) R :=
  quiet (fun _ _ _ _ _ h => by cases h; rfl) fun _ => hk

/-- A look at the context shows the counter. -/
theorem get {k : Context → Read β}
    (hk : ∀ c, Tally c.func.nextValue G → Mentions G (k c) R) :
    Mentions G (MonadState.get >>= k) R :=
  fun c s b c' s' hG hb => hk c hG c s b c' s' hG hb

theorem set {c : Context} {k : PUnit → Read β} (hc : Tally c.func.nextValue G)
    (hk : Mentions G (k ⟨⟩) R) : Mentions G (MonadStateOf.set c >>= k) R :=
  bind (P := fun _ => G) (fun _ _ _ _ _ _ h => by cases h; exact hc) fun _ => hk

theorem inPart (h : Mentions G p P) (part : String) :
    Mentions G (Read.inPart part p) P :=
  fun c s a c' s' hG ha => h c s a c' s' hG (readInPart_eq_ok.mp ha)

/-- Writing a type for a value mentions it. -/
theorem annotate {t : Ty} (hd : IsValueId d) {k : Unit → Read β}
    (hk : Mentions (G ++ [d]) (k ()) R) :
    Mentions G (Source.annotate d t >>= k) R := by
  refine bind (P := fun _ => G ++ [d]) (fun c s a c' s' hG ha => ?_) fun _ => hk
  cases ha
  have hcounter : (c.func.declare d t).nextValue
      = (c.func.announce d).nextValue := by
    unfold Func.declare
    split <;> rfl
  exact hcounter ▸ hG.announce hd

/-- A comma before an item, unless it is the first. -/
theorem separated {first : Bool} {k : Unit → Read β}
    (hk : Mentions G (k ()) R) :
    Mentions G (if (!first) = true then liftM (token ",") >>= k
      else k ()) R := by
  split
  · exact lift fun _ _ _ _ => hk
  · exact hk

end Mentions

variable {G : List ValueId}

-- ================================================================= operands

/-- An operand mentions its id, if it has one. -/
theorem operand_mentions (G : List ValueId) :
    Mentions G operand fun v => G ++ v.id?.toList := by
  intro c s v c' s' hG hv
  obtain ⟨id, rfl, hid, rfl⟩ | ⟨-, hnone, rfl⟩ := operand_spec hv
  · exact hG.announce hid
  · show Tally _ (G ++ v.id?.toList)
    rw [hnone, Option.toList_none, List.append_nil]
    exact hG

/-- A pair mentions the ids of both operands, in order. -/
theorem operandPair_mentions (G : List ValueId) :
    Mentions G operandPair fun (l, r) => G ++ Operand.ids [l, r] :=
  (operand_mentions G).bind fun l => .lift fun _ _ _ _ =>
  (operand_mentions _).bind fun r =>
    .pure (by simp)

/-- A list of operands mentions those read before and those read now. -/
theorem moreOperands_mentions (fuel : Nat) (G : List ValueId)
    (vs : List Operand) :
    Mentions (G ++ Operand.ids vs)
      (moreOperands fuel vs) fun vs => G ++ Operand.ids vs := by
  induction fuel generalizing vs with
  | zero => exact .pure rfl
  | succ fuel ih =>
      rw [moreOperands]
      refine .left fun s => ?_
      split
      · refine .setLeft ((operand_mentions _).bind fun v => ?_)
        have h := ih (vs ++ [v])
        rwa [Operand.ids_concat, ← List.append_assoc] at h
      · exact .pure rfl

/-- A line of operands mentions all of them. -/
theorem operandLine_mentions (G : List ValueId) :
    Mentions G operandLine fun vs => G ++ Operand.ids vs := by
  refine .left fun s => .setLeft ?_
  split
  · exact .pure (List.append_nil G)
  · refine (operand_mentions G).bind fun v => .turns fun n => ?_
    have h := moreOperands_mentions n G [v]
    rwa [Operand.ids_singleton] at h

/-- Items that mention something each, up to the closing token. -/
theorem itemsUpTo_mentions {close : String} {item : Nat → Read α}
    {of : α → List ValueId}
    (hitem : ∀ j G, Mentions G (item j) fun a => G ++ of a) (fuel : Nat)
    (G : List ValueId) (as : List α) :
    Mentions (G ++ as.flatMap of) (itemsUpTo close item fuel as)
      fun as => G ++ as.flatMap of := by
  induction fuel generalizing as with
  | zero => exact .left fun _ => .fail _ _
  | succ fuel ih =>
      rw [itemsUpTo]
      refine .lift fun closed _ _ _ => ?_
      split
      · exact .pure rfl
      · refine .separated ((hitem _ _).bind fun a => ?_)
        have h := ih (as ++ [a])
        rwa [List.flatMap_append, List.flatMap_singleton,
          ← List.append_assoc] at h

/-- The source of a phi mentions its value. -/
theorem phiSource_mentions (G : List ValueId) :
    Mentions G phiSource fun s => G ++ s.value.id?.toList :=
  .lift fun _ _ _ _ => .lift fun _ _ _ _ => .lift fun _ _ _ _ =>
    (operand_mentions G).bind
    fun _ => .lift fun _ _ _ _ => .pure rfl

/-- Sources mention those read before and those read now. -/
theorem morePhiSources_mentions (fuel : Nat) (G : List ValueId)
    (ss : List PhiSource) :
    Mentions (G ++ Operand.ids (ss.map (·.value))) (morePhiSources fuel ss)
      fun ss => G ++ Operand.ids (ss.map (·.value)) := by
  induction fuel generalizing ss with
  | zero => exact .pure rfl
  | succ fuel ih =>
      rw [morePhiSources]
      refine .lift fun closed _ _ _ => ?_
      split
      · refine (phiSource_mentions _).bind fun s => ?_
        have h := ih (ss ++ [s])
        rwa [List.map_append, List.map_singleton, Operand.ids_concat,
          ← List.append_assoc] at h
      · exact .pure rfl

/-- The fields of a struct mention their values. -/
theorem fieldValues_mentions (fs : List TyField) (G : List ValueId)
    (vs : List (String × Operand)) :
    Mentions (G ++ Operand.ids (vs.map (·.2))) (fieldValues fs vs)
      fun vs => G ++ Operand.ids (vs.map (·.2)) := by
  induction fs generalizing vs with
  | nil => exact .pure rfl
  | cons f fs ih =>
      rw [fieldValues]
      refine .separated (.lift fun name _ _ _ => .lift fun _ _ _ _ =>
        (operand_mentions _).bind fun v => ?_)
      have h := ih (vs ++ [(name, v)])
      rwa [List.map_append, List.map_singleton, Operand.ids_concat,
        ← List.append_assoc] at h

-- ============================================================= instructions

/-- The answer is an instruction that defines and reads what was mentioned. -/
theorem Mentions.instr {H : List ValueId} {i : Instr}
    (h : G ++ (i.dests ++ Operand.ids i.operands) = H) :
    Mentions H (Pure.pure i) fun i => G ++ i.mentioned := .pure h

/-- A call mentions its destinations and its arguments. -/
theorem callWith_mentions (G ds : List ValueId) :
    Mentions (G ++ ds) (callWith ds) fun i => G ++ i.mentioned := by
  refine .left fun start => .lift fun _ _ _ _ => .lift fun _ _ _ _ =>
    .lift fun _ _ _ _ =>
    .turns fun n => (Mentions.start (itemsUpTo_mentions (fun j G =>
      (operand_mentions G).inPart ("arg " ++ toString j)) n _ [])).bind
      fun args =>
    .get fun c hc => .set hc (.instr ?_)
  rw [Instr.dests, Instr.operands, Operand.ids_eq_flatMap, List.append_assoc]

/-- An operand and what is made of it. -/
theorem of_operand_mentions {f : Operand → Instr} {H : List ValueId}
    (hf : ∀ v, G ++ ((f v).dests ++ Operand.ids (f v).operands)
      = H ++ v.id?.toList) :
    Mentions H (do return f (← operand)) fun i => G ++ i.mentioned :=
  (operand_mentions H).bind fun v => .instr (hf v)

/-- An operation mentions its destination and its operands, in the order in
which they are written. -/
theorem operation_mentions (op : String) (t : Ty) (opened named : List UInt8)
    (G : List ValueId) (d : ValueId) :
    Mentions (G ++ [d]) (operation op d t opened named) fun i => G
        ++ i.mentioned := by
  have hone (f : Operand → Instr) (hf : ∀ v, (f v).dests = [d]
      ∧ (f v).operands = [v]) :
      Mentions (G ++ [d]) (do return f (← operand)) fun i => G ++ i.mentioned :=
    of_operand_mentions fun v => by simp [hf]
  have htwo (f : Operand → Operand → Instr)
      (hf : ∀ l r, (f l r).dests = [d] ∧ (f l r).operands = [l, r]) :
      Mentions (G ++ [d]) (do let (l, r) ← operandPair; return f l r) fun i =>
        G ++ i.mentioned :=
    (operandPair_mentions _).bind fun (l, r) => .instr (by simp [hf])
  unfold operation
  split
  · exact hone _ fun _ => ⟨rfl, rfl⟩
  split
  · exact htwo _ fun _ _ => ⟨rfl, rfl⟩
  split
  · exact hone _ fun _ => ⟨rfl, rfl⟩
  · exact hone _ fun _ => ⟨rfl, rfl⟩
  · split
    · exact .instr (by simp [Instr.dests, Instr.operands])
    · exact .fail _ _
  · refine (operand_mentions _).bind fun v => ?_
    split
    · exact .instr (by simp [Instr.dests, Instr.operands])
    · exact .fail _ _
  · exact htwo _ fun _ _ => ⟨rfl, rfl⟩
  · exact hone _ fun _ => ⟨rfl, rfl⟩
  · refine (phiSource_mentions _).bind fun s => .turns fun n => ?_
    have h := morePhiSources_mentions n (G ++ [d]) [s]
    rw [List.map_singleton, Operand.ids_singleton] at h
    exact h.bind fun ss => .instr (by simp [Instr.dests, Instr.operands])
  · split
    · exact (operandLine_mentions _).bind fun vs =>
        .instr (by simp [Instr.dests, Instr.operands])
    · exact .fail _ _
  · exact (operand_mentions _).bind fun v => .lift fun _ _ _ _ =>
      .instr (by simp [Instr.dests, Instr.operands])
  · split
    · exact (operand_mentions _).bind fun v => .lift fun _ _ _ _ =>
        .lift fun _ _ _ _ =>
        of_operand_mentions fun w => by simp [Instr.dests, Instr.operands]
    · exact .fail _ _
  · split
    · exact (Mentions.start (fieldValues_mentions _ _ [])).bind fun vs =>
        .instr (by simp [Instr.dests, Instr.operands])
    · exact .fail _ _
  · exact (operand_mentions _).bind fun v => .lift fun _ _ _ _ =>
      .lift fun _ _ _ _ =>
      .instr (by simp [Instr.dests, Instr.operands])
  · refine (operand_mentions _).bind fun v => .lift fun _ _ _ _ =>
      .lift fun _ _ _ _ => ?_
    split
    · exact .lift fun _ _ _ _ => of_operand_mentions fun w => by
        simp [Instr.dests, Instr.operands]
    · exact .fail _ _
  · split
    · refine (operandLine_mentions _).bind fun vs => ?_
      split
      · exact .instr (by simp [Instr.dests, Instr.operands])
      · exact .fail _ _
    · exact .fail _ _
  · exact .fail _ _

/-- A definition mentions its destinations first. -/
theorem definition_mentions (G ds : List ValueId) :
    Mentions (G ++ ds) (definition ds) fun i => G ++ i.mentioned := by
  refine .lift fun _ _ _ _ => .left fun opened => .lift fun op _ _ _ => ?_
  split
  · exact callWith_mentions G ds
  · split
    · rename_i d
      exact .get fun c _ => .left fun named => operation_mentions op _ _ _ G d
    · exact .fail _ _

/-- Destinations are mentioned as they are declared. -/
theorem destinations_mentions (fuel : Nat) (G ds : List ValueId) :
    Mentions (G ++ ds) (destinations fuel ds) fun ds => G ++ ds := by
  induction fuel generalizing ds with
  | zero => exact .pure rfl
  | succ fuel ih =>
      refine .lift fun ⟨id, t⟩ s s' hread =>
        .annotate (typedValue_formed hread).1
        (.lift fun closed _ _ _ => ?_)
      rw [List.append_assoc]
      split
      · exact ih (ds ++ [id])
      · exact .pure rfl

-- ============================================================== statements

/-- What a statement mentions: an instruction or a terminator. -/
def mentionedBy : Instr ⊕ Terminator → List ValueId
  | .inl i => i.mentioned
  | .inr t => t.uses

/-- Statements that define nothing mention their operands. -/
theorem behindFirst_mentions (start : List UInt8) (op : String)
    (G : List ValueId) :
    Mentions G (behindFirst start op) fun st => G ++ mentionedBy st := by
  unfold behindFirst
  split
  · exact (operandPair_mentions G).bind fun (a, v) => .pure rfl
  · exact .lift fun m _ _ _ => (operandLine_mentions G).bind fun vs => .pure rfl
  · exact .pure (List.append_nil G)
  · exact (Mentions.start (callWith_mentions G [])).bind fun i => .pure rfl
  · exact .lift fun b _ _ _ => .pure (List.append_nil G)
  · exact (operand_mentions G).bind fun v => .lift fun _ _ _ _ =>
      .pure (by simp [mentionedBy, Terminator.uses, Terminator.operands])
  · refine .left fun named => .lift fun name _ _ _ => ?_
    unfold behindComparison
    split
    · exact .fail _ _
    · exact (operandPair_mentions G).bind fun (l, r) =>
        .lift fun _ _ _ _ => .pure rfl
  · exact (operandLine_mentions G).bind fun vs => .pure rfl
  · exact .pure (List.append_nil G)
  · exact .fail _ _

/-- A statement mentions what it defines and what it uses. -/
theorem statement_mentions (G : List ValueId) :
    Mentions G statement fun st => G ++ mentionedBy st := by
  rw [statement_eq]
  refine .left fun start => .lift fun _ _ _ _ => .left fun here => ?_
  split
  · exact .turns fun n =>
      (Mentions.start (destinations_mentions n G [])).bind fun ds =>
      .lift fun _ _ _ _ => (definition_mentions G ds).bind fun i => .pure rfl
  · exact .lift fun op _ _ _ => behindFirst_mentions start op G

/-- Statements mention what each of them does, and the terminator comes last. -/
theorem statements_mentions (fuel : Nat) (G : List ValueId) (is : List Instr) :
    Mentions (G ++ is.flatMap Instr.mentioned) (statements fuel is)
      fun x => G ++ (x.1.flatMap Instr.mentioned ++ x.2.1.uses) := by
  induction fuel generalizing is with
  | zero => exact .left fun _ => .fail _ _
  | succ fuel ih =>
      rw [statements]
      refine .left fun here => (statement_mentions _).bind fun st => ?_
      cases st with
      | inr t => exact .pure (List.append_assoc ..).symm
      | inl i =>
          have h := ih (is ++ [i])
          rwa [List.flatMap_append, List.flatMap_singleton,
            ← List.append_assoc] at h

/-- What a block mentions that was read. -/
def RawBlock.mentioned (b : RawBlock) : List ValueId :=
  b.instrs.flatMap Instr.mentioned ++ b.term.uses

/-- A block mentions what its statements do. -/
theorem rawBlock_mentions (want : BlockId) (G : List ValueId) :
    Mentions G (rawBlock want) fun b => G ++ b.mentioned := by
  refine .left fun start => .lift fun id _ _ _ => ?_
  split
  · exact .fail _ _
  · exact .lift fun _ _ _ _ => .lift fun _ _ _ _ =>
      (Mentions.inPart (.turns fun n =>
      .start (statements_mentions n G [])) _).bind fun x => .pure rfl

/-- Blocks mention what each of them does. -/
theorem rawBlocks_mentions (fuel : Nat) (G : List ValueId)
    (bs : List RawBlock) :
    Mentions (G ++ bs.flatMap RawBlock.mentioned) (rawBlocks fuel bs)
      fun bs => G ++ bs.flatMap RawBlock.mentioned := by
  induction fuel generalizing bs with
  | zero => exact .left fun _ => .fail _ _
  | succ fuel ih =>
      rw [rawBlocks]
      refine .lift fun closed _ _ _ => ?_
      split
      · exact .pure rfl
      · refine (rawBlock_mentions _ _).bind fun b => ?_
        have h := ih (bs ++ [b])
        rwa [List.flatMap_append, List.flatMap_singleton,
          ← List.append_assoc] at h

-- =============================================================== functions

/-- A parameter is mentioned. -/
theorem param_mentions (j : Nat) (G : List ValueId) :
    Mentions G (param j) fun v => G ++ [v] :=
  .lift fun ⟨_, _⟩ _ _ hread =>
    .annotate (typedValue_formed (inPart_eq_ok.mp hread)).1 (.pure rfl)

/-- The type of a result mentions no value. -/
theorem returnType_mentions (j : Nat) (G : List ValueId) :
    Mentions G (liftM (inPart ("return " ++ toString j) type))
        fun _ => G ++ [] := by
  intro c s a c' s' hG ha
  obtain ⟨-, rfl⟩ := lift_eq_ok.mp ha
  rwa [List.append_nil]

variable {c c' : Context} {f : Func}

/-- The counter stands where the function's own mentions lead it. -/
def Counted (f : Func) : Prop := Tally f.nextValue f.mentioned

/-- What is filled in are types. -/
theorem mentioned_fillTypes (f : Func) (i : Instr) :
    (fillTypes f i).mentioned = i.mentioned := by
  unfold fillTypes
  split <;> rfl

/-- Resolving a call changes no operand. -/
theorem mentioned_resolveCall
    (callees : List (FuncId × Signature)) (i : Instr) :
    (resolveCall callees i).mentioned = i.mentioned := by
  unfold resolveCall
  split <;> rfl

/-- Changed instructions mention what they did, and so does the function. -/
theorem mentioned_mapBlocks {g : Instr → Instr}
    (hg : ∀ i, (g i).mentioned = i.mentioned) (f : Func) :
    (f.mapBlocks fun b => { b with instrs := b.instrs.map g }).mentioned
      = f.mentioned := by
  show f.params ++ (f.blocks.map _).flatMap _ = f.params ++ _
  rw [List.flatMap_map]
  congr 2
  funext o
  cases o with
  | none => rfl
  | some b =>
      show (b.instrs.map g).flatMap Instr.mentioned ++ _
        = b.instrs.flatMap Instr.mentioned ++ _
      rw [List.flatMap_map]
      simp only [hg]

/-- What is mentioned can be told from the outline. -/
theorem mentioned_outline (f : Func) :
    f.mentioned = f.params ++ (outline f).flatMap fun o =>
    o.elim [] fun x => x.2.1.flatMap Instr.mentioned ++ usesOf x.2.2 := by
  rw [Func.mentioned, outline, List.flatMap_map]
  congr 2
  funext o
  cases o <;> rfl

/-- A function mentions what was read for it. -/
theorem Made.mentioned (m : Made c f c') :
    f.mentioned = m.params ++ m.raw.flatMap RawBlock.mentioned := by
  have hparams : f.params = m.params := by
    rw [m.header.params, m.afterBlocks_func]
  by_cases hraw : m.raw = []
  · rw [Func.mentioned, m.blocks_of_nil hraw, hparams, hraw]
    rfl
  · have hlinked : f.mentioned = m.linked.mentioned :=
      (congrArg Func.mentioned m.func_eq).trans
      (mentioned_mapBlocks (mentioned_fillTypes _) _)
    have hsame : f.params = m.linked.params :=
      (congrArg Func.params m.func_eq).trans rfl
    rw [hlinked, mentioned_outline, (m.linked_spec hraw).1,
      List.flatMap_map, ← hsame, hparams]
    rfl

/-- The counter of a function that was read is past all that it mentions. -/
theorem Made.counted (m : Made c f c') : Counted f := by
  obtain ⟨fuel, s, s', hparams⟩ := m.params_eq
  have hopen : Tally (c.edit fun _ => Func.named m.name).func.nextValue [] :=
    ⟨fun v hv => absurd hv List.not_mem_nil, rfl⟩
  have hhead : Tally m.afterParams.func.nextValue m.params := by
    have h := Mentions.start (itemsUpTo_mentions param_mentions fuel [] [])
      _ _ _ _ _ hopen hparams
    rwa [List.nil_append, List.flatMap_singleton'] at h
  obtain ⟨fuel, s, s', hreturns⟩ := m.returns_eq
  have hsigned : Tally m.opened.func.nextValue m.params := by
    have h :=
      Mentions.start (itemsUpTo_mentions returnType_mentions fuel m.params [])
        _ _ _ _ _
      hhead hreturns
    rwa [List.flatMap_eq_nil_iff.mpr fun _ _ => rfl, List.append_nil] at h
  obtain ⟨fuel, s, s', hblocks⟩ := m.blocks_eq
  have hread := Mentions.start (rawBlocks_mentions fuel m.params [])
    _ _ _ _ _ hsigned hblocks
  have hcounter : f.nextValue = m.afterBlocks.func.nextValue :=
    m.header.nextValue
  rw [Counted, hcounter, m.mentioned]
  exact hread

/-- It stays so when calls are resolved. -/
theorem Counted.resolved (h : Counted f) (callees : List (FuncId × Signature)) :
    Counted (resolved callees f) := by
  rw [Counted, Source.resolved,
    mentioned_mapBlocks (mentioned_resolveCall callees)]
  exact h

variable {input : List UInt8} {m : Module}

/-- The functions of a text have counted their mentions, in the order of the
text. -/
theorem readModule_counted (h : readModule input = .ok m) :
    ∀ f ∈ m.functions, Counted f := by
  intro f hf
  obtain ⟨callees, c, g, c', ⟨made⟩, rfl⟩ := readModule_made h f hf
  exact made.counted.resolved callees

/-- Fewer new values than there are numbers in between are different from each
other. -/
theorem nodup_drawAll (f : Func) {ts : List (Option Ty)}
    (hts : ts.length < 2 ^ 62) : (f.drawAll ts).Nodup := by
  rw [Func.drawAll_eq]
  refine List.nodup_range.map_on fun i hi j hj heq => ?_
  have hoffset (k : Nat) (hk : k ∈ List.range ts.length) :
      (f.nextValue + Int64.ofNat k - f.nextValue).toInt = k := by
    have := List.mem_range.mp hk
    rw [Int64.add_comm, Int64.add_sub_cancel,
      Int64.toInt_ofNat_of_lt (by omega)]
  have heq : f.nextValue + Int64.ofNat i = f.nextValue + Int64.ofNat j := heq
  have hsame : (i : Int) = j := by rw [← hoffset i hi, heq, hoffset j hj]
  exact Int.ofNat_inj.mp hsame

/-- A function that was read gives new values that it mentions nowhere, each
once, unless its text mentions the largest number and another one last. -/
theorem readModule_drawAll (h : readModule input = .ok m) {f : Func}
    (hf : f ∈ m.functions) (hlast : Int64.maxValue ∈ f.mentioned →
      f.mentioned.getLast? = some Int64.maxValue)
    {ts : List (Option Ty)} (hts : ts.length < 2 ^ 62) :
    (f.drawAll ts).Nodup ∧ ∀ v ∈ f.drawAll ts, v ∉ f.mentioned := by
  refine ⟨nodup_drawAll f hts, fun v hv => ?_⟩
  have hcounted := readModule_counted h f hf
  rw [Func.drawAll_eq] at hv
  obtain ⟨k, hk, rfl⟩ := List.mem_map.mp hv
  rw [hcounted.counter]
  have hlt : k < ts.length := List.mem_range.mp hk
  exact foldl_passing_add_notMem hcounted.written hlast (by omega)

/-- Numbers in any order, the largest of all at the end. -/
def sparseText : List UInt8 := Text.bytesOf
  "fn f(%7: felt, %2: felt) -> (felt) \x7b bb0: %9223372036854775807: felt = add %7, %2 return %9223372036854775807 \x7d"

/-- Ids far apart, the largest of them mentioned last: two values drawn
afterwards are still new. -/
theorem readModule_drawAll_sparse :
    ∃ m f, readModule sparseText = .ok m ∧ f ∈ m.functions
    ∧ (Int64.maxValue ∈ f.mentioned → f.mentioned.getLast?
      = some Int64.maxValue)
    ∧ [none, some Ty.felt].length < 2 ^ 62
    ∧ (f.drawAll [none, some .felt]).Nodup
    ∧ ∀ v ∈ f.drawAll [none, some .felt], v ∉ f.mentioned := by
  have hread :
      ((readModule sparseText).toOption.any fun m => m.functions.any fun f =>
      f.mentioned.getLast? == some Int64.maxValue) = true := by decide +kernel
  cases hm : readModule sparseText with
  | error e =>
      rw [hm] at hread
      cases hread
  | ok m =>
      rw [hm, Except.toOption, Option.any_some, List.any_eq_true] at hread
      obtain ⟨f, hmem, hf⟩ := hread
      have hlast : Int64.maxValue ∈ f.mentioned →
          f.mentioned.getLast? = some Int64.maxValue :=
        fun _ => eq_of_beq hf
      exact ⟨m, f, rfl, hmem, hlast, by decide,
        readModule_drawAll hm hmem hlast (by decide)⟩

/-- The largest number between two others. -/
def resetText : List UInt8 := Text.bytesOf
  "fn f(%1: felt, %9223372036854775807: felt, %0: felt) -> () \x7b bb0: return \x7d"

/-- Behind the largest number the counter starts again: a new value is a
parameter. -/
theorem drawAll_taken : ∃ m f, readModule resetText = .ok m ∧ f ∈ m.functions
    ∧ f.drawAll [none] = [1] ∧ 1 ∈ f.params := by
  have hread :
      ((readModule resetText).toOption.any fun m => m.functions.any fun f =>
      f.drawAll [none] == [1] && f.params.contains 1)
        = true := by decide +kernel
  cases hm : readModule resetText with
  | error e =>
      rw [hm] at hread
      cases hread
  | ok m =>
      rw [hm, Except.toOption, Option.any_some, List.any_eq_true] at hread
      obtain ⟨f, hmem, hf⟩ := hread
      rw [Bool.and_eq_true, beq_iff_eq, List.contains_iff_mem] at hf
      exact ⟨m, f, rfl, hmem, hf⟩

end Source

end MirBackend
