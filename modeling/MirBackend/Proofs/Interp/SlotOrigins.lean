/-
Where slots come from.

Most of what the interpreter does moves slots about: into values and out of
them, to memory and back, through phis and calls. New slots come from literals
and operators, and these are below the order of the field; from memory that was
handed out but not written and from the storage behind a value, and these are
zero; and from addresses. Addresses are made by integer arithmetic where memory
is handed out, where a pointer is advanced, and where an array lies in what is
loaded (`made`). So a property of all words below the order that the addresses
made in a run have too is one of every slot the run comes to (`Visits.clean`).
-/
import Mathlib
import MirBackend.Proofs.Field
import MirBackend.Proofs.Interp.Frame
import MirBackend.Proofs.Interp.Injection
import MirBackend.Proofs.Interp.Returns

namespace MirBackend.Interp

-- =============================================================== below order

/-- The word is below the order of the field. -/
def BelowOrder (x : Int64) : Prop := 0 ≤ x.toInt ∧ x.toInt < 2147483647

/-- Below the order, a word is zero when its element is. -/
theorem BelowOrder.ofInt64_eq_zero_iff {x : Int64} (h : BelowOrder x) :
    Felt.ofInt64 x = Felt.ofInt64 0 ↔ x = 0 := by
  constructor
  · intro heq
    have hx := Felt.toNat_ofInt64 x
    have h0 := Felt.toNat_ofInt64 0
    rw [heq, h0, Int.emod_eq_of_lt h.1 h.2] at hx
    exact Int64.toInt_inj.mp (hx.symm.trans rfl)
  · intro heq
    rw [heq]

-- The words that operations give are below the order of the field.
theorem belowOrder_of_canonical {a : Felt} (h : a.Canonical) :
    BelowOrder a.toInt64 := by
  unfold Felt.Canonical at h
  rw [BelowOrder, Felt.toInt_toInt64]
  omega

theorem belowOrder_bit (b : Bool) : BelowOrder (bit b) := by
  cases b <;> exact ⟨by decide, by decide⟩

theorem belowOrder_bits (b : Bool) : ∀ x ∈ [bit b], BelowOrder x := by
  intro x hx
  obtain rfl := List.mem_singleton.mp hx
  exact belowOrder_bit b

theorem belowOrder_feltSlots {a : Felt} (h : a.Canonical) :
    ∀ x ∈ feltSlots a, BelowOrder x := by
  intro x hx
  obtain rfl := List.mem_singleton.mp hx
  exact belowOrder_of_canonical h

/-- The two halves of a 32-bit integer. -/
theorem belowOrder_wordSlots (y : UInt32) :
    ∀ x ∈ wordSlots y, BelowOrder x := by
  have hlow : (y &&& 0xFFFF).toNat < 2 ^ 16 := by
    rw [UInt32.toNat_and]
    exact Nat.and_lt_two_pow _ (by decide)
  have hhigh : (y >>> 16).toNat < 2 ^ 16 := by
    rw [UInt32.toNat_shiftRight, Nat.shiftRight_eq_div_pow]
    have := y.toNat_lt
    exact Nat.div_lt_of_lt_mul (by simpa using this)
  have hhalf (z : UInt32) (hz : z.toNat < 2 ^ 16) :
      BelowOrder z.toUInt64.toInt64 :=
    belowOrder_of_canonical (a := ⟨z⟩) (show z.toNat < 2147483647 by omega)
  intro x hx
  rcases List.mem_pair.mp hx with rfl | rfl
  · exact hhalf _ hlow
  · exact hhalf _ hhigh

theorem fieldOp_below {op : BinaryOp} {a b : Felt} {zs : Slots}
    (h : fieldOp op a b = .ok zs) : ∀ z ∈ zs, BelowOrder z := by
  cases op with
  | add => cases h; exact belowOrder_feltSlots Felt.canonical_add
  | sub => cases h; exact belowOrder_feltSlots Felt.canonical_sub
  | mul => cases h; exact belowOrder_feltSlots Felt.canonical_mul
  | div =>
      rw [fieldOp] at h
      split at h
      · cases h
      · cases h
        exact belowOrder_feltSlots Felt.canonical_div
  | eq | neq | less | greater | lessEqual | greaterEqual | and | or =>
    cases h; exact belowOrder_bits _
  | _ => cases h

theorem wordOp_below {op : BinaryOp} {a b : UInt32} {zs : Slots}
    (h : wordOp op a b = .ok zs) : ∀ z ∈ zs, BelowOrder z := by
  cases op with
  | u32Add | u32Sub | u32Mul | u32And | u32Or | u32Xor =>
    cases h; exact belowOrder_wordSlots _
  | u32Div =>
      rw [wordOp] at h
      split at h
      · cases h
      · cases h
        exact belowOrder_wordSlots _
  | u32Eq | u32Neq | u32Less | u32Greater | u32LessEqual | u32GreaterEqual =>
    cases h; exact belowOrder_bits _
  | _ => cases h

/-- What binary operators answer is below the order of the field. -/
theorem binaryOp_below {op : BinaryOp} {l r zs : Slots}
    (h : binaryOp op l r = .ok zs) : ∀ z ∈ zs, BelowOrder z := by
  unfold binaryOp at h
  split at h
  · obtain ⟨a, -, h⟩ := bind_eq_ok.mp h
    obtain ⟨b, -, h⟩ := bind_eq_ok.mp h
    exact wordOp_below h
  · split at h
    · exact fieldOp_below h
    · cases h

theorem unaryOp_below {op : UnaryOp} {x : Int64} {zs : Slots}
    (h : unaryOp op x = .ok zs) : ∀ z ∈ zs, BelowOrder z := by
  cases op with
  | not => cases h; exact belowOrder_bits _
  | neg => cases h; exact belowOrder_feltSlots Felt.canonical_neg
  | unassigned => cases h

-- ==================================================================== values

variable {p : Int64 → Prop}

/-- All slots of the value have the property. -/
def Value.All (p : Int64 → Prop) (v : Value) : Prop := ∀ x ∈ v.slots, p x

namespace Value

variable {v w : Value} {xs : Slots} {n off : Int64}

-- A property of words that zero has is kept by the ways in which values are put
-- together and taken apart.
theorem All.append (h : v.All p) (hxs : ∀ x ∈ xs, p x) :
    (v.append xs).All p := by
  intro x hx
  rcases List.mem_append.mp hx with hx | hx
  · exact h x hx
  · exact hxs x hx

theorem all_copyOf (hxs : ∀ x ∈ xs, p x) : (copyOf xs).All p :=
  All.append (fun _ hx => absurd hx List.not_mem_nil) hxs

/-- Spare slots are zero. -/
theorem All.stored (h : v.All p) (hzero : p 0) : ∀ x ∈ v.stored, p x := by
  intro x hx
  rcases List.mem_append.mp hx with hx | hx
  · exact h x hx
  · rw [List.eq_of_mem_replicate hx]
    exact hzero

theorem All.part (h : v.All p) (hzero : p 0)
    (hw : v.part off n = .ok w) : w.All p := by
  rw [Value.part] at hw
  split at hw
  · cases hw
    exact all_copyOf fun x hx =>
      h.stored hzero x (List.mem_of_mem_drop (List.mem_of_mem_take hx))
  · cases hw

theorem All.first (h : v.All p) (hzero : p 0)
    (hw : v.first n = .ok w) : w.All p := by
  rw [Value.first] at hw
  split at hw
  · cases hw
    exact fun x hx => h.stored hzero x (List.mem_of_mem_take hx)
  · cases hw

theorem All.rest (h : v.All p) (hw : v.rest n = .ok w) : w.All p := by
  rw [Value.rest] at hw
  split at hw
  · cases hw
    exact fun x hx => h x (List.mem_of_mem_drop hx)
  · cases hw

theorem All.overwrite (h : v.All p) (hxs : ∀ x ∈ xs, p x)
    (hw : v.overwrite off xs = .ok w) : w.All p := by
  rw [Value.overwrite] at hw
  split at hw
  · cases hw
    intro x hx
    rcases List.mem_append.mp hx with hx | hx
    · rcases List.mem_append.mp hx with hx | hx
      · exact h x (List.mem_of_mem_take hx)
      · exact hxs x (List.mem_of_mem_take hx)
    · exact h x (List.mem_of_mem_drop hx)
  · cases hw

end Value

-- ==================================================================== memory

namespace Memory

/-- All words of the memory have the property, those that were never written
too. -/
def All (p : Int64 → Prop) (m : Memory) : Prop := ∀ a, p (m.get a)

mutual

/-- Where the arrays lie in a value of the type that is loaded from an
address. -/
def arraysAt (a : Int64) : Ty → List Int64
  | .array .. => [a]
  | .tuple ts => arraysAtList a ts
  | .struct _ fs => arraysAtFields a fs
  | .missing | .felt | .bool | .u32 | .unit | .unknown | .ptr _ | .fn .. => []

/-- Where the arrays lie in values one after the other. -/
def arraysAtList (a : Int64) : List Ty → List Int64
  | [] => []
  | t :: ts => arraysAt a t ++ arraysAtList (a + t.size.getD 0) ts

/-- Where the arrays lie in fields one after the other. -/
def arraysAtFields (a : Int64) : List TyField → List Int64
  | [] => []
  | ⟨_, _, t⟩ :: fs => arraysAt a t ++ arraysAtFields (a + t.size.getD 0) fs

end

variable {m m₁ : Memory} {a : Int64} {v : Value}

/-- Memory keeps a property of its words when such words are written. -/
theorem All.write (h : m.All p) {xs : Slots} (hxs : ∀ x ∈ xs, p x) (b : Nat) :
    (m.write b xs).All p := by
  induction xs generalizing m b with
  | nil => exact h
  | cons x xs ih =>
      rw [List.forall_mem_cons] at hxs
      rw [Memory.write]
      refine ih (fun c => ?_) hxs.2 (b + 1)
      rw [get_set]
      split
      · exact hxs.1
      · exact h c

theorem All.read (h : m.All p) (b n : Nat) : ∀ x ∈ m.read b n, p x := by
  intro x hx
  obtain ⟨i, -, rfl⟩ := List.mem_map.mp hx
  exact h _

/-- Loading a word answers one of memory's. -/
theorem All.load_scalar (h : m.All p) {t : Ty} (whole : t.parts = none)
    (noArray : ∀ u n, t ≠ .array u n) (hv : m.load a t = .ok v) : v.All p := by
  rw [Memory.load_scalar whole noArray] at hv
  obtain ⟨n, -, hv⟩ := bind_eq_ok.mp hv
  obtain ⟨x, -, hv⟩ := bind_eq_ok.mp hv
  cases hv
  exact Value.all_copyOf (h.read _ _)

mutual

/-- What is loaded are words of the memory and the addresses of arrays. -/
theorem All.load (h : m.All p) : (t : Ty) → ∀ {a v}, (∀ x ∈ arraysAt a t, p x) →
    m.load a t = .ok v → v.All p
  | .array u c, a, v, ha, hv => by
      rw [Memory.load] at hv
      obtain ⟨n, -, hv⟩ := bind_eq_ok.mp hv
      cases hv
      exact ha
  | .tuple ts, a, v, ha, hv => by
      rw [Memory.load] at hv
      obtain ⟨n, -, hv⟩ := bind_eq_ok.mp hv
      exact h.loadList ts ha (fun _ hx => absurd hx List.not_mem_nil) hv
  | .struct _ fs, a, v, ha, hv => by
      rw [Memory.load] at hv
      obtain ⟨n, -, hv⟩ := bind_eq_ok.mp hv
      exact h.loadFields fs ha (fun _ hx => absurd hx List.not_mem_nil) hv
  | .missing, _, _, _, hv | .felt, _, _, _, hv | .bool, _, _, _,
    hv | .u32, _, _, _, hv
  | .unit, _, _, _, hv | .unknown, _, _, _, hv | .ptr _, _, _, _,
    hv | .fn .., _, _, _, hv =>
      h.load_scalar rfl (by nofun) hv

/-- Loading types in a row answers words of memory, and addresses of the arrays
among them. -/
theorem All.loadList (h : m.All p) : (ts : List Ty) → ∀ {a acc v},
    (∀ x ∈ arraysAtList a ts, p x) → acc.All p →
    m.loadList ts a acc = .ok v → v.All p
  | [], _, _, _, _, hacc, hv => by
      rw [Memory.loadList] at hv
      cases hv
      exact hacc
  | t :: ts, _, _, _, ha, hacc, hv => by
      rw [Memory.loadList] at hv
      obtain ⟨x, hx, hv⟩ := bind_eq_ok.mp hv
      obtain ⟨n, hn, hv⟩ := bind_eq_ok.mp hv
      rw [liftChecked_eq_ok, orFault_eq_ok] at hn
      simp only [arraysAtList, List.forall_mem_append, hn,
          Option.getD_some] at ha
      exact h.loadList ts ha.2 (hacc.append (h.load t ha.1 hx)) hv

theorem All.loadFields (h : m.All p) : (fs : List TyField) → ∀ {a acc v},
    (∀ x ∈ arraysAtFields a fs, p x) → acc.All p →
    m.loadFields fs a acc = .ok v → v.All p
  | [], _, _, _, _, hacc, hv => by
      rw [Memory.loadFields] at hv
      cases hv
      exact hacc
  | ⟨_, _, t⟩ :: fs, _, _, _, ha, hacc, hv => by
      rw [Memory.loadFields] at hv
      obtain ⟨x, hx, hv⟩ := bind_eq_ok.mp hv
      obtain ⟨n, hn, hv⟩ := bind_eq_ok.mp hv
      rw [liftChecked_eq_ok, orFault_eq_ok] at hn
      simp only [arraysAtFields, List.forall_mem_append, hn,
          Option.getD_some] at ha
      exact h.loadFields fs ha.2 (hacc.append (h.load t ha.1 hx)) hv

end

/-- Storing a word that has the property keeps it. -/
theorem All.store_scalar (hm : m.All p) {t : Ty} (whole : t.parts = none)
    (noArray : ∀ u n, t ≠ .array u n) (hv : v.All p)
    (h : store a t v m = .ok () m₁) : m₁.All p := by
  rw [Memory.store_scalar whole noArray] at h
  simp only [bind_ok_iff, answer_ok_iff, sure_ok_iff] at h
  obtain ⟨_, _, hget, n, _, ⟨-, rfl⟩, x, _, ⟨-, rfl⟩, hset⟩ := h
  cases hget
  cases hset
  exact hm.write (fun y hy => hv y (List.mem_of_mem_take hy)) _

mutual

/-- A store leaves words of the memory and slots of the value. -/
theorem All.store (hzero : p 0) : (t : Ty) →
    ∀ {a : Int64} {v : Value} {m m₁ : Memory}, m.All p →
    v.All p → store a t v m = .ok () m₁ → m₁.All p
  | .array u c, a, v, m, m₁, hm, hv, h => by
      rw [Memory.store] at h
      simp only [bind_ok_iff, answer_ok_iff, sure_ok_iff] at h
      obtain ⟨_, _, hget, n, _, ⟨-, rfl⟩, src, _, ⟨-, rfl⟩, x, _, ⟨-, rfl⟩, y,
          _, ⟨-, rfl⟩, hset⟩ := h
      cases hget
      cases hset
      exact hm.write (hm.read _ _) _
  | .tuple ts, a, v, m, m₁, hm, hv, h => by
      rw [Memory.store] at h
      simp only [bind_ok_iff, answer_ok_iff] at h
      obtain ⟨_, _, hget, n, _, ⟨-, rfl⟩, h⟩ := h
      cases hget
      exact All.storeList hzero ts hm hv h
  | .struct _ fs, a, v, m, m₁, hm, hv, h => by
      rw [Memory.store] at h
      simp only [bind_ok_iff, answer_ok_iff] at h
      obtain ⟨_, _, hget, n, _, ⟨-, rfl⟩, h⟩ := h
      cases hget
      exact All.storeFields hzero fs hm hv h
  | .missing, _, _, _, _, hm, hv, h | .felt, _, _, _, _, hm, hv, h | .bool, _,
    _, _, _, hm, hv, h
  | .u32, _, _, _, _, hm, hv, h | .unit, _, _, _, _, hm, hv, h | .unknown, _,
    _, _, _, hm, hv, h
  | .ptr _, _, _, _, _, hm, hv, h | .fn .., _, _, _, _, hm, hv, h =>
      hm.store_scalar rfl (by nofun) hv h

/-- So does storing types in a row. -/
theorem All.storeList (hzero : p 0) : (ts : List Ty) →
    ∀ {a : Int64} {v : Value} {m m₁ : Memory},
    m.All p → v.All p → storeList a ts v m = .ok () m₁ → m₁.All p
  | [], _, _, _, _, hm, _, h => by
      rw [Memory.storeList] at h
      cases h
      exact hm
  | t :: ts, _, _, _, _, hm, hv, h => by
      rw [Memory.storeList] at h
      simp only [bind_ok_iff, sure_ok_iff] at h
      obtain ⟨x, _, ⟨hx, rfl⟩, _, m₂, hstore, y, _, ⟨hy, rfl⟩, n,
          _, ⟨-, rfl⟩, h⟩ := h
      exact All.storeList hzero ts
        (All.store hzero t hm (hv.first hzero hx) hstore) (hv.rest hy) h

theorem All.storeFields (hzero : p 0) : (fs : List TyField) →
    ∀ {a : Int64} {v : Value}
    {m m₁ : Memory}, m.All p → v.All p → storeFields a fs v m
      = .ok () m₁ → m₁.All p
  | [], _, _, _, _, hm, _, h => by
      rw [Memory.storeFields] at h
      cases h
      exact hm
  | ⟨_, _, t⟩ :: fs, _, _, _, _, hm, hv, h => by
      rw [Memory.storeFields] at h
      simp only [bind_ok_iff, sure_ok_iff] at h
      obtain ⟨x, _, ⟨hx, rfl⟩, _, m₂, hstore, y, _, ⟨hy, rfl⟩, n,
          _, ⟨-, rfl⟩, h⟩ := h
      exact All.storeFields hzero fs
        (All.store hzero t hm (hv.first hzero hx) hstore) (hv.rest hy) h

end

/-- Handing out memory writes nothing. -/
theorem All.alloc (h : m.All p) {n x : Int64}
    (halloc : m.alloc n = .ok (x, m₁)) : x = Int64.ofNat m.size ∧ m₁.All p := by
  obtain ⟨-, rfl, rfl⟩ := alloc_eq_ok.mp halloc
  exact ⟨rfl, h⟩

end Memory

-- ============================================================= one instruction

/-- Every slot of the frame and of the memory has the property. -/
structure Clean (p : Int64 → Prop) (fr : Frame) (w : Machine) : Prop where
  frame : ∀ (v : ValueId) (x : Value), fr[v]? = some x → x.All p
  memory : w.memory.All p

/-- The addresses that an instruction makes. -/
def made (fr : Frame) (w : Machine) : Instr → List Int64
  | .elementPtr _ base off =>
      ((lookScalar fr base).bind fun a =>
        (lookScalar fr off).map (a + ·)).toList
  | .frameAlloc .. | .addressOf .. | .makeArray .. =>
    [Int64.ofNat w.memory.size]
  | .load _ t address => (lookScalar fr address).toList.flatMap
    (Memory.arraysAt · t)
  | _ => []

section

variable (hbelow : ∀ x, BelowOrder x → p x)

variable {fr fr₁ : Frame} {w w₁ : Machine} {o : Operand}
  {x : Value} {d : ValueId}

/-- A clean frame stays clean when a clean value is set. -/
theorem Clean.insert (h : Clean p fr w) (hx : x.All p) (hw : w₁.memory.All p) :
    Clean p (fr.insert d x) w₁ := by
  refine ⟨fun v y hy => ?_, hw⟩
  rw [getElem?_insert_frame] at hy
  split at hy
  · cases hy
    exact hx
  · exact h.frame v y hy

theorem Clean.insertAll (h : Clean p fr w) {ps : List (ValueId × Value)}
    (hps : ∀ q ∈ ps, q.2.All p) (hw : w₁.memory.All p) :
    Clean p (insertAll fr ps) w₁ := by
  refine ⟨fun v y hy => ?_, hw⟩
  rcases getElem?_insertAll_cases hy with hmem | ⟨-, hy⟩
  · exact hps _ hmem
  · exact h.frame v y hy

/-- A value of one word. -/
theorem all_single {y : Int64} (hy : p y) (n : Nat) :
    (⟨[y], n⟩ : Value).All p := by
  intro z hz
  obtain rfl := List.mem_singleton.mp hz
  exact hy

/-- Values put together one by one. -/
theorem all_foldl_append {xs : List Value}
    (hxs : ∀ x ∈ xs, x.All p) (hx : x.All p) :
    (xs.foldl (fun v y => v.append y.slots) x).All p := by
  induction xs generalizing x with
  | nil => exact hx
  | cons y ys ih =>
      rw [List.forall_mem_cons] at hxs
      exact ih hxs.2 (hx.append hxs.1)

include hbelow

/-- Every operand gives a clean value, literals included. -/
theorem Clean.look (h : Clean p fr w) (hx : look fr o = some x) : x.All p := by
  cases o with
  | value v => exact h.frame v x hx
  | int n =>
      cases hx
      exact all_single
        (hbelow _ (belowOrder_of_canonical (Felt.canonical_ofInt64 _))) 0
  | bool b =>
      cases hx
      exact all_single (hbelow _ (belowOrder_bit b)) 0
  | unit =>
      cases hx
      exact fun _ hy => absurd hy List.not_mem_nil
  | error | invalid => cases hx

theorem Clean.mapM_look (h : Clean p fr w) {os : List Operand} {xs : List Value}
    (hxs : os.mapM (Interp.look fr) = some xs) : ∀ x ∈ xs, x.All p := by
  induction os generalizing xs with
  | nil =>
      cases hxs
      exact fun _ hx => absurd hx List.not_mem_nil
  | cons o os ih =>
      rw [List.mapM_cons] at hxs
      obtain ⟨x, hx, hxs⟩ := Option.bind_eq_some_iff.mp hxs
      obtain ⟨ys, hys, hxs⟩ := Option.bind_eq_some_iff.mp hxs
      cases hxs
      exact List.forall_mem_cons.mpr ⟨h.look hbelow hx, ih hys⟩

/-- Phis give values of the frame. -/
theorem Clean.phiLooks (h : Clean p fr w) {prev : BlockId} {is : List Instr}
    {ps : List (ValueId × Value)} (hps : phiLooks fr prev is = some ps) :
    ∀ q ∈ ps, q.2.All p := by
  induction is generalizing ps with
  | nil =>
      cases hps
      exact fun _ hq => absurd hq List.not_mem_nil
  | cons i is ih =>
      cases i with
      | phi d t ss =>
          rw [phiLooks_cons] at hps
          obtain ⟨o, -, hps⟩ := Option.bind_eq_some_iff.mp hps
          obtain ⟨x, hx, hps⟩ := Option.bind_eq_some_iff.mp hps
          obtain ⟨qs, hqs, rfl⟩ := Option.map_eq_some_iff.mp hps
          exact List.forall_mem_cons.mpr ⟨h.look hbelow hx, ih hqs⟩
      | _ =>
          cases hps
          exact fun _ hq => absurd hq List.not_mem_nil

/-- Storing elements of an array. -/
theorem Clean.storeElems (h : Clean p fr w) {t : Ty} {stride a : Int64}
    {es : List Operand} {u : Unit}
    (hrun : storeElems fr t stride a es w = .ok u w₁) : w₁.memory.All p := by
  induction es generalizing a w with
  | nil =>
      obtain ⟨-, rfl⟩ := pure_ok_iff.mp hrun
      exact h.memory
  | cons e es ih =>
      rw [Interp.storeElems] at hrun
      simp only [bind_ok_iff, eval_ok_iff, store_ok_iff] at hrun
      obtain ⟨x, _, ⟨hx, rfl⟩, _, _, ⟨memory, hstore, rfl⟩, hrun⟩ := hrun
      exact ih ⟨h.frame,
        Memory.All.store (hbelow 0 (belowOrder_bit false)) t h.memory
        (h.look hbelow hx) hstore⟩ hrun

/-- Putting fields in their places. -/
theorem Clean.putFields (h : Clean p fr w) {r : Record}
    {fs : List (String × Operand)} {blank y : Value} (hblank : blank.All p)
    (hrun : putFields fr r fs blank w = .ok y w₁) : y.All p ∧ w = w₁ := by
  induction fs generalizing blank with
  | nil =>
      obtain ⟨rfl, rfl⟩ := pure_ok_iff.mp hrun
      exact ⟨hblank, rfl⟩
  | cons nf fs ih =>
      obtain ⟨n, e⟩ := nf
      rw [Interp.putFields] at hrun
      cases hf : r.field? n with
      | none =>
          rw [hf] at hrun
          exact absurd hrun failWith_ne_ok
      | some f =>
          simp only [hf, bind_ok_iff, eval_ok_iff, sure_ok_iff] at hrun
          obtain ⟨x, _, ⟨hx, rfl⟩, z, _, ⟨hz, rfl⟩, hrun⟩ := hrun
          exact ih (hblank.overwrite (h.look hbelow hx) hz) hrun

/-- An instruction keeps frame and memory clean, if the addresses that it makes
are. -/
theorem Clean.exec {f : Func} {i : Instr} (h : Clean p fr w)
    (hmade : ∀ a ∈ made fr w i, p a)
    (hrun : exec ⟨[]⟩ refuse f fr i w = .ok fr₁ w₁) : Clean p fr₁ w₁ := by
  have hzero : p 0 := hbelow 0 (belowOrder_bit false)
  -- the words an operation gives are below the order; the addresses made are
  -- those the hypothesis is about, and all else is copied
  cases i with
  | missing | phi => exact absurd hrun failWith_ne_ok
  | call ds callee args sig =>
      have hnone : (⟨[]⟩ : Module).func? callee = none := by
        cases callee <;> rfl
      rw [Interp.exec, execCall, hnone] at hrun
      exact absurd hrun failWith_ne_ok
  | nop =>
      obtain ⟨rfl, rfl⟩ := pure_ok_iff.mp hrun
      exact h
  | assign d v t =>
      obtain ⟨x, hx, rfl, rfl⟩ := exec_assign_ok_iff.mp hrun
      exact h.insert (h.look hbelow hx) h.memory
  | cast d v t t' =>
      obtain ⟨x, hx, rfl, rfl⟩ := (exec_assign_ok_iff (f := f) (t := t)).mp hrun
      exact h.insert (h.look hbelow hx) h.memory
  | unary op d v =>
      obtain ⟨x, ys, -, hys, rfl, rfl⟩ := exec_unary_ok_iff.mp hrun
      exact h.insert (fun y hy => hbelow y (unaryOp_below hys y hy)) h.memory
  | binary op d l r =>
      obtain ⟨x, y, zs, -, -, hzs, rfl, rfl⟩ := exec_binary_ok_iff.mp hrun
      exact h.insert (fun z hz => hbelow z (binaryOp_below hzs z hz)) h.memory
  -- a sum of addresses is made here
  | elementPtr d base off =>
      obtain ⟨a, b, ha, hb, rfl, rfl⟩ := exec_elementPtr_ok_iff.mp hrun
      refine h.insert (all_single (hmade _ ?_) 0) h.memory
      rw [made, ha, hb]
      exact List.mem_singleton_self _
  -- so is the address of the memory reserved
  | frameAlloc d t =>
      obtain ⟨n, a, memory, -, halloc, rfl, rfl⟩ :=
        exec_frameAlloc_ok_iff.mp hrun
      obtain ⟨rfl, hmem⟩ := h.memory.alloc halloc
      exact h.insert (all_single (hmade _ (List.mem_singleton_self _)) 0) hmem
  -- a load gives words of memory, and addresses of arrays in it
  | load d t address =>
      obtain ⟨a, x, ha, hx, rfl, rfl⟩ := exec_load_ok_iff.mp hrun
      refine h.insert (h.memory.load t (fun b hb => hmade b ?_) hx) h.memory
      rw [made, ha]
      simpa using hb
  | store address v t =>
      obtain ⟨a, x, memory, -, hx, hstore, rfl, rfl⟩ :=
        exec_store_ok_iff.mp hrun
      exact ⟨h.frame,
        Memory.All.store hzero _ h.memory (h.look hbelow hx) hstore⟩
  | debug message vs =>
      obtain ⟨xs, -, rfl, rfl⟩ := exec_debug_ok_iff.mp hrun
      exact ⟨h.frame, h.memory⟩
  -- the value is written to memory, where it is as clean as it was
  | addressOf d v =>
      simp only [Interp.exec, bind_ok_iff, eval_ok_iff, alloc_ok_iff,
        pure_ok_iff] at hrun
      obtain ⟨x, _, ⟨hx, rfl⟩, a, _, ⟨memory, halloc, rfl⟩, _, _,
          hwrite, rfl, rfl⟩ := hrun
      cases hwrite
      obtain ⟨rfl, hmem⟩ := h.memory.alloc halloc
      refine h.insert (all_single (hmade _ (List.mem_singleton_self _)) 0) ?_
      exact hmem.write (h.look hbelow hx) _
  | makeTuple d es ts =>
      simp only [Interp.exec, bind_ok_iff, mapM_eval_ok_iff,
        pure_ok_iff] at hrun
      obtain ⟨xs, _, ⟨hxs, rfl⟩, rfl, rfl⟩ := hrun
      exact h.insert (all_foldl_append (h.mapM_look hbelow hxs)
        fun _ hx => absurd hx List.not_mem_nil) h.memory
  -- a record starts as zeros, which are clean
  | makeStruct d fs r =>
      simp only [Interp.exec, bind_ok_iff, pure_ok_iff] at hrun
      obtain ⟨x, _, hx, rfl, rfl⟩ := hrun
      obtain ⟨hall, rfl⟩ := h.putFields hbelow (fun y hy => by
        rw [List.eq_of_mem_replicate hy]
        exact hzero) hx
      exact h.insert hall h.memory
  | extractTuple d v j t =>
      simp only [Interp.exec, bind_ok_iff, eval_ok_iff] at hrun
      obtain ⟨x, _, ⟨hx, rfl⟩, hrun⟩ := hrun
      generalize f.operandType v = u at hrun
      cases u with
      | tuple ts =>
          cases hoff : Ty.tupleOffset ts j with
          | none =>
              simp only [hoff] at hrun
              exact absurd hrun failWith_ne_ok
          | some off =>
              simp only [hoff, bind_ok_iff, sure_ok_iff, pure_ok_iff] at hrun
              obtain ⟨y, _, ⟨hy, rfl⟩, rfl, rfl⟩ := hrun
              exact h.insert ((h.look hbelow hx).part hzero hy) h.memory
      | _ => exact absurd hrun failWith_ne_ok
  | extractField d v n t =>
      simp only [Interp.exec, bind_ok_iff, eval_ok_iff] at hrun
      obtain ⟨x, _, ⟨hx, rfl⟩, hrun⟩ := hrun
      cases hr : (f.operandType v).asRecord with
      | none =>
          rw [hr] at hrun
          exact absurd hrun failWith_ne_ok
      | some r =>
          cases hfield : r.field? n with
          | none =>
              simp only [hr, hfield] at hrun
              exact absurd hrun failWith_ne_ok
          | some fld =>
              simp only [hr, hfield, bind_ok_iff, sure_ok_iff,
                pure_ok_iff] at hrun
              obtain ⟨y, _, ⟨hy, rfl⟩, rfl, rfl⟩ := hrun
              exact h.insert ((h.look hbelow hx).part hzero hy) h.memory
  | insertTuple d agg j v ts =>
      simp only [Interp.exec, bind_ok_iff, eval_ok_iff] at hrun
      obtain ⟨x, _, ⟨hx, rfl⟩, y, _, ⟨hy, rfl⟩, hrun⟩ := hrun
      cases hoff : Ty.tupleOffset ts j with
      | none =>
          rw [hoff] at hrun
          exact absurd hrun failWith_ne_ok
      | some off =>
          simp only [hoff, bind_ok_iff, sure_ok_iff, pure_ok_iff] at hrun
          obtain ⟨z, _, ⟨hz, rfl⟩, rfl, rfl⟩ := hrun
          exact h.insert ((Value.all_copyOf (h.look hbelow hx)).overwrite
            (h.look hbelow hy) hz)
            h.memory
  | insertField d agg n v r =>
      simp only [Interp.exec, bind_ok_iff, eval_ok_iff] at hrun
      obtain ⟨x, _, ⟨hx, rfl⟩, y, _, ⟨hy, rfl⟩, hrun⟩ := hrun
      cases hfield : r.field? n with
      | none =>
          rw [hfield] at hrun
          exact absurd hrun failWith_ne_ok
      | some fld =>
          simp only [hfield, bind_ok_iff, sure_ok_iff, pure_ok_iff] at hrun
          obtain ⟨z, _, ⟨hz, rfl⟩, rfl, rfl⟩ := hrun
          exact h.insert ((Value.all_copyOf (h.look hbelow hx)).overwrite
            (h.look hbelow hy) hz)
            h.memory
  | makeArray d es t =>
      simp only [Interp.exec, bind_ok_iff, need_ok_iff, alloc_ok_iff,
        pure_ok_iff] at hrun
      obtain ⟨n, _, ⟨-, rfl⟩, a, _, ⟨memory, halloc, rfl⟩, _, w₂,
          helems, rfl, rfl⟩ := hrun
      obtain ⟨rfl, hmem⟩ := h.memory.alloc halloc
      have hcopied : Clean p fr { w with memory } := ⟨h.frame, hmem⟩
      exact h.insert (all_single (hmade _ (List.mem_singleton_self _)) 0)
        (hcopied.storeElems hbelow helems)

-- ======================================================================= runs

/-- Entering a function with values for its parameters. -/
theorem Clean.enter {f : Func} {xs : List Value} (hxs : ∀ x ∈ xs, x.All p)
    (hw : w.memory.All p) {is : List Instr} {ps : List (ValueId × Value)}
    (hps : Interp.phiLooks (argFrame f xs) noBlock is = some ps) :
    Clean p (Interp.insertAll (argFrame f xs) ps) w := by
  have hempty : Clean p ∅ w := by
    refine ⟨fun v x hx => ?_, hw⟩
    rw [Std.ExtTreeMap.getElem?_empty] at hx
    cases hx
  have hargs : Clean p (argFrame f xs) w :=
    hempty.insertAll (fun q hq => hxs _ (List.of_mem_zip hq).2) hw
  exact hargs.insertAll (hargs.phiLooks hbelow hps) hw

/-- So do returns. -/
theorem Clean.results (h : Clean p fr w)
    {t : Option Terminator} {vs : List Value}
    (hvs : nextOf fr t = some (.ret vs)) : ∀ v ∈ vs, v.All p := by
  cases t with
  | none => cases hvs
  | some t =>
      cases t with
      | ret os =>
          obtain ⟨xs, hxs, heq⟩ := Option.map_eq_some_iff.mp hvs
          cases heq
          exact h.mapM_look hbelow hxs
      | branch c t e =>
          obtain ⟨x, -, heq⟩ := Option.map_eq_some_iff.mp hvs
          cases heq
      | branchCmp op l r t e =>
          obtain ⟨x, -, heq⟩ := Option.map_eq_some_iff.mp hvs
          cases heq
      | jump | unreachable => cases hvs

end

/-- Wherever a call comes to, the addresses made next have the property. -/
def MakesOnly (p : Int64 → Prop) (m : Module) (start : FuncId)
    (given : List Value) (w₀ : Machine) : Prop :=
  ∀ k cur i is fr w, Visits m start given w₀ k cur (i :: is) fr w →
    ∀ a ∈ made fr w i, p a

section

variable (hbelow : ∀ x, BelowOrder x → p x) {m : Module} {start k : FuncId}
  {given : List Value} {w₀ w w' : Machine} {cur : BlockId} {is : List Instr}
  {fr : Frame} {n : Nat} {vs : List Value}

include hbelow

/-- From clean places runs return clean values and leave clean memory. -/
theorem Returns.clean (hmakes : MakesOnly p m start given w₀)
    (h : Returns m .none k cur is fr w n vs w')
    (hv : Visits m start given w₀ k cur is fr w) (hc : Clean p fr w) :
    (∀ v ∈ vs, v.All p) ∧ w'.memory.All p := by
  induction h with
  | instr func run rest ih =>
      exact ih (hv.instr func run) (hc.exec hbelow (hmakes _ _ _ _ _ _ hv) run)
  | call callee args count entry phis body results rest ihbody ihrest =>
      have hxs := hc.mapM_look hbelow args
      obtain ⟨hrs, hmem⟩ := ihbody (hv.enter callee args entry phis)
        (.enter hbelow hxs hc.memory phis)
      refine ihrest (hv.back args ⟨_, _, _, callee, count, entry, phis, body⟩)
        ?_
      exact hc.insertAll (fun q hq => hrs _ (List.of_mem_zip hq).2) hmem
  | jump func block keeps term there target phis rest ih =>
      exact ih (hv.jump func block term target phis)
        (hc.insertAll (hc.phiLooks hbelow phis) hc.memory)
  | ret func block term => exact ⟨hc.results hbelow term, hc.memory⟩
  | leave => exact ⟨fun _ hv => absurd hv List.not_mem_nil, hc.memory⟩

/-- Every place that a call comes to is clean. -/
theorem Visits.clean (hmakes : MakesOnly p m start given w₀)
    (hgiven : ∀ x ∈ given, x.All p) (hw₀ : w₀.memory.All p)
    (h : Visits m start given w₀ k cur is fr w) : Clean p fr w := by
  induction h with
  | start func entry phis => exact .enter hbelow hgiven hw₀ phis
  | instr here func run ih => exact ih.exec hbelow (hmakes _ _ _ _ _ _ here) run
  | enter here callee args entry phis ih =>
      exact .enter hbelow (ih.mapM_look hbelow args) ih.memory phis
  | back here args answer ih =>
      obtain ⟨f, b, ps, hf, hcount, hb, hps, hrun⟩ := answer
      obtain ⟨hrs, hmem⟩ := hrun.clean hbelow hmakes (here.enter hf args hb hps)
        (.enter hbelow (ih.mapM_look hbelow args) ih.memory hps)
      exact ih.insertAll (fun q hq => hrs _ (List.of_mem_zip hq).2) hmem
  | jump here func block term target phis ih =>
      exact ih.insertAll (ih.phiLooks hbelow phis) ih.memory

/-- What a call answers is clean, and so is the memory that it leaves. -/
theorem Answers.clean (hmakes : MakesOnly p m k given w)
    (hgiven : ∀ x ∈ given, x.All p) (hw : w.memory.All p)
    (h : Answers m .none k given w n vs w') :
    (∀ v ∈ vs, v.All p) ∧ w'.memory.All p := by
  obtain ⟨f, b, ps, hf, hcount, hb, hps, hrun⟩ := h
  exact hrun.clean hbelow hmakes (.start hf hb hps)
    (.enter hbelow hgiven hw hps)

end

end MirBackend.Interp
