/-
What one instruction does to a frame.

An instruction other than a call takes no time of its own (`exec_timeless`)
and assigns values to its destinations that depend on the frame only through
the operands it reads. So in a frame that agrees on them, and in a function
that gives them the same types, it assigns the same values and leaves the
machine in the same state (`exec_sets`).
-/
import Mathlib
import MirBackend.Proofs.Interp.Exec

namespace MirBackend.Interp

/-- A caller that runs nothing. -/
def refuse : Caller := fun _ _ => failWith .hole

-- ==================================================================== time

-- None of the routines that an instruction calls looks at the clock.
theorem eval_timeless (fr : Frame) (v : Operand) : Timeless (eval fr v) := by
  intro s a s' h n l
  obtain ⟨hlook, rfl⟩ := eval_ok_iff.mp h
  exact eval_ok_iff.mpr ⟨hlook, rfl⟩

theorem scalar_timeless (fr : Frame) (v : Operand) :
    Timeless (scalar fr v) := by
  intro s a s' h n l
  obtain ⟨hlook, rfl⟩ := scalar_ok_iff.mp h
  exact scalar_ok_iff.mpr ⟨hlook, rfl⟩

theorem alloc_timeless (k : Int64) : Timeless (alloc k) := by
  intro s a s' h n l
  unfold alloc at h ⊢
  obtain ⟨s₀, s₁, h₀, h⟩ := bind_ok_iff.mp h
  have h₀ : EStateM.Result.ok s s = .ok s₀ s₁ := h₀
  cases h₀
  obtain ⟨⟨b, memory⟩, s₂, hb, h⟩ := bind_ok_iff.mp h
  obtain ⟨halloc, rfl⟩ := sure_ok_iff.mp hb
  have h : EStateM.Result.ok b { s with memory } = .ok a s' := h
  cases h
  refine bind_ok_iff.mpr ⟨s.clocked n l, s.clocked n l, rfl, ?_⟩
  exact bind_ok_iff.mpr ⟨(a, memory), s.clocked n l,
    sure_ok_iff.mpr ⟨halloc, rfl⟩, rfl⟩

theorem store_timeless (a : Int64) (t : Ty) (v : Value) :
    Timeless (store a t v) := by
  intro s u s' h n l
  unfold store at h ⊢
  rw [show (s.clocked n l).memory = s.memory from rfl]
  cases hm : Memory.store a t v s.memory with
  | ok x memory =>
      rw [hm] at h
      cases h
      rfl
  | error e memory =>
      rw [hm] at h
      cases h

theorem storeElems_timeless (fr : Frame) (t : Ty) (stride : Int64)
    (es : List Operand) (a : Int64) :
    Timeless (storeElems fr t stride a es) := by
  induction es generalizing a with
  | nil => exact Timeless.pure _
  | cons e es ih =>
      unfold storeElems
      exact (eval_timeless fr e).bind fun v =>
        (store_timeless a t v).bind fun _ => ih _

theorem putFields_timeless (fr : Frame) (r : Record)
    (fs : List (String × Operand)) (v : Value) :
    Timeless (putFields fr r fs v) := by
  induction fs generalizing v with
  | nil => exact Timeless.pure _
  | cons x fs ih =>
      obtain ⟨n, x⟩ := x
      unfold putFields
      split
      · exact Timeless.fail _
      · exact (eval_timeless fr x).bind fun y =>
          (Timeless.sure _).bind fun w => ih w

theorem load_timeless (a : Int64) (t : Ty) {β : Type} {k : Value → Exec β}
    (hk : ∀ v, Timeless (k v)) :
    Timeless (do let s ← get; let v ← lift (s.memory.load a t); k v) :=
  Timeless.get_bind (fun _ _ _ => rfl) fun _ => (Timeless.lift _).bind hk

/-- No instruction but a call takes time of its own. -/
theorem exec_timeless (f : Func) (fr : Frame) (i : Instr) :
    Timeless (exec ⟨[]⟩ refuse f fr i) := by
  cases i with
  | missing => exact Timeless.fail _
  | assign d v t => exact (eval_timeless fr v).bind fun _ => Timeless.pure _
  | cast d v t u => exact (eval_timeless fr v).bind fun _ => Timeless.pure _
  | unary op d v =>
      exact (scalar_timeless fr v).bind fun _ =>
        (Timeless.lift _).bind fun _ => Timeless.pure _
  | binary op d l r =>
      exact (eval_timeless fr l).bind fun _ =>
        (eval_timeless fr r).bind fun _ =>
        (Timeless.lift _).bind fun _ => Timeless.pure _
  | call ds callee args sig =>
      cases callee <;> exact Timeless.fail _
  | frameAlloc d t =>
      exact (Timeless.need _).bind fun _ =>
        (alloc_timeless _).bind fun _ => Timeless.pure _
  | addressOf d v =>
      refine (eval_timeless fr _).bind fun _ =>
        (alloc_timeless _).bind fun _ => ?_
      exact (Timeless.modify fun _ _ _ => rfl).bind fun _ => Timeless.pure _
  | elementPtr d base off =>
      exact (scalar_timeless fr base).bind fun _ =>
        (scalar_timeless fr off).bind fun _ =>
        Timeless.pure _
  | load d t address =>
      exact (scalar_timeless fr address).bind fun _ =>
        load_timeless _ _ fun _ => Timeless.pure _
  | store address v t =>
      exact (scalar_timeless fr address).bind fun _ =>
        (eval_timeless fr v).bind fun _ =>
        (store_timeless _ _ _).bind fun _ => Timeless.pure _
  | debug message vs =>
      refine (Timeless.mapM fun v _ => eval_timeless fr v).bind fun _ => ?_
      exact (Timeless.modify fun _ _ _ => rfl).bind fun _ => Timeless.pure _
  | nop => exact Timeless.pure _
  | phi d t ss => exact Timeless.fail _
  | makeTuple d es ts =>
      exact (Timeless.mapM fun v _ => eval_timeless fr v).bind
        fun _ => Timeless.pure _
  | makeStruct d fs r =>
      exact (putFields_timeless fr r fs _).bind fun _ => Timeless.pure _
  | extractTuple d v j t =>
      refine (eval_timeless fr v).bind fun _ => ?_
      split
      · split
        · exact Timeless.fail _
        · exact (Timeless.sure _).bind fun _ => Timeless.pure _
      · exact Timeless.fail _
  | extractField d v n t =>
      refine (eval_timeless fr v).bind fun _ => ?_
      split
      · exact Timeless.fail _
      · split
        · exact Timeless.fail _
        · exact (Timeless.sure _).bind fun _ => Timeless.pure _
  | insertTuple d agg j v ts =>
      refine (eval_timeless fr agg).bind fun _ =>
        (eval_timeless fr v).bind fun _ => ?_
      split
      · exact Timeless.fail _
      · exact (Timeless.sure _).bind fun _ => Timeless.pure _
  | insertField d agg n v r =>
      refine (eval_timeless fr agg).bind fun _ =>
        (eval_timeless fr v).bind fun _ => ?_
      split
      · exact Timeless.fail _
      · exact (Timeless.sure _).bind fun _ => Timeless.pure _
  | makeArray d es t =>
      refine (Timeless.need _).bind fun stride =>
        (alloc_timeless _).bind fun a => ?_
      exact (storeElems_timeless fr t stride es a).bind fun _ => Timeless.pure _

/-- No instruction but a call asks for other functions. -/
theorem exec_alone (m : Module) (caller : Caller) (f : Func)
    (fr : Frame) {i : Instr}
    (h : ∀ ds callee args sig, i ≠ .call ds callee args sig) :
    exec m caller f fr i = exec ⟨[]⟩ refuse f fr i := by
  cases i with
  | call ds callee args sig => exact absurd rfl (h ds callee args sig)
  | _ => rfl

-- ============================================================== assignment

/-- The operands have the same values in both frames. -/
def Agree (fr fr' : Frame) (os : List Operand) : Prop :=
  ∀ o ∈ os, look fr o = look fr' o

/-- Frames that agree on some values agree on the operands made of them. -/
theorem agree_of_ids {fr fr' : Frame} {os : List Operand}
    (h : ∀ v ∈ Operand.ids os, fr[v]? = fr'[v]?) : Agree fr fr' os := by
  intro o ho
  cases o with
  | value id => exact h id (List.mem_filterMap.mpr ⟨_, ho, rfl⟩)
  | _ => rfl

-- What a routine answers depends on the operands it evaluates only.
theorem eval_congr {fr fr' : Frame} {o : Operand} (h : look fr o = look fr' o) :
    eval fr o = eval fr' o := by
  cases o with
  | value id =>
      have h : fr[id]? = fr'[id]? := h
      unfold eval
      dsimp only
      rw [h]
  | _ => rfl

theorem scalar_congr {fr fr' : Frame} {o : Operand}
    (h : look fr o = look fr' o) : scalar fr o = scalar fr' o := by
  unfold scalar
  rw [eval_congr h]

theorem mapM_eval_congr {fr fr' : Frame} {os : List Operand}
    (h : Agree fr fr' os) : os.mapM (eval fr) = os.mapM (eval fr') := by
  induction os with
  | nil => rfl
  | cons o os ih =>
      rw [List.mapM_cons, List.mapM_cons, eval_congr (h o List.mem_cons_self),
        ih fun p hp => h p (List.mem_cons_of_mem _ hp)]

theorem mapM_look_congr {fr fr' : Frame} {os : List Operand}
    (h : Agree fr fr' os) : os.mapM (look fr) = os.mapM (look fr') := by
  induction os with
  | nil => rfl
  | cons o os ih =>
      rw [List.mapM_cons, List.mapM_cons, h o List.mem_cons_self,
        ih fun p hp => h p (List.mem_cons_of_mem _ hp)]

theorem putFields_congr {fr fr' : Frame} {r : Record}
    {fs : List (String × Operand)}
    (h : Agree fr fr' (fs.map (·.2))) (v : Value) :
    putFields fr r fs v = putFields fr' r fs v := by
  induction fs generalizing v with
  | nil => rfl
  | cons x fs ih =>
      obtain ⟨n, x⟩ := x
      unfold putFields
      rw [eval_congr (h x List.mem_cons_self)]
      simp only [ih fun p hp => h p (List.mem_cons_of_mem _ hp)]

theorem storeElems_congr {fr fr' : Frame} {t : Ty} {stride : Int64}
    {es : List Operand} (h : Agree fr fr' es) (a : Int64) :
    storeElems fr t stride a es = storeElems fr' t stride a es := by
  induction es generalizing a with
  | nil => rfl
  | cons e es ih =>
      unfold storeElems
      rw [eval_congr (h e List.mem_cons_self)]
      simp only [ih fun p hp => h p (List.mem_cons_of_mem _ hp)]

/-- In a frame that agrees on the operands, control goes the same way. -/
theorem nextOf_congr {fr fr' : Frame} {t : Terminator}
    (h : Agree fr fr' t.operands) :
    nextOf fr (some t) = nextOf fr' (some t) := by
  cases t with
  | jump b => rfl
  | unreachable => rfl
  | branch c b e => simp only [nextOf, lookScalar, h c List.mem_cons_self]
  | branchCmp op l r b e =>
      simp only [nextOf, lookTest, h l List.mem_cons_self,
        h r (List.mem_cons_of_mem _ List.mem_cons_self)]
  | ret vs =>
      simp only [nextOf]
      rw [show vs.mapM (look fr) = _ from mapM_look_congr h]

/-- Phis take the same values in frames that agree on their sources. -/
theorem phiLooks_congr {fr fr' : Frame} {prev : BlockId} {is : List Instr}
    (h : ∀ i ∈ is, Agree fr fr' i.operands) :
    phiLooks fr' prev is = phiLooks fr prev is := by
  induction is with
  | nil => rfl
  | cons i is ih =>
      cases i with
      | phi d t ss =>
          rw [phiLooks_cons, phiLooks_cons,
            ih fun j hj => h j (List.mem_cons_of_mem _ hj)]
          cases hs : ss.find? (·.block = prev) with
          | none => rfl
          | some s =>
              have hmem : s.value ∈ ss.map (·.value) :=
                List.mem_map.mpr ⟨s, List.mem_of_find?_eq_some hs, rfl⟩
              rw [Option.map_some, Option.bind_some, Option.bind_some,
                h _ List.mem_cons_self s.value hmem]
      | _ => rfl

/-- Where the first step assigns values to `ds` in one frame, the second assigns
the same values in the other and does the same to the machine. -/
def Sets (ds : List ValueId) (fr fr' : Frame) (x y : Exec Frame) : Prop :=
  ∀ s r t, x s = .ok r t → ∃ vs, vs.length = ds.length
    ∧ r = insertAll fr (ds.zip vs)
    ∧ y s = .ok (insertAll fr' (ds.zip vs)) t

namespace Sets

variable {α : Type} {ds : List ValueId} {fr fr' : Frame}

-- The ways in which an instruction sets values in two frames alike.
theorem fail {e : RunError} {y : Exec Frame} : Sets ds fr fr' (failWith e) y :=
  fun _ _ _ h => absurd h failWith_ne_ok

theorem none : Sets [] fr fr' (pure fr) (pure fr') := by
  intro s r t h
  obtain ⟨rfl, rfl⟩ := pure_ok_iff.mp h
  exact ⟨[], rfl, rfl, rfl⟩

theorem one (d : ValueId) (v : Value) :
    Sets [d] fr fr' (pure (fr.insert d v)) (pure (fr'.insert d v)) := by
  intro s r t h
  obtain ⟨rfl, rfl⟩ := pure_ok_iff.mp h
  exact ⟨[v], rfl, rfl, rfl⟩

theorem bind {x y : Exec α} {k k' : α → Exec Frame} (hxy : x = y)
    (h : ∀ a, Sets ds fr fr' (k a) (k' a)) :
    Sets ds fr fr' (x >>= k) (y >>= k') := by
  subst hxy
  intro s r t hx
  obtain ⟨a, s₁, h₁, h₂⟩ := bind_ok_iff.mp hx
  obtain ⟨vs, hlen, hr, hk⟩ := h a s₁ r t h₂
  exact ⟨vs, hlen, hr, bind_ok_iff.mpr ⟨a, s₁, h₁, hk⟩⟩

end Sets

/-- In a frame that agrees on the operands, an instruction assigns the same
values. -/
theorem exec_sets {f g : Func} {fr fr' : Frame} {i : Instr}
    (ha : Agree fr fr' i.operands)
    (ht : ∀ o ∈ i.operands, g.operandType o = f.operandType o) :
    Sets i.dests fr fr' (exec ⟨[]⟩ refuse f fr i)
      (exec ⟨[]⟩ refuse g fr' i) := by
  have he (o : Operand) (ho : o ∈ i.operands) : eval fr o = eval fr' o :=
    eval_congr (ha o ho)
  have hs (o : Operand) (ho : o ∈ i.operands) : scalar fr o = scalar fr' o :=
    scalar_congr (ha o ho)
  cases i with
  | missing => exact Sets.fail
  | phi d t ss => exact Sets.fail
  | call ds callee args sig => cases callee <;> exact Sets.fail
  | nop => exact Sets.none
  | assign d v t => exact Sets.bind (he v List.mem_cons_self) fun x => Sets.one d x
  | cast d v t u => exact Sets.bind (he v List.mem_cons_self) fun x => Sets.one d x
  | unary op d v =>
      exact Sets.bind (hs v List.mem_cons_self) fun x =>
        Sets.bind rfl fun y => Sets.one d _
  | binary op d l r =>
      refine Sets.bind (he l List.mem_cons_self) fun x => ?_
      refine Sets.bind (he r (List.mem_cons_of_mem _ List.mem_cons_self))
        fun y => ?_
      exact Sets.bind rfl fun z => Sets.one d _
  | frameAlloc d t => exact Sets.bind rfl fun n => Sets.bind rfl fun a => Sets.one d _
  | addressOf d v =>
      refine Sets.bind (he (.value v) List.mem_cons_self) fun x =>
        Sets.bind rfl fun a => ?_
      exact Sets.bind rfl fun _ => Sets.one d _
  | elementPtr d base off =>
      refine Sets.bind (hs base List.mem_cons_self) fun a => ?_
      exact Sets.bind (hs off (List.mem_cons_of_mem _ List.mem_cons_self))
        fun n => Sets.one d _
  | load d t address =>
      refine Sets.bind (hs address List.mem_cons_self) fun a =>
        Sets.bind rfl fun s => ?_
      exact Sets.bind rfl fun v => Sets.one d _
  | store address v t =>
      have hv :=
        List.mem_cons_of_mem address (List.mem_cons_self (a := v) (l := []))
      refine Sets.bind (hs address List.mem_cons_self) fun a =>
        Sets.bind (he v hv) fun x => ?_
      exact Sets.bind (by rw [ht v hv]) fun _ => Sets.none
  | debug message vs =>
      exact Sets.bind (mapM_eval_congr ha) fun xs =>
        Sets.bind rfl fun _ => Sets.none
  | makeTuple d es ts => exact Sets.bind (mapM_eval_congr ha) fun xs => Sets.one d _
  | makeStruct d fs r => exact Sets.bind (putFields_congr ha _) fun x => Sets.one d _
  | extractTuple d v j t =>
      have hv := List.mem_cons_self (a := v) (l := [])
      refine Sets.bind (he v hv) fun x => ?_
      rw [ht v hv]
      split
      · split
        · exact Sets.fail
        · exact Sets.bind rfl fun y => Sets.one d _
      · exact Sets.fail
  | extractField d v n t =>
      have hv := List.mem_cons_self (a := v) (l := [])
      refine Sets.bind (he v hv) fun x => ?_
      rw [ht v hv]
      split
      · exact Sets.fail
      · split
        · exact Sets.fail
        · exact Sets.bind rfl fun y => Sets.one d _
  | insertTuple d agg j v ts =>
      refine Sets.bind (he agg List.mem_cons_self) fun x => ?_
      refine Sets.bind (he v (List.mem_cons_of_mem _ List.mem_cons_self))
        fun y => ?_
      split
      · exact Sets.fail
      · exact Sets.bind rfl fun z => Sets.one d _
  | insertField d agg n v r =>
      refine Sets.bind (he agg List.mem_cons_self) fun x => ?_
      refine Sets.bind (he v (List.mem_cons_of_mem _ List.mem_cons_self))
        fun y => ?_
      split
      · exact Sets.fail
      · exact Sets.bind rfl fun z => Sets.one d _
  | makeArray d es t =>
      refine Sets.bind rfl fun stride => Sets.bind rfl fun a => ?_
      exact Sets.bind (storeElems_congr ha a) fun _ => Sets.one d _

section Effects

variable {f : Func} {fr fr₁ : Frame} {s s' : Machine}

-- ============================================================= computation

-- For each kind of instruction, when it succeeds and what it leaves.
theorem exec_assign_ok_iff {d : ValueId} {v : Operand} {t : Ty} :
    exec ⟨[]⟩ refuse f fr (.assign d v t) s = .ok fr₁ s'
        ↔ ∃ x, look fr v = some x
      ∧ fr₁ = fr.insert d x ∧ s' = s := by
  show (eval fr v >>= fun x => pure (fr.insert d x)) s = _ ↔ _
  simp only [bind_ok_iff, eval_ok_iff, pure_ok_iff]
  constructor
  · rintro ⟨x, _, ⟨hx, rfl⟩, rfl, rfl⟩
    exact ⟨x, hx, rfl, rfl⟩
  · rintro ⟨x, hx, rfl, rfl⟩
    exact ⟨x, s', ⟨hx, rfl⟩, rfl, rfl⟩

theorem exec_unary_ok_iff {op : UnaryOp} {d : ValueId} {v : Operand} :
    exec ⟨[]⟩ refuse f fr (.unary op d v) s = .ok fr₁ s'
        ↔ ∃ x ys, lookScalar fr v = some x
      ∧ unaryOp op x = .ok ys ∧ fr₁ = fr.insert d ⟨ys, 0⟩ ∧ s' = s := by
  show (scalar fr v >>= fun x => lift (unaryOp op x)
    >>= fun ys => pure (fr.insert d ⟨ys, 0⟩)) s
    = _ ↔ _
  simp only [bind_ok_iff, scalar_ok_iff, lift_ok_iff, pure_ok_iff,
    lookScalar_eq_some]
  constructor
  · rintro ⟨x, _, ⟨hx, rfl⟩, ys, _, ⟨hys, rfl⟩, rfl, rfl⟩
    exact ⟨x, ys, hx, hys, rfl, rfl⟩
  · rintro ⟨x, ys, hx, hys, rfl, rfl⟩
    exact ⟨x, s', ⟨hx, rfl⟩, ys, s', ⟨hys, rfl⟩, rfl, rfl⟩

theorem exec_binary_ok_iff {op : BinaryOp} {d : ValueId} {l r : Operand} :
    exec ⟨[]⟩ refuse f fr (.binary op d l r) s = .ok fr₁ s'
        ↔ ∃ x y zs, look fr l = some x
      ∧ look fr r = some y ∧ binaryOp op x.slots y.slots = .ok zs
      ∧ fr₁ = fr.insert d ⟨zs, 0⟩
      ∧ s' = s := by
  show (eval fr l >>= fun x => eval fr r >>= fun y =>
    lift (binaryOp op x.slots y.slots) >>=
    fun zs => pure (fr.insert d ⟨zs, 0⟩)) s = _ ↔ _
  simp only [bind_ok_iff, eval_ok_iff, lift_ok_iff, pure_ok_iff]
  constructor
  · rintro ⟨x, _, ⟨hx, rfl⟩, y, _, ⟨hy, rfl⟩, zs, _, ⟨hzs, rfl⟩, rfl, rfl⟩
    exact ⟨x, y, zs, hx, hy, hzs, rfl, rfl⟩
  · rintro ⟨x, y, zs, hx, hy, hzs, rfl, rfl⟩
    exact ⟨x, s', ⟨hx, rfl⟩, y, s', ⟨hy, rfl⟩, zs, s', ⟨hzs, rfl⟩, rfl, rfl⟩

theorem exec_elementPtr_ok_iff {d : ValueId} {l r : Operand} :
    exec ⟨[]⟩ refuse f fr (.elementPtr d l r) s = .ok fr₁ s'
        ↔ ∃ x y, lookScalar fr l = some x
      ∧ lookScalar fr r = some y ∧ fr₁ = fr.insert d ⟨[x + y], 0⟩ ∧ s' = s := by
  show (scalar fr l >>= fun x => scalar fr r
    >>= fun y => pure (fr.insert d ⟨[x + y], 0⟩)) s = _ ↔ _
  simp only [bind_ok_iff, scalar_ok_iff, pure_ok_iff, lookScalar_eq_some]
  constructor
  · rintro ⟨x, _, ⟨hx, rfl⟩, y, _, ⟨hy, rfl⟩, rfl, rfl⟩
    exact ⟨x, y, hx, hy, rfl, rfl⟩
  · rintro ⟨x, y, hx, hy, rfl, rfl⟩
    exact ⟨x, s', ⟨hx, rfl⟩, y, s', ⟨hy, rfl⟩, rfl, rfl⟩

-- ===================================================== memory and trace

/-- What a load gives. -/
theorem exec_load_ok_iff {d : ValueId} {t : Ty} {address : Operand} :
    exec ⟨[]⟩ refuse f fr (.load d t address) s = .ok fr₁ s'
        ↔ ∃ a v, lookScalar fr address = some a
      ∧ s.memory.load a t = .ok v ∧ fr₁ = fr.insert d v ∧ s' = s := by
  show (scalar fr address >>= fun a => get
    >>= fun s₀ => lift (s₀.memory.load a t) >>= fun v =>
    pure (fr.insert d v)) s = _ ↔ _
  simp only [bind_ok_iff, scalar_ok_iff, lift_ok_iff, pure_ok_iff,
    lookScalar_eq_some]
  constructor
  · rintro ⟨a, _, ⟨ha, rfl⟩, s₀, _, hget, v, _, ⟨hv, rfl⟩, rfl, rfl⟩
    cases hget
    exact ⟨a, v, ha, hv, rfl, rfl⟩
  · rintro ⟨a, v, ha, hv, rfl, rfl⟩
    exact ⟨a, _, ⟨ha, rfl⟩, _, _, rfl, v, _, ⟨hv, rfl⟩, rfl, rfl⟩

/-- Storing changes the memory of the machine and nothing else. -/
theorem store_ok_iff {a : Int64} {t : Ty} {x : Value} {u : Unit} :
    store a t x s = .ok u s'
        ↔ ∃ memory, Memory.store a t x s.memory = .ok () memory
      ∧ s' = { s with memory } := by
  unfold store
  cases Memory.store a t x s.memory with
  | ok y memory =>
      constructor
      · intro h
        cases h
        exact ⟨memory, rfl, rfl⟩
      · rintro ⟨memory', hm, rfl⟩
        cases hm
        rfl
  | error e memory =>
      constructor
      · intro h
        cases h
      · rintro ⟨memory', hm, -⟩
        cases hm

/-- What a store does. -/
theorem exec_store_ok_iff {t : Ty} {address v : Operand} :
    exec ⟨[]⟩ refuse f fr (.store address v t) s = .ok fr₁ s' ↔ ∃ a x memory,
      lookScalar fr address = some a ∧ look fr v = some x
      ∧ Memory.store a (if t.isMissing then f.operandType v else t) x s.memory
      = .ok () memory
      ∧ fr₁ = fr ∧ s' = { s with memory } := by
  show (scalar fr address >>= fun a => eval fr v >>= fun x =>
    store a (if t.isMissing then f.operandType v else t) x
      >>= fun _ => pure fr) s = _ ↔ _
  simp only [bind_ok_iff, scalar_ok_iff, eval_ok_iff, pure_ok_iff,
    lookScalar_eq_some, store_ok_iff]
  constructor
  · rintro ⟨a, _, ⟨ha, rfl⟩, x, _, ⟨hx, rfl⟩, _, _, ⟨memory, hm, rfl⟩, rfl, rfl⟩
    exact ⟨a, x, memory, ha, hx, hm, rfl, rfl⟩
  · rintro ⟨a, x, memory, ha, hx, hm, rfl, rfl⟩
    exact ⟨a, _, ⟨ha, rfl⟩, x, _, ⟨hx, rfl⟩, (), _, ⟨memory, hm, rfl⟩, rfl, rfl⟩

/-- Asking for what may be missing changes nothing. -/
theorem need_ok_iff {α : Type} {x : Option α} {a : α} :
    need x s = .ok a s' ↔ x = some a ∧ s = s' := by
  unfold need
  rw [sure_ok_iff]
  cases x <;> simp

/-- Allocating changes the memory of the machine and nothing else. -/
theorem alloc_ok_iff {n a : Int64} :
    alloc n s = .ok a s' ↔ ∃ memory, s.memory.alloc n = .ok (a, memory)
      ∧ s' = { s with memory } := by
  show (get >>= fun s₀ => sure (s₀.memory.alloc n) >>= fun x =>
    set { s₀ with memory := x.2 } >>= fun _ => pure x.1) s = _ ↔ _
  simp only [bind_ok_iff, sure_ok_iff, pure_ok_iff]
  constructor
  · rintro ⟨s₀, _, hget, x, _, ⟨hx, rfl⟩, _, _, hset, rfl, rfl⟩
    cases hget
    cases hset
    exact ⟨x.2, hx, rfl⟩
  · rintro ⟨memory, hm, rfl⟩
    exact ⟨s, s, rfl, (a, memory), s, ⟨hm, rfl⟩, (), _, rfl, rfl, rfl⟩

/-- What reserving memory does. -/
theorem exec_frameAlloc_ok_iff {d : ValueId} {t : Ty} :
    exec ⟨[]⟩ refuse f fr (.frameAlloc d t) s = .ok fr₁ s'
        ↔ ∃ n a memory, t.size = some n
      ∧ s.memory.alloc n = .ok (a, memory) ∧ fr₁ = fr.insert d ⟨[a], 0⟩
      ∧ s' = { s with memory } := by
  show (need t.size >>= fun n => alloc n >>= fun a =>
    pure (fr.insert d ⟨[a], 0⟩)) s = _ ↔ _
  simp only [bind_ok_iff, need_ok_iff, alloc_ok_iff, pure_ok_iff]
  constructor
  · rintro ⟨n, _, ⟨hn, rfl⟩, a, _, ⟨memory, hm, rfl⟩, rfl, rfl⟩
    exact ⟨n, a, memory, hn, hm, rfl, rfl⟩
  · rintro ⟨n, a, memory, hn, hm, rfl, rfl⟩
    exact ⟨n, _, ⟨hn, rfl⟩, a, _, ⟨memory, hm, rfl⟩, rfl, rfl⟩

/-- What taking the address of a value does: the memory that is handed out holds
a copy of it. -/
theorem exec_addressOf_ok_iff {d v : ValueId} :
    exec ⟨[]⟩ refuse f fr (.addressOf d v) s = .ok fr₁ s'
        ↔ ∃ x a memory, look fr (.value v) = some x
      ∧ s.memory.alloc (Int64.ofNat x.slots.length) = .ok (a, memory)
      ∧ fr₁ = fr.insert d ⟨[a], 0⟩
      ∧ s' = { s with memory := memory.write a.toInt.toNat x.slots } := by
  show (eval fr (.value v)
    >>= fun x => alloc (Int64.ofNat x.slots.length) >>= fun a =>
    modify (fun s => { s with memory := s.memory.write a.toInt.toNat x.slots })
      >>= fun _ =>
      pure (fr.insert d ⟨[a], 0⟩)) s = _ ↔ _
  simp only [bind_ok_iff, eval_ok_iff, alloc_ok_iff, pure_ok_iff]
  constructor
  · rintro ⟨x, _, ⟨hx, rfl⟩, a, _, ⟨memory, hm, rfl⟩, _, _, hset, rfl, rfl⟩
    cases hset
    exact ⟨x, a, memory, hx, hm, rfl, rfl⟩
  · rintro ⟨x, a, memory, hx, hm, rfl, rfl⟩
    exact ⟨x, _, ⟨hx, rfl⟩, a, _, ⟨memory, hm, rfl⟩, (), _, rfl, rfl, rfl⟩

/-- What a debug message does. -/
theorem exec_debug_ok_iff {message : List UInt8} {vs : List Operand} :
    exec ⟨[]⟩ refuse f fr (.debug message vs) s = .ok fr₁ s' ↔ ∃ xs, vs.mapM
      (look fr) = some xs
      ∧ fr₁ = fr
      ∧ s' = { s with trace := ⟨message, xs.map (·.slots)⟩ :: s.trace } := by
  show (vs.mapM (eval fr) >>= fun values => modify (fun s =>
    { s with trace := ⟨message, values.map (·.slots)⟩ :: s.trace })
    >>= fun _ => pure fr) s = _ ↔ _
  simp only [bind_ok_iff, mapM_eval_ok_iff, pure_ok_iff]
  constructor
  · rintro ⟨xs, _, ⟨hxs, rfl⟩, _, _, hset, rfl, rfl⟩
    cases hset
    exact ⟨xs, hxs, rfl, rfl⟩
  · rintro ⟨xs, hxs, rfl, rfl⟩
    exact ⟨xs, _, ⟨hxs, rfl⟩, (), _, rfl, rfl, rfl⟩

end Effects

end MirBackend.Interp
