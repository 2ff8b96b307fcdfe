/-
Instructions one after the other.

Instructions of which none is a call run the same way anywhere (`Site`): each
takes a step, and what they make of the frame and of the memory does not depend
on the clock. A run of several is a run of the first ones and then of the
others (`Site.Runs.append`). Where they only compute, the memory stays and the
frame changes in what they define (`Computes`).
-/
import Mathlib
import MirBackend.Proofs.Interp.Frame
import MirBackend.Proofs.Interp.Instr
import MirBackend.Proofs.Interp.Returns
import MirBackend.Proofs.Words

namespace MirBackend.Interp

/-- Where instructions are run: the module, what calls do, the function and the
block. -/
structure Site where
  module : Module
  caller : Caller
  func : Func
  block : BlockId

variable {c : Site} {is js : List Instr} {i : Instr} {fr fr₁ fr₂ : Frame}
  {mem mem₁ mem₂ : Memory}

namespace Site

/-- Run instructions, the first of which is the `j`-th of the block. -/
def run (c : Site) (j : Nat) (is : List Instr) (fr : Frame) : Exec Frame :=
  execAll c.module c.caller c.func c.block j is fr

/-- From one frame and memory the instructions lead to others, in as many steps
as there are instructions. -/
def Runs (c : Site) (is : List Instr) (fr : Frame) (mem : Memory)
    (fr₁ : Frame) (mem₁ : Memory) : Prop :=
  ∀ j (s : Machine), s.memory = mem → (s.steps : Int) + is.length ≤ s.limit →
    c.run j is fr s
      = .ok fr₁ { s with memory := mem₁, steps := s.steps + is.length }

/-- One instruction more: a step is counted, and errors are reported under its
place. -/
theorem run_cons (c : Site) (j : Nat) (i : Instr)
    (is : List Instr) (fr : Frame) : c.run j (i :: is) fr = tick >>= fun _ =>
      under ("block " ++ blockText c.block ++ ": instr " ++ toString j)
        (exec c.module c.caller c.func fr i) >>= fun fr => c.run
        (j + 1) is fr := by
  rw [run, execAll]
  rfl

/-- Instructions in a row run one after the other. -/
theorem run_append (c : Site) (j : Nat) (is js : List Instr) (fr : Frame) :
    c.run j (is ++ js) fr = c.run j is fr >>= fun fr => c.run
      (j + is.length) js fr := by
  induction is generalizing j fr with
  | nil => rfl
  | cons i is ih =>
      rw [List.cons_append, run_cons, run_cons, bind_assoc]
      refine congrArg _ (funext fun _ => ?_)
      rw [bind_assoc]
      refine congrArg _ (funext fun fr => ?_)
      rw [ih, List.length_cons, Nat.add_right_comm, Nat.add_assoc]

-- Running and computing follow each other.
theorem Runs.nil : c.Runs [] fr mem fr mem := by
  rintro j s rfl -
  rfl

theorem Runs.append (h : c.Runs is fr mem fr₁ mem₁)
    (h' : c.Runs js fr₁ mem₁ fr₂ mem₂) : c.Runs (is ++ js) fr mem fr₂ mem₂ := by
  intro j s hs hsteps
  rw [List.length_append, Nat.cast_add] at hsteps
  rw [run_append]
  refine bind_ok_iff.mpr ⟨_, _, h j s hs (by omega), ?_⟩
  rw [h' _ _ rfl (by dsimp only; rw [Nat.cast_add]; omega),
    List.length_append, Nat.add_assoc]

/-- An instruction that is no call, run alone. -/
theorem Runs.one (hcall : ∀ ds callee args sig, i ≠ .call ds callee args sig)
    (h : ∀ s : Machine, s.memory = mem →
      exec ⟨[]⟩ refuse c.func fr i s = .ok fr₁ { s with memory := mem₁ }) :
    c.Runs [i] fr mem fr₁ mem₁ := by
  intro j s hs hsteps
  refine execAll_cons_ok_iff.mpr ⟨by simpa using hsteps, fr₁, _, ?_, rfl⟩
  rw [exec_alone _ _ _ _ hcall]
  exact h _ hs

/-- A load. -/
theorem Runs.load {d : ValueId} {t : Ty} {o : Operand} {a : Int64} {v : Value}
    (ha : lookScalar fr o = some a) (hv : mem.load a t = .ok v) :
    c.Runs [.load d t o] fr mem (fr.insert d v) mem :=
  .one nofun fun s hs => exec_load_ok_iff.mpr ⟨a, v, ha, by rw [hs]; exact hv,
    rfl, by rw [← hs]⟩

/-- A store. -/
theorem Runs.store {t : Ty} {o x : Operand} {a : Int64} {v : Value}
    (ht : t ≠ .missing) (ha : lookScalar fr o = some a)
    (hx : look fr x = some v) (hm : Memory.store a t v mem = .ok () mem₁) :
    c.Runs [.store o x t] fr mem fr mem₁ := by
  refine .one nofun fun s hs => exec_store_ok_iff.mpr ⟨a, v, mem₁,
    ha, hx, ?_, rfl, rfl⟩
  rw [Ty.isMissing_eq_false ht, hs]
  exact hm

/-- Taking a component out of a tuple. -/
theorem Runs.extractTuple {d : ValueId} {o : Operand} {j : Int}
    {t : Ty} {x z : Value} {ts : List Ty} {off : Int64}
    (hx : look fr o = some x) (ht : c.func.operandType o = .tuple ts)
    (hoff : Ty.tupleOffset ts j = some off)
    (hz : x.part off (ts.getD j.toNat .missing).slots = .ok z) :
    c.Runs [.extractTuple d o j t] fr mem (fr.insert d z) mem := by
  refine .one nofun fun s hs => ?_
  rw [exec, ← hs]
  refine bind_ok_iff.mpr ⟨x, s, eval_ok_iff.mpr ⟨hx, rfl⟩, ?_⟩
  simp only [ht, hoff]
  exact bind_ok_iff.mpr ⟨z, s, sure_ok_iff.mpr ⟨hz, rfl⟩, rfl⟩

/-- Taking a field out of a struct. -/
theorem Runs.extractField {d : ValueId} {o : Operand} {n : String}
    {t : Ty} {x z : Value} {r : Record} {f : TyField} (hx : look fr o = some x)
    (hr : (c.func.operandType o).asRecord = some r) (hf : r.field? n = some f)
    (hz : x.part f.offset f.type.slots = .ok z) :
    c.Runs [.extractField d o n t] fr mem (fr.insert d z) mem := by
  refine .one nofun fun s hs => ?_
  rw [exec, ← hs]
  refine bind_ok_iff.mpr ⟨x, s, eval_ok_iff.mpr ⟨hx, rfl⟩, ?_⟩
  simp only [hr, hf]
  exact bind_ok_iff.mpr ⟨z, s, sure_ok_iff.mpr ⟨hz, rfl⟩, rfl⟩

end Site

-- ============================================================= computation

/-- Running the instructions computes values: from one frame they lead to the
other anywhere, the memory stays, also when steps run out, and the frames differ
only in what the instructions define. -/
structure Computes (is : List Instr) (fr fr₁ : Frame) : Prop where
  runs : ∀ (c : Site) mem, c.Runs is fr mem fr₁ mem
  ends : ∀ (c : Site) j s,
    (∃ s', c.run j is fr s = .ok fr₁ s' ∧ s'.memory = s.memory)
    ∨ ∃ e s', c.run j is fr s = .error e s' ∧ s'.memory = s.memory
  same : ∀ v, v ∉ is.flatMap Instr.dests → fr₁[v]? = fr[v]?

namespace Computes

theorem nil (fr : Frame) : Computes [] fr fr :=
  ⟨fun _ _ => .nil, fun _ _ s => Or.inl ⟨s, rfl, rfl⟩, fun _ _ => rfl⟩

theorem append (h : Computes is fr fr₁) (h' : Computes js fr₁ fr₂) :
    Computes (is ++ js) fr fr₂ := by
  refine ⟨fun c mem => (h.runs c mem).append (h'.runs c mem),
    fun c j s => ?_, fun v hv => ?_⟩
  · rw [Site.run_append]
    rcases h.ends c j s with ⟨s₁, hs₁, hmem⟩ | ⟨e, s₁, hs₁, hmem⟩
    · rw [bind_run, hs₁, ← hmem]
      exact h'.ends c _ s₁
    · rw [bind_run, hs₁]
      exact Or.inr ⟨e, s₁, rfl, hmem⟩
  · rw [List.flatMap_append, List.mem_append, not_or] at hv
    rw [h'.same v hv.2, h.same v hv.1]

/-- What the instructions do not define is looked up as before. -/
theorem look_eq (h : Computes is fr fr₁) {o : Operand}
    (ho : ∀ v, o = .value v → v ∉ is.flatMap Instr.dests) :
    look fr₁ o = look fr o := by
  cases o with
  | value v => exact h.same v (ho v rfl)
  | _ => rfl

/-- An operand that the instructions do not define gives what it gave. -/
theorem lookScalar_eq (h : Computes is fr fr₁) {o : Operand}
    (ho : ∀ v, o = .value v → v ∉ is.flatMap Instr.dests) :
    lookScalar fr₁ o = lookScalar fr o := by
  rw [lookScalar, lookScalar, h.look_eq ho]

/-- One instruction that assigns to what it defines. -/
theorem one {d : ValueId} {v : Value}
    (hcall : ∀ ds callee args sig, i ≠ .call ds callee args sig)
    (hdests : i.dests = [d])
    (h : ∀ f s, exec ⟨[]⟩ refuse f fr i s = .ok (fr.insert d v) s) :
    Computes [i] fr (fr.insert d v) := by
  refine ⟨fun c mem => .one hcall fun s hs => ?_,
    fun c j s => ?_, fun w hw => ?_⟩
  · rw [h, ← hs]
  · rw [Site.run_cons, bind_run, tick_run]
    by_cases hlate : ((s.steps + 1 : Nat) : Int) > s.limit
    · rw [if_pos hlate]
      exact Or.inr ⟨_, _, rfl, rfl⟩
    · refine Or.inl ⟨s.clocked (s.steps + 1) s.limit, ?_, rfl⟩
      rw [if_neg hlate]
      dsimp only
      rw [bind_run, exec_alone _ _ _ _ hcall, under, h]
      rfl
  · rw [List.flatMap_cons, hdests, List.flatMap_nil, List.append_nil,
      List.mem_singleton] at hw
    rw [getElem?_insert_frame, if_neg (Ne.symm hw)]

/-- An element's address is the sum of its operands. -/
theorem elementPtr {d : ValueId} {l r : Operand} {x y : Int64}
    (hx : lookScalar fr l = some x) (hy : lookScalar fr r = some y) :
    Computes [.elementPtr d l r] fr (fr.insert d ⟨[x + y], 0⟩) :=
  .one nofun rfl fun _ _ => exec_elementPtr_ok_iff.mpr ⟨x, y, hx, hy, rfl, rfl⟩

/-- A binary operation computes what its operator does. -/
theorem binary {op : BinaryOp} {d : ValueId} {l r : Operand}
    {x y : Value} {zs : Slots} (hx : look fr l = some x)
    (hy : look fr r = some y) (hz : binaryOp op x.slots y.slots = .ok zs) :
    Computes [.binary op d l r] fr (fr.insert d ⟨zs, 0⟩) :=
  .one nofun rfl fun _ _ => exec_binary_ok_iff.mpr ⟨x, y, zs,
    hx, hy, hz, rfl, rfl⟩

end Computes

/-- A word that was just set is found. -/
theorem lookScalar_insert_self (fr : Frame) (d : ValueId)
    (x : Int64) (n : Nat) :
    lookScalar (fr.insert d ⟨[x], n⟩) (.value d) = some x :=
  lookScalar_eq_some.mpr ⟨_, look_insert_self fr d _, rfl⟩

end MirBackend.Interp
