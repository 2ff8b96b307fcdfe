/-
Functions of a module by number and by name.

When a function is put in the place of another, the other functions stay as they
are, under their numbers; if the new function has the name of the old one, every
name stands for the number it stood for. Where all names differ, each stands for
the function that has it.
-/
import Mathlib
import MirBackend.Func

namespace MirBackend.Module

variable {m : Module} {i : Nat} {f g : Func}

-- A module after one of its functions is replaced.
theorem func?_setFunc_self (hf : m.func? i = some f) :
    (m.setFunc i g).func? i = some g := by
  have hlt : i < m.functions.length := (List.getElem?_eq_some_iff.mp hf).1
  show (m.functions.set i g)[i]? = some g
  rw [List.getElem?_set_self hlt]

theorem func?_setFunc_of_ne {k : FuncId} (h : k ≠ i) :
    (m.setFunc i g).func? k = m.func? k := by
  cases k with
  | ofNat j =>
      show (m.functions.set i g)[j]? = m.functions[j]?
      rw [List.getElem?_set_ne fun heq => h (by rw [heq]; rfl)]
  | negSucc j => rfl

theorem setFunc_self (hf : m.func? i = some f) : m.setFunc i f = m := by
  obtain ⟨hlt, rfl⟩ := List.getElem?_eq_some_iff.mp hf
  show Module.mk (m.functions.set i m.functions[i]) = m
  rw [List.set_getElem_self]

@[simp] theorem setFunc_setFunc (m : Module) (i : Nat) (f g : Func) :
    (m.setFunc i f).setFunc i g = m.setFunc i g := by
  show Module.mk ((m.functions.set i f).set i g) = _
  rw [List.set_set]
  rfl

/-- A name stands for a function by the list of names alone. -/
theorem lookup_eq_names (m : Module) (name : String) :
    m.lookup name
        = ((m.functions.map (·.name)).zipIdx.reverse.find? (·.1 == name)).map
      fun x => (x.2 : Int) := by
  unfold lookup
  rw [List.zipIdx_map, ← List.map_reverse, List.find?_map, Option.map_map]
  rfl

/-- A function of the same name is found by the same names. -/
theorem lookup_setFunc (hf : m.func? i = some f)
    (hname : g.name = f.name) (name : String) :
    (m.setFunc i g).lookup name = m.lookup name := by
  have hnames : (m.setFunc i g).functions.map (·.name)
      = m.functions.map (·.name) := by
    show (m.functions.set i g).map (·.name) = _
    rw [List.map_set, hname, ← List.map_set]
    exact congrArg (fun m : Module => m.functions.map (·.name))
      (setFunc_self hf)
  rw [lookup_eq_names, lookup_eq_names, hnames]

/-- A name that one function has stands for it. -/
theorem lookup_of_nodup (hm : (m.functions.map Func.name).Nodup) {id : FuncId}
    (h : m.func? id = some g) : m.lookup g.name = some id := by
  match id with
  | .negSucc n => cases h
  | .ofNat i =>
      have hi : m.functions[i]? = some g := h
      have hmem : (g, i) ∈ m.functions.zipIdx.reverse := by
        rw [List.mem_reverse, List.mem_zipIdx_iff_getElem?]
        exact hi
      cases hfind : m.functions.zipIdx.reverse.find? (·.1.name == g.name) with
      | none => exact absurd (List.find?_eq_none.mp hfind (g, i) hmem) (by simp)
      | some x =>
          obtain ⟨g', j⟩ := x
          have hj := List.mem_of_find?_eq_some hfind
          rw [List.mem_reverse, List.mem_zipIdx_iff_getElem?] at hj
          have hname : g'.name = g.name := by simpa using List.find?_some hfind
          have hij : j = i := by
            refine (List.getElem?_inj (i := j) (j := i) ?_ hm).mp ?_
            · rw [List.length_map]
              exact (List.getElem?_eq_some_iff.mp hj).1
            · rw [List.getElem?_map, List.getElem?_map, hi, hj, Option.map_some,
                Option.map_some, hname]
          rw [Module.lookup, hfind, hij]
          rfl

/-- A function that a number stands for is one of the module's. -/
theorem mem_of_func? {id : FuncId} (h : m.func? id = some g) :
    g ∈ m.functions := by
  match id with
  | .negSucc n => cases h
  | .ofNat i => exact List.mem_of_getElem? h

end MirBackend.Module
