/-
Small functions that show the shapes of control flow: a diamond, loops with
the test at the top and at the bottom, a nested loop, a loop that swaps two
values, a diamond with critical edges, a computation nobody reads, and a call.
-/
import MirBackend.Func.Draft

namespace MirBackend.Sample

open Draft

/-- The function that a draft leaves behind. -/
def build (name : String) (returns : List Ty) (body : Drafting Unit) : Func :=
  match body (Draft.start { Func.named name with returns }) with
  | .ok _ d => d.func
  | .error _ d => d.func

/-- A further parameter of one field element. -/
def param : Drafting ValueId := take (·.newParam .felt)

/-- A phi over field elements. -/
def feltPhi (sources : List (BlockId × Operand)) : Drafting ValueId :=
  phi .felt (sources.map fun (b, v) => ⟨b, v⟩)

/-- One hundred if the argument is not zero, else two hundred. -/
def diamond : Func := build "diamond" [.felt] do
  let c ← param
  let onTrue ← block "then"
  let onFalse ← block "else"
  let merge ← block "merge"
  branch (.value c) onTrue onFalse
  setBlock onTrue
  jump merge
  setBlock onFalse
  jump merge
  setBlock merge
  let x ← feltPhi [(onTrue, .int 100), (onFalse, .int 200)]
  ret [.value x]

/-- The sum of the numbers below the argument, with the test at the top. -/
def loop : Func := build "loop" [.felt] do
  let n ← param
  let header ← block "header"
  let body ← block "body"
  let exit ← block "exit"
  jump header
  setBlock header
  let i ← feltPhi [(0, .int 0)]
  let acc ← feltPhi [(0, .int 0)]
  let c ← binary .eq (.value i) (.value n)
  branch (.value c) exit body
  setBlock body
  let i2 ← binary .add (.value i) (.int 1)
  let acc2 ← binary .add (.value acc) (.value i)
  jump header
  let _ ← addPhiSource header i ⟨body, .value i2⟩
  let _ ← addPhiSource header acc ⟨body, .value acc2⟩
  setBlock exit
  ret [.value acc]

/-- The sum of `i * n` for `i` below the argument `n`, by an inner loop that
adds `i`. -/
def nestedLoop : Func := build "nested_loop" [.felt] do
  let n ← param
  let outer ← block "outer"
  let pre ← block "inner_pre"
  let inner ← block "inner"
  let body ← block "inner_body"
  let latch ← block "outer_latch"
  let exit ← block "exit"
  jump outer
  setBlock outer
  let i ← feltPhi [(0, .int 0)]
  let s ← feltPhi [(0, .int 0)]
  let c ← binary .eq (.value i) (.value n)
  branch (.value c) exit pre
  setBlock pre
  jump inner
  setBlock inner
  let j ← feltPhi [(pre, .int 0)]
  let t ← feltPhi [(pre, .value s)]
  let cj ← binary .eq (.value j) (.value n)
  branch (.value cj) latch body
  setBlock body
  let j2 ← binary .add (.value j) (.int 1)
  let t2 ← binary .add (.value t) (.value i)
  jump inner
  let _ ← addPhiSource inner j ⟨body, .value j2⟩
  let _ ← addPhiSource inner t ⟨body, .value t2⟩
  setBlock latch
  let i2 ← binary .add (.value i) (.int 1)
  jump outer
  let _ ← addPhiSource outer i ⟨latch, .value i2⟩
  let _ ← addPhiSource outer s ⟨latch, .value t⟩
  setBlock exit
  ret [.value s]

/-- Two values swapped as often as the argument says; the phis read each
other. -/
def swapLoop : Func := build "swap_loop" [.felt, .felt] do
  let n ← param
  let header ← block "header"
  let body ← block "body"
  let exit ← block "exit"
  jump header
  setBlock header
  let x ← feltPhi [(0, .int 1)]
  let y ← feltPhi [(0, .int 2)]
  let i ← feltPhi [(0, .int 0)]
  let c ← binary .eq (.value i) (.value n)
  branch (.value c) exit body
  setBlock body
  let i2 ← binary .add (.value i) (.int 1)
  jump header
  let _ ← addPhiSource header x ⟨body, .value y⟩
  let _ ← addPhiSource header y ⟨body, .value x⟩
  let _ ← addPhiSource header i ⟨body, .value i2⟩
  setBlock exit
  ret [.value x, .value y]

/-- A loop with the test at the bottom, whose back edge is critical. -/
def bottomLoop : Func := build "bottom_loop" [.felt] do
  let n ← param
  let loop ← block "loop"
  let exit ← block "exit"
  jump loop
  setBlock loop
  let i ← feltPhi [(0, .int 0)]
  let i2 ← binary .add (.value i) (.int 1)
  let c ← binary .neq (.value i2) (.value n)
  branch (.value c) loop exit
  let _ ← addPhiSource loop i ⟨loop, .value i2⟩
  setBlock exit
  ret [.value i]

/-- Two branches into one merge, both edges critical. -/
def criticalDiamond : Func := build "critical_diamond" [.felt] do
  let p ← param
  let q ← param
  let b1 ← block "b1"
  let b2 ← block "b2"
  let merge ← block "merge"
  branch (.value p) b1 merge
  setBlock b1
  branch (.value q) b2 merge
  setBlock b2
  jump merge
  setBlock merge
  let x ← feltPhi [(0, .int 10), (b1, .int 20), (b2, .int 30)]
  ret [.value x]

/-- A sum that nobody reads. -/
def deadAdd : Func := build "dead_add" [.felt] do
  let a ← assign (.int 1) .felt
  let _ ← binary .add (.value a) (.int 2)
  ret [.value a]

/-- A function that adds its arguments, and one that calls it. -/
def callPair : Module :=
  let callee := build "add" [.felt] do
    let x ← param
    let y ← param
    let s ← binary .add (.value x) (.value y)
    ret [.value s]
  let caller := build "main" [.felt] do
    let a ← param
    let rs ← call 0 callee.signature [.value a, .int 10]
    let d ← binary .mul (.value (rs.headD 0)) (.int 2)
    ret [.value d]
  ⟨[callee, caller]⟩

/-- The functions by the name of their shape. -/
def shape? : String → Option Func
  | "diamond" => some diamond
  | "loop" => some loop
  | "nested_loop" => some nestedLoop
  | "swap_loop" => some swapLoop
  | "bottom_loop" => some bottomLoop
  | "critical_diamond" => some criticalDiamond
  | "dead_add" => some deadAdd
  | _ => none

/-- Shapes with arguments to run them on. -/
def cases : List (String × Func × List (List Int64)) :=
  [("diamond", diamond, [[0], [1], [7]]),
   ("loop", loop, [[0], [1], [5]]),
   ("nested_loop", nestedLoop, [[0], [1], [3]]),
   ("swap_loop", swapLoop, [[0], [3], [4]]),
   ("bottom_loop", bottomLoop, [[1], [3]]),
   ("critical_diamond", criticalDiamond, [[0, 0], [0, 1], [1, 0], [1, 1]])]

end MirBackend.Sample
