import ConFuzz.CLib.Loop
import ConFuzz.Model.Table

/-!
# `arg_fuzz` up to the emission loop

The three loops of `arg_fuzz` that decide which options a command gets:

* `selectStep`: the bitmap turns a node on and its value is drawn;
* `firstStep`: must-haves are turned on and conflicting nodes are pruned;
* `secondStep`: `enable_dependency` and `enable_dependant` turn on what the
  enabled nodes need.

The recursions of the second loop take a bound on their depth. `atEmission`
gives them one more than the number of nodes, which they never use up: every
call but the first has just turned a node on.
-/

namespace ConFuzz

open ConFuzz.CLib

/-- The state of a run: the `ir_` array and the number of `rand_num` calls made. -/
structure Run where
  ir : List Ir
  pos : Nat
  deriving DecidableEq, Repr

/-! ## Bitmap and values -/

def bitmapFuzz (d : Draws) (argBitmap : List Nat) (argCount : Nat) : Except Fault (List Nat) :=
  forUpto argCount (fun i bitmap => wr bitmap i (d.rand i % 255 + 1)) argBitmap

/-- The `switch` on `value_type`. -/
def selectValue (d : Draws) (node : ArgNode) (i : Int) (s : Run) : Except Fault Run :=
  match node.valueType with
  | 1 => do
    let b ← rd node.valueInt 1
    let a ← rd node.valueInt 0
    let c ← rd node.valueInt 2
    if c = 0 then .error .divByZero
    else do
      let tmp := toInt32 (toU64 (b - a) / c : Nat)
      let r := d.randNum s.pos 0 (toU64 (toInt32 (tmp + 1)))
      let ir ← setValueInt s.ir i (toU64 (a + r * c : Nat))
      return ⟨ir, s.pos + 1⟩
  | 2 => do
    let lo ← rd node.valueInt 1
    let hi ← rd node.valueInt 2
    let tmp := toInt32 (d.randNum s.pos lo (toU64 (hi + 1 : Nat)))
    let base ← rd node.valueInt 0
    let factor ← rd node.valueInt 3
    let ir ← setValueInt s.ir i (d.powMul base tmp factor)
    return ⟨ir, s.pos + 1⟩
  | 3 => do
    let ir ← setValueChar s.ir i node.valueChar
    return ⟨ir, s.pos⟩
  | 4 => do
    let text ← rd node.valueCharArray (d.randNum s.pos 0 node.valueCharArray.length)
    let ir ← setValueChar s.ir i text
    return ⟨ir, s.pos + 1⟩
  | _ => return s

/-- One turn of the first loop: the bitmap decision and the value of node `i`. -/
def selectStep (d : Draws) (argArray : List ArgNode) (bitmap : List Nat) (i : Nat) (s : Run) :
    Except Fault Run := do
  let byte ← rd bitmap i
  let ir ← (if byte % 2 = 0 then setEnable s.ir i 1 else pure s.ir)
  let node ← rd argArray i
  selectValue d node i { s with ir }

/-! ## Must-haves and conflicts -/

/-- The number of listed nodes with `enable == 1`, added to `tmp`. -/
def countOn (ir : List Ir) : List Int → Nat → Except Fault Nat
  | [], tmp => .ok tmp
  | m :: ms, tmp => do
    let cell ← rd ir m
    countOn ir ms (if cell.enable = 1 then tmp + 1 else tmp)

/-- `mutex[j + 1] = m` for the listed nodes `m` with `enable == 1`, `j` being the
position in the list. A cell of the temporary array is `none` until written. -/
def collectOn (ir : List Ir) : List Int → Nat → List (Option Int) →
    Except Fault (List (Option Int))
  | [], _, mutex => .ok mutex
  | m :: ms, j, mutex => do
    let cell ← rd ir m
    let mutex ← (if cell.enable = 1 then wr mutex (j + 1 : Nat) (some m) else pure mutex)
    collectOn ir ms (j + 1) mutex

/-- `ir_[mutex[j]].enable = (j == k) ? 1 : 2`. -/
def survive (mutex : List (Option Int)) (k : Nat) (j : Nat) (ir : List Ir) :
    Except Fault (List Ir) := do
  match ← rd mutex j with
  | none => .error (.uninit j)
  | some m => setEnable ir m (if j = k then 1 else 2)

/-- Keep one random node of `i` and its enabled conflicts, prune the others. -/
def pruneMutex (d : Draws) (conflicts : List Int) (i : Int) (s : Run) : Except Fault Run := do
  let tmp ← countOn s.ir conflicts 1
  let mutex ← wr (List.replicate tmp none) 0 (some i)
  let mutex ← collectOn s.ir conflicts 0 mutex
  let k := d.randNum s.pos 0 tmp
  let ir ← forUpto tmp (survive mutex k) s.ir
  return ⟨ir, s.pos + 1⟩

/-- One turn of the first iteration. -/
def firstStep (d : Draws) (argArray : List ArgNode) (i : Nat) (s : Run) : Except Fault Run := do
  let cell ← rd s.ir i
  match cell.enable with
  | 0 => do
    let node ← rd argArray i
    if node.mustHave then do
      let ir ← setEnable s.ir i 1
      return { s with ir }
    else return s
  | 1 => do
    let node ← rd argArray i
    match node.mutex with
    | some conflicts => pruneMutex d conflicts i s
    | none => return s
  | _ => return s

/-! ## Dependencies and children -/

def firstWith (ir : List Ir) (v : Int) : List Int → Except Fault (Option Int)
  | [] => .ok none
  | m :: ms => do
    let cell ← rd ir m
    if cell.enable = v then return some m else firstWith ir v ms

/-- `enable_dependency`: turn on the first missing dependency and go on from it. -/
def enableDependency (argArray : List ArgNode) : Nat → List Ir → Int → Except Fault (List Ir)
  | 0, _, _ => .error .outOfFuel
  | fuel + 1, ir, id => do
    let node ← rd argArray id
    let cell ← rd ir id
    if cell.enable = 1 ∧ node.dependencyId ≠ [] then do
      match ← firstWith ir 0 node.dependencyId with
      | some parentId => do
        let ir ← setEnable ir parentId 1
        enableDependency argArray fuel ir parentId
      | none => return ir
    else return ir

/-- `enable_dependant`: a node that must have a child and has none gets a random
one, and so on from there. -/
def enableDependant (d : Draws) (argArray : List ArgNode) : Nat → Run → Int → Except Fault Run
  | 0, _, _ => .error .outOfFuel
  | fuel + 1, s, id => do
    let node ← rd argArray id
    let cell ← rd s.ir id
    if cell.enable = 1 ∧ node.childId ≠ [] ∧ node.mustChild then do
      match ← firstWith s.ir 1 node.childId with
      | some _ => return s
      | none => do
        let childId ← rd node.childId (d.randNum s.pos 0 node.childId.length)
        let ir ← setEnable s.ir childId 1
        enableDependant d argArray fuel ⟨ir, s.pos + 1⟩ childId
    else return s

/-- One turn of the second iteration. -/
def secondStep (d : Draws) (argArray : List ArgNode) (i : Nat) (s : Run) : Except Fault Run := do
  let ir ← enableDependency argArray (s.ir.length + 1) s.ir i
  enableDependant d argArray (s.ir.length + 1) { s with ir } i

/-! ## The three loops -/

def secondPass (d : Draws) (argArray : List ArgNode) (argCount : Nat) (s : Run) :
    Except Fault Run :=
  forUpto argCount (secondStep d argArray) s

/-- `arg_fuzz` from the filled bitmap to the emission loop. -/
def atEmission (d : Draws) (argArray : List ArgNode) (argCount : Nat) (bitmap : List Nat)
    (fuzzLevel : Int) (ir : List Ir) : Except Fault Run := do
  let s ← forUpto argCount (selectStep d argArray bitmap) ⟨ir, 0⟩
  if fuzzLevel = 0 then do
    let s ← forUpto argCount (firstStep d argArray) s
    secondPass d argArray argCount s
  else return s

end ConFuzz
