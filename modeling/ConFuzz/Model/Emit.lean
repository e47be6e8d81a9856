import ConFuzz.Model.Resolve

/-!
# The emission loop and `arg_fuzz`

`branchGenerate` renders a node and its children into the `branch` buffer, and
the emission loop moves every finished branch to `cmd`. The buffers are
unbounded here. `stale id` is what the uninitialised `last_enabled_child_id`
holds in the activation for node `id`; an activation that gets that far is the
only one for its node, since it has just set `enable` to 2.
-/

namespace ConFuzz

open ConFuzz.CLib

/-- The state `branch_generate` works on. -/
structure Branch where
  ir : List Ir
  branch : String
  deriving DecidableEq, Repr

/-- The text of an operator that may be `"NULL"`. -/
def operatorText (operator : String) : String := if operator = "NULL" then "" else operator

/-- The separator after a node that is not the last of its siblings. -/
def siblingText (node : ArgNode) : String :=
  if node.operatorSibling = "NULL" then " " else node.operatorSibling

/-- The printed value of a leaf. -/
def valueText (node : ArgNode) (cell : Ir) : String :=
  if node.valueType = 1 ∨ node.valueType = 2 then toString cell.valueInt
  else if node.valueType = 3 ∨ node.valueType = 4 then cell.valueChar
  else ""

/-- The last listed child with `enable == 1`, or `last` when there is none. -/
def lastEnabled (ir : List Ir) : List Int → Int → Except Fault Int
  | [], last => .ok last
  | c :: cs, last => do
    let cell ← rd ir c
    lastEnabled ir cs (if cell.enable = 1 then c else last)

/-- `branch_generate`. The flag of the result is the return value: `true` for 0. -/
def branchGenerate (argArray : List ArgNode) (stale : Int → Int) :
    Nat → Branch → Int → Bool → Except Fault (Bool × Branch)
  | 0, _, _, _ => .error .outOfFuel
  | fuel + 1, st, id, lastSibling => do
    let cell ← rd st.ir id
    if cell.enable = 1 then do
      let ir ← setEnable st.ir id 2
      let node ← rd argArray id
      let branch := if node.dependencyId = [] then node.arg else st.branch ++ node.arg
      if node.childId ≠ [] then do
        let branch := branch ++ operatorText node.operatorChild
        let last ← lastEnabled ir node.childId (stale id)
        let st ← node.childId.foldlM (fun st c => do
          let r ← branchGenerate argArray stale fuel st c (c == last)
          return r.2) ⟨ir, branch⟩
        let branch := if lastSibling then st.branch else st.branch ++ siblingText node
        return (true, { st with branch })
      else do
        let branch := branch ++ operatorText node.operatorValue
        let cell ← rd ir id
        let branch := branch ++ valueText node cell
        let branch := if lastSibling then branch else branch ++ siblingText node
        let ir ← setEnable ir id 2
        return (true, ⟨ir, branch⟩)
    else return (false, st)

structure Output where
  ir : List Ir
  branch : String
  cmd : String
  deriving DecidableEq, Repr

/-- One turn of the emission loop. -/
def emitStep (argArray : List ArgNode) (stale : Int → Int) (i : Nat) (o : Output) :
    Except Fault Output := do
  let (emitted, st) ← branchGenerate argArray stale (o.ir.length + 1) ⟨o.ir, o.branch⟩ i false
  if emitted then return ⟨st.ir, "", o.cmd ++ st.branch⟩
  else return ⟨st.ir, st.branch, o.cmd⟩

/-- The emission loop, from `strcpy(cmd, " ")`. -/
def emitLoop (argArray : List ArgNode) (stale : Int → Int) (argCount : Nat) (ir : List Ir)
    (branch : String) : Except Fault Output :=
  forUpto argCount (emitStep argArray stale) ⟨ir, branch, " "⟩

/-- The memory a call of `arg_fuzz` finds and does not initialise. -/
structure Stale where
  ir : List Ir
  branch : String
  last : Int → Int

/-- `arg_fuzz`: the command it writes and the `ir_` array it leaves. -/
def argFuzz (d : Draws) (argArray : List ArgNode) (argCount : Nat) (argBitmap : List Nat)
    (fuzzLevel : Int) (mem : Stale) : Except Fault (String × List Ir) := do
  let bitmap ← bitmapFuzz d argBitmap argCount
  let s ← atEmission d argArray argCount bitmap fuzzLevel mem.ir
  let o ← emitLoop argArray mem.last argCount s.ir mem.branch
  let ir ← forUpto argCount (fun i ir => setEnable ir i 0) o.ir
  return (o.cmd, ir)

end ConFuzz
