import ConFuzz.CLib.Json
import ConFuzz.Model.Emit

/-!
# Loading a specification, and `main`

`ctBuilder` is the callback that fills `arg_array`: it looks for the `id` of an
object first and then goes over the members once more, with one test for each
key. The tests are one definition, `loadField`, with a `Field` for each key.
A key without a test is skipped.

`Heap` is what the memory of `malloc` and of the stack holds before it is
written. A pointer in it is read as if some text stood there: that it is valid
is no part of the model, nor is the size of a buffer.
-/

namespace ConFuzz

open ConFuzz.CLib

/-- The keys that `ct_builder` tests for, besides `id`. -/
inductive Field where
  | valueType
  | value
  | operatorValue
  | operatorSibling
  | operatorChild
  | mutex
  | mustHave
  | weight
  | dependencyId
  | mustChild
  | childId
  deriving DecidableEq, Repr

def Field.key : Field → String
  | .valueType => "value_type"
  | .value => "value"
  | .operatorValue => "operator_value"
  | .operatorSibling => "operator_sibling"
  | .operatorChild => "operator_child"
  | .mutex => "mutex"
  | .mustHave => "must_have"
  | .weight => "weight"
  | .dependencyId => "dependency_id"
  | .mustChild => "must_child"
  | .childId => "child_id"

def Field.all : List Field :=
  [.valueType, .value, .operatorValue, .operatorSibling, .operatorChild, .mutex, .mustHave,
    .weight, .dependencyId, .mustChild, .childId]

def Field.ofKey (key : String) : Option Field := Field.all.find? fun f => f.key = key

/-! ## One field -/

/-- An operator, or the text `"NULL"`. -/
def loadOperator (J : JsonC) : Json → String
  | .null => "NULL"
  | v => J.getString v

def loadIds (J : JsonC) : Json → Except Fault (List Int)
  | .null => .ok []
  | v => do
    let l ← v.elements
    return l.map J.getInt

/-- The value of a node, read by the type that is already stored. -/
def loadValue (J : JsonC) (v : Json) (node : ArgNode) : Except Fault ArgNode :=
  match v with
  | .null => .ok { node with valueCharArray := [] }
  | v =>
    if node.valueType = 1 ∨ node.valueType = 2 then do
      let l ← v.elements
      return { node with valueInt := l.map fun x => toU64 (J.getInt x) }
    else if node.valueType = 3 then return { node with valueChar := J.getString v }
    else if node.valueType = 4 then do
      let l ← v.elements
      return { node with valueCharArray := l.map J.getString }
    else return node

/-- The body of the test for the key of `f`. -/
def loadField (J : JsonC) (f : Field) (v : Json) (node : ArgNode) : Except Fault ArgNode :=
  match f with
  | .valueType =>
    match v with
    | .null => .ok { node with valueType := 0 }
    | v => .ok { node with valueType := J.getInt v }
  | .value => loadValue J v node
  | .operatorValue => .ok { node with operatorValue := loadOperator J v }
  | .operatorSibling => .ok { node with operatorSibling := loadOperator J v }
  | .operatorChild => .ok { node with operatorChild := loadOperator J v }
  | .mutex =>
    match v with
    | .null => .ok { node with mutex := node.mutex.map fun _ => [] }
    | v => do
      let l ← v.elements
      return { node with mutex := some (l.map J.getInt) }
  | .mustHave =>
    match v with
    | .null => .ok { node with mustHave := false }
    | v => .ok { node with mustHave := J.getBoolean v }
  | .weight =>
    match v with
    | .null => .ok { node with weight := 1 }
    | v => .ok { node with weight := J.getInt v }
  | .dependencyId => do
    let l ← loadIds J v
    return { node with dependencyId := l }
  | .mustChild =>
    match v with
    -- the source resets `must_have` here
    | .null => .ok { node with mustHave := false }
    | v => .ok { node with mustChild := J.getBoolean v }
  | .childId => do
    let l ← loadIds J v
    return { node with childId := l }

/-! ## One object -/

/-- The first pass over the members: the last `id`, and whether there is one. The key of an
object that is in an array is null. -/
def findId (J : JsonC) (key : Option String) (members : List (String × Json))
    (argArray : List ArgNode) : Except Fault (List ArgNode × Int × Bool) :=
  members.foldlM (fun st m =>
    if m.1 = "id" then do
      let id := J.getInt m.2
      let node ← rd st.1 id
      let argArray ← wr st.1 id { node with arg := key.getD J.nullText }
      return (argArray, id, true)
    else return st) (argArray, 0, false)

/-- One member in the second pass. -/
def loadMember (J : JsonC) (id : Int) (argArray : List ArgNode) (m : String × Json) :
    Except Fault (List ArgNode) :=
  match Field.ofKey m.1 with
  | some f => do
    let node ← rd argArray id
    let node ← loadField J f m.2 node
    wr argArray id node
  | none => return argArray

/-- `ct_builder` on an object. -/
def buildNode (J : JsonC) (key : Option String) (members : List (String × Json))
    (argArray : List ArgNode) : Except Fault (List ArgNode) := do
  let (argArray, id, idLoaded) ← findId J key members argArray
  if idLoaded then members.foldlM (loadMember J id) argArray else return argArray

/-! ## The document -/

def ctBuilder (J : JsonC) (jso : Json) (second : Bool) (key : Option String)
    (argArray : List ArgNode) : Except Fault (List ArgNode) :=
  match jso with
  | .obj members => if second then return argArray else buildNode J key members argArray
  | _ => return argArray

def jsonTreeParse (J : JsonC) (jsonArgTree : Json) (argArray : List ArgNode) :
    Except Fault (List ArgNode) :=
  visit (ctBuilder J) jsonArgTree none argArray

def jsoCount (jso : Json) (second : Bool) (_key : Option String) (count : Int) :
    Except Fault Int :=
  match jso with
  | .obj _ => if second then return count else return count + 1
  | _ => return count

def bitmapLen (argArray : List ArgNode) (argCount : Nat) : Except Fault Int :=
  forUpto argCount (fun i len => do
    let node ← rd argArray i
    return toInt32 (len + node.weight)) 0

/-- What uninitialised memory holds. -/
structure Heap where
  node : Nat → ArgNode
  cell : Nat → Ir
  byte : Nat → Nat
  branch : String
  last : Int → Int

/-- `malloc` of `n` elements. -/
def malloc {α : Type} (garbage : Nat → α) (n : Int) : List α := (List.range n.toNat).map garbage

/-- `main`, from the parsed document to the printed command. -/
def main (J : JsonC) (d : Draws) (heap : Heap) (jsonArgTree : Json) : Except Fault String := do
  let count ← visit jsoCount jsonArgTree none 0
  let nodeCount := count - 1
  let argArray ← jsonTreeParse J jsonArgTree (malloc heap.node nodeCount)
  let bmapLen ← bitmapLen argArray nodeCount.toNat
  let r ← argFuzz d argArray nodeCount.toNat (malloc heap.byte bmapLen) 0
    ⟨malloc heap.cell nodeCount, heap.branch, heap.last⟩
  return r.1

end ConFuzz
