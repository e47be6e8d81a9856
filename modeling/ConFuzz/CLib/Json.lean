import ConFuzz.CLib.Array
import Mathlib.Algebra.Ring.Int.Defs

/-!
# JSON documents and their traversal

`Json` is a parsed document. The members of an object keep their order.
`visit f` is `json_c_visit`: the callback `f` gets every value once, before
what it contains, and every array and object a second time after it, together
with the key of the member that holds the value. The `JsonC` accessors are those
of the library; what they make of a value of another type is a parameter where
it is not a constant.

A callback that acts on the first visit of an object only is a fold over the
list `objects` of all objects in document order (`visit_eq_foldlM`).

A `char*` that may be null is an optional text. Reading the null pointer as a text
is undefined; `nullText` stands for whatever that gives.
-/

namespace ConFuzz.CLib

inductive Json where
  | null
  | bool (b : Bool)
  | int (i : Int)
  /-- A floating point number, by its text. -/
  | double (text : String)
  | str (s : String)
  | arr (elements : List Json)
  | obj (members : List (String × Json))

/-! ## Accessors -/

/-- Conversions of the library between types. -/
structure JsonC where
  intOfDouble : String → Int
  intOfString : String → Int
  booleanOfDouble : String → Bool
  /-- The text of a value that is not a string. -/
  toText : Json → String
  /-- What is read through a null pointer. -/
  nullText : String

/-- `json_object_get_int`: integers are cut to the range of `int`. -/
def JsonC.getInt (J : JsonC) : Json → Int
  | .null => 0
  | .bool b => if b then 1 else 0
  | .int i => max (-2 ^ 31) (min i (2 ^ 31 - 1))
  | .double text => J.intOfDouble text
  | .str s => J.intOfString s
  | .arr _ => 0
  | .obj _ => 0

def JsonC.getBoolean (J : JsonC) : Json → Bool
  | .bool b => b
  | .int i => i ≠ 0
  | .double text => J.booleanOfDouble text
  | .str s => s ≠ ""
  | _ => false

/-- The text behind the result of `json_object_get_string`, which is null for `null`. -/
def JsonC.getString (J : JsonC) : Json → String
  | .null => J.nullText
  | .str s => s
  | j => J.toText j

/-- The elements behind `json_object_array_length` and `json_object_array_get_idx`, which
stop the program when the value is no array. -/
def Json.elements : Json → Except Fault (List Json)
  | .arr l => .ok l
  | _ => .error .notArray

theorem JsonC.getInt_int (J : JsonC) {i : Int} (h0 : -2 ^ 31 ≤ i) (h1 : i < 2 ^ 31) :
    J.getInt (.int i) = i := by
  show max (-2 ^ 31) (min i (2 ^ 31 - 1)) = i
  omega

/-! ## Traversal -/

section

variable {σ ε : Type} (f : Json → Bool → Option String → σ → Except ε σ)

mutual

/-- `json_c_visit` with a callback that always goes on. Its flag tells the second visit. -/
def visit : Json → Option String → σ → Except ε σ
  | .arr l, key, s => do
    let s ← f (.arr l) false key s
    let s ← visitElements l s
    f (.arr l) true key s
  | .obj members, key, s => do
    let s ← f (.obj members) false key s
    let s ← visitMembers members s
    f (.obj members) true key s
  | j, key, s => f j false key s

def visitElements : List Json → σ → Except ε σ
  | [], s => .ok s
  | j :: l, s => do
    let s ← visit j none s
    visitElements l s

def visitMembers : List (String × Json) → σ → Except ε σ
  | [], s => .ok s
  | (key, j) :: l, s => do
    let s ← visit j (some key) s
    visitMembers l s

end

end

mutual

/-- All objects of a value in document order, each with the key that holds it. -/
def objects : Json → Option String → List (Option String × List (String × Json))
  | .arr l, _ => elementObjects l
  | .obj members, key => (key, members) :: memberObjects members
  | _, _ => []

def elementObjects : List Json → List (Option String × List (String × Json))
  | [] => []
  | j :: l => objects j none ++ elementObjects l

def memberObjects : List (String × Json) → List (Option String × List (String × Json))
  | [] => []
  | (key, j) :: l => objects j (some key) ++ memberObjects l

end

section

variable {σ ε : Type} {f : Json → Bool → Option String → σ → Except ε σ}
  {g : Option String → List (String × Json) → σ → Except ε σ}

/-- `f` acts on the first visit of objects only, as `g`. -/
structure ActsOnObjects (f : Json → Bool → Option String → σ → Except ε σ)
    (g : Option String → List (String × Json) → σ → Except ε σ) : Prop where
  object : ∀ members key s, f (.obj members) false key s = g key members s
  second : ∀ j key s, f j true key s = .ok s
  other : ∀ j key s, (∀ members, j ≠ .obj members) → f j false key s = .ok s

mutual

/-- **A traversal that acts on objects is a fold over the objects.** -/
theorem visit_eq_foldlM (h : ActsOnObjects f g) : ∀ (j : Json) (key : Option String) (s : σ),
    visit f j key s = (objects j key).foldlM (fun s o => g o.1 o.2 s) s
  | .arr l, key, s => by
    unfold visit objects
    rw [h.other _ _ _ (by intro _ h; cases h), ok_bind, visitElements_eq_foldlM h l]
    simp only [h.second]
    exact bind_pure _
  | .obj members, key, s => by
    unfold visit objects
    rw [h.object, List.foldlM_cons]
    refine congrArg _ (funext fun s => ?_)
    rw [visitMembers_eq_foldlM h members]
    simp only [h.second]
    exact bind_pure _
  | .null, key, s => h.other _ _ _ (by intro _ h; cases h)
  | .bool b, key, s => h.other _ _ _ (by intro _ h; cases h)
  | .int i, key, s => h.other _ _ _ (by intro _ h; cases h)
  | .double x, key, s => h.other _ _ _ (by intro _ h; cases h)
  | .str x, key, s => h.other _ _ _ (by intro _ h; cases h)

theorem visitElements_eq_foldlM (h : ActsOnObjects f g) : ∀ (l : List Json) (s : σ),
    visitElements f l s = (elementObjects l).foldlM (fun s o => g o.1 o.2 s) s
  | [], s => by
    unfold visitElements elementObjects
    rfl
  | j :: l, s => by
    unfold visitElements elementObjects
    rw [visit_eq_foldlM h j, List.foldlM_append]
    exact congrArg _ (funext fun s => visitElements_eq_foldlM h l s)

theorem visitMembers_eq_foldlM (h : ActsOnObjects f g) : ∀ (l : List (String × Json)) (s : σ),
    visitMembers f l s = (memberObjects l).foldlM (fun s o => g o.1 o.2 s) s
  | [], s => by
    unfold visitMembers memberObjects
    rfl
  | (key, j) :: l, s => by
    unfold visitMembers memberObjects
    rw [visit_eq_foldlM h j, List.foldlM_append]
    exact congrArg _ (funext fun s => visitMembers_eq_foldlM h l s)

end

end

end ConFuzz.CLib
