import ConFuzz.CLib.Array
import Mathlib.Algebra.Group.Nat.Defs
import Mathlib.Algebra.Ring.Int.Defs

/-!
# The option table and the intermediate array

`ArgNode` is `struct arg_node` and `Ir` is `struct ir`. A pointer field and its
`_len` field are one list: `ct_builder` always writes the two together. The
`mutex` pointer is also compared with `NULL` by `arg_fuzz`, so it is an option.
`int` is an `Int`, `unsigned long` a `Nat` below `2 ^ 64` with explicit
conversions, and a `char*` is the text it points at.

`Draws` is everything a run takes from outside: the results of `rand` and
`rand_num`, and the floating point product of the geometric values.
-/

namespace ConFuzz

open ConFuzz.CLib

structure ArgNode where
  arg : String
  valueType : Int
  valueInt : List Nat
  valueChar : String
  valueCharArray : List String
  operatorValue : String
  operatorSibling : String
  operatorChild : String
  /-- `none` is the null pointer. -/
  mutex : Option (List Int)
  mustHave : Bool
  weight : Int
  mustChild : Bool
  childId : List Int
  dependencyId : List Int
  deriving DecidableEq, Repr

/-- `struct ir`: the decision about one node. -/
structure Ir where
  enable : Int
  valueInt : Nat
  valueChar : String
  deriving DecidableEq, Repr

/-! ## Machine integers -/

/-- Conversion to `unsigned long`. -/
def toU64 (x : Int) : Nat := (x % 2 ^ 64).toNat

def toInt32 (x : Int) : Int := (x + 2 ^ 31) % 2 ^ 32 - 2 ^ 31

theorem toInt32_add (a b : Int) : toInt32 (toInt32 a + b) = toInt32 (a + b) := by
  unfold toInt32
  omega

/-! ## Draws -/

/-- What a run draws: the `k`-th result of `rand()`, the result of the `k`-th
call of `rand_num` on its bounds, and `(unsigned long)(pow(a, e) * d)`. -/
structure Draws where
  rand : Nat → Nat
  randNum : Nat → Nat → Nat → Nat
  randNum_mem : ∀ k lo hi, lo < hi → lo ≤ randNum k lo hi ∧ randNum k lo hi < hi
  powMul : Nat → Int → Nat → Nat
  powMul_exact : ∀ a e d : Nat, a ^ e < 2 ^ 53 → a ^ e * d < 2 ^ 53 → powMul a e d = a ^ e * d

/-- The draws that always return their lower bound. -/
def Draws.least : Draws where
  rand _ := 0
  randNum _ lo _ := lo
  randNum_mem _ lo hi h := ⟨Nat.le_refl lo, h⟩
  powMul a e d := a ^ e.toNat * d
  powMul_exact a e d _ _ := by simp

/-- The draws that always return their upper bound. -/
def Draws.greatest : Draws where
  rand _ := 1
  randNum _ lo hi := if lo < hi then hi - 1 else lo
  randNum_mem _ lo hi h := by rw [if_pos h]; omega
  powMul a e d := a ^ e.toNat * d
  powMul_exact a e d _ _ := by simp

/-! ## The `enable` fields -/

def enableOf (ir : List Ir) (i : Int) : Option Int := (at? ir i).map (·.enable)

/-- `ir_[i].enable == 1`. -/
def On (ir : List Ir) (i : Int) : Prop := enableOf ir i = some 1

instance (ir : List Ir) (i : Int) : Decidable (On ir i) := inferInstanceAs (Decidable (_ = _))

def setEnable (ir : List Ir) (i : Int) (v : Int) : Except Fault (List Ir) := do
  let cell ← rd ir i
  wr ir i { cell with enable := v }

def setValueInt (ir : List Ir) (i : Int) (v : Nat) : Except Fault (List Ir) := do
  let cell ← rd ir i
  wr ir i { cell with valueInt := v }

def setValueChar (ir : List Ir) (i : Int) (v : String) : Except Fault (List Ir) := do
  let cell ← rd ir i
  wr ir i { cell with valueChar := v }

theorem enableOf_eq_some {ir : List Ir} {i : Int} {v : Int} :
    enableOf ir i = some v ↔ ∃ cell, at? ir i = some cell ∧ cell.enable = v := by
  simp [enableOf]

theorem range_of_enableOf {ir : List Ir} {i : Int} {v : Int} (h : enableOf ir i = some v) :
    0 ≤ i ∧ i < ir.length := by
  obtain ⟨cell, h, -⟩ := enableOf_eq_some.1 h
  exact range_of_at? h

theorem enableOf_of_range {ir : List Ir} {i : Int} (h0 : 0 ≤ i) (h1 : i < ir.length) :
    ∃ v, enableOf ir i = some v := by
  obtain ⟨cell, h⟩ := at?_of_mem_range h0 h1
  exact ⟨cell.enable, by simp [enableOf, h]⟩

theorem setEnable_eq_ok {ir ir' : List Ir} {i v : Int} :
    setEnable ir i v = .ok ir' ↔
      ∃ cell, at? ir i = some cell ∧ ir' = put ir i { cell with enable := v } := by
  simp only [setEnable, bind_eq_ok, rd_eq_ok, wr_eq_ok]
  constructor
  · rintro ⟨cell, h, -, h'⟩; exact ⟨cell, h, h'⟩
  · rintro ⟨cell, h, h'⟩; exact ⟨cell, h, ⟨cell, h⟩, h'⟩

theorem enableOf_setEnable {ir ir' : List Ir} {i v : Int} (h : setEnable ir i v = .ok ir') :
    enableOf ir' = Function.update (enableOf ir) i (some v) := by
  obtain ⟨cell, hc, rfl⟩ := setEnable_eq_ok.1 h
  funext j
  unfold enableOf
  rw [at?_put _ hc]
  by_cases hj : j = i
  · subst hj; simp
  · simp [hj]

theorem length_setEnable {ir ir' : List Ir} {i v : Int} (h : setEnable ir i v = .ok ir') :
    ir'.length = ir.length := by
  obtain ⟨cell, -, rfl⟩ := setEnable_eq_ok.1 h
  simp

theorem setEnable_total {ir : List Ir} {i : Int} (v : Int) (h0 : 0 ≤ i) (h1 : i < ir.length) :
    ∃ ir', setEnable ir i v = .ok ir' := by
  obtain ⟨cell, h⟩ := at?_of_mem_range h0 h1
  exact ⟨_, setEnable_eq_ok.2 ⟨cell, h, rfl⟩⟩

/-! ## A small table -/

def plainNode (arg : String) : ArgNode where
  arg := arg
  valueType := 0
  valueInt := []
  valueChar := ""
  valueCharArray := []
  operatorValue := "NULL"
  operatorSibling := " "
  operatorChild := "NULL"
  mutex := some []
  mustHave := false
  weight := 1
  mustChild := false
  childId := []
  dependencyId := []

/-- `-J` with its two conflicting children. -/
def journalTable : List ArgNode :=
  [{ plainNode "-J" with operatorChild := " ", mustChild := true, childId := [1, 2] },
   { plainNode "size=" with mutex := some [2], dependencyId := [0] },
   { plainNode "device=" with mutex := some [1], dependencyId := [0] }]

def zeroIr (n : Nat) : List Ir := List.replicate n ⟨0, 0, ""⟩

end ConFuzz
