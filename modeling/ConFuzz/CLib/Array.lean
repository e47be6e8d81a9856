import Mathlib.Logic.Function.Basic
import Mathlib.Data.List.Basic

/-!
# Checked C arrays

An allocation is the list of its cells and an index is a C `int`. `at? l i` is
the cell `i` of `l`, for `0 ≤ i < l.length`. `rd` and `wr` are the accesses of
the program: outside the allocation they fault, and a fault stops the run.
`put` is the effect of a write that stays inside.
-/

namespace ConFuzz.CLib

/-- What stops a run. -/
inductive Fault where
  /-- Index `idx` into an allocation of `len` cells. -/
  | outOfBounds (len : Nat) (idx : Int)
  /-- A read of a cell that nothing has written. -/
  | uninit (idx : Int)
  | divByZero
  /-- An array operation on a value that is not an array. -/
  | notArray
  | outOfFuel
  deriving DecidableEq, Repr

variable {α β ε : Type}

/-! ## Runs that can fault -/

/-- A sequence ends when its first half does and the rest ends from there. -/
theorem bind_eq_ok {m : Except ε α} {k : α → Except ε β} {b : β} :
    (m >>= k) = .ok b ↔ ∃ a, m = .ok a ∧ k a = .ok b := by
  rcases m with e | a
  · constructor
    · intro h; cases h
    · rintro ⟨_, h, _⟩; cases h
  · exact ⟨fun h => ⟨a, rfl, h⟩, fun ⟨_, e, h⟩ => by cases e; exact h⟩

theorem bind_eq_error {m : Except ε α} {k : α → Except ε β} {e : ε} :
    (m >>= k) = .error e ↔ m = .error e ∨ ∃ a, m = .ok a ∧ k a = .error e := by
  rcases m with e' | a
  · constructor
    · intro h; cases h; exact .inl rfl
    · rintro (h | ⟨_, h, _⟩)
      · cases h; rfl
      · cases h
  · constructor
    · exact fun h => .inr ⟨a, rfl, h⟩
    · rintro (h | ⟨_, h, hk⟩)
      · cases h
      · cases h; exact hk

theorem bind_eq_ok_both {γ : Type} {m : Except ε α} {k : α → Except ε β} {k' : α → Except ε γ}
    {b : β} {c : γ} (h : (m >>= k) = .ok b) (h' : (m >>= k') = .ok c) :
    ∃ a, k a = .ok b ∧ k' a = .ok c := by
  obtain ⟨a, ha, hk⟩ := bind_eq_ok.1 h
  obtain ⟨a', ha', hk'⟩ := bind_eq_ok.1 h'
  rw [ha] at ha'
  cases ha'
  exact ⟨a, hk, hk'⟩

@[simp] theorem ok_bind (a : α) (f : α → Except ε β) : (Except.ok a >>= f) = f a := rfl

@[simp] theorem pure_eq_ok (a : α) : (pure a : Except ε α) = .ok a := rfl

/-! ## Cells -/

def at? (l : List α) (i : Int) : Option α := if 0 ≤ i then l[i.toNat]? else none

/-- The allocation after a write at an index inside it. -/
def put (l : List α) (i : Int) (a : α) : List α := l.set i.toNat a

@[simp] theorem length_put (l : List α) (i : Int) (a : α) : (put l i a).length = l.length := by
  simp [put]

@[simp] theorem put_put (l : List α) (i : Int) (a b : α) : put (put l i a) i b = put l i b := by
  simp [put]

theorem at?_isSome_iff {l : List α} {i : Int} : (at? l i).isSome ↔ 0 ≤ i ∧ i < l.length := by
  unfold at?
  split
  · simp; omega
  · simp; omega

theorem at?_of_mem_range {l : List α} {i : Int} (h0 : 0 ≤ i) (h1 : i < l.length) :
    ∃ a, at? l i = some a :=
  Option.isSome_iff_exists.1 (at?_isSome_iff.2 ⟨h0, h1⟩)

theorem range_of_at? {l : List α} {i : Int} {a : α} (h : at? l i = some a) :
    0 ≤ i ∧ i < l.length :=
  at?_isSome_iff.1 (by rw [h]; rfl)

theorem at?_natCast (l : List α) (i : Nat) : at? l (i : Int) = l[i]? := by
  simp [at?]

theorem mem_of_at? {l : List α} {i : Int} {a : α} (h : at? l i = some a) : a ∈ l := by
  unfold at? at h
  split at h
  · exact List.mem_of_getElem? h
  · cases h

theorem at?_put {l : List α} {i j : Int} {b : α} (a : α) (h : at? l i = some b) :
    at? (put l i a) j = if j = i then some a else at? l j := by
  obtain ⟨h0, h1⟩ := range_of_at? h
  by_cases hj : j = i
  · subst hj
    simp only [at?, h0, put, ↓reduceIte, List.getElem?_set]
    simp; omega
  · simp only [at?, put, hj, ↓reduceIte, List.getElem?_set]
    split
    · rw [if_neg (by omega)]
    · rfl

theorem map_at?_range (l : List α) (f : Option α → β) :
    ((List.range l.length).map Int.ofNat).map (fun i => f (at? l i)) =
      l.map fun a => f (some a) := by
  refine List.ext_getElem (by simp) fun k h1 h2 => ?_
  have hk : k < l.length := by simpa using h2
  have hat : at? l (Int.ofNat k) = some l[k] := by
    rw [← List.getElem?_eq_getElem hk]
    exact at?_natCast l k
  simp only [List.getElem_map, List.getElem_range, hat]

theorem put_self {l : List α} {i : Int} {a : α} (h : at? l i = some a) : put l i a = l := by
  unfold at? at h
  split at h
  · obtain ⟨hi, rfl⟩ := List.getElem?_eq_some_iff.1 h
    exact List.set_getElem_self hi
  · cases h

theorem countP_put_lt {l : List α} {i : Int} {a b : α} {p : α → Bool} (h : at? l i = some b)
    (hb : p b = true) (ha : p a = false) : (put l i a).countP p < l.countP p := by
  obtain ⟨h0, h1⟩ := range_of_at? h
  have hlt : i.toNat < l.length := by omega
  have hpos : 0 < l.countP p := List.countP_pos_iff.2 ⟨b, mem_of_at? h, hb⟩
  have hget : l[i.toNat] = b := by
    rw [at?, if_pos h0, List.getElem?_eq_getElem hlt] at h
    exact Option.some.inj h
  rw [put, List.countP_set hlt, hget]
  simp only [hb, ha, ↓reduceIte, Bool.false_eq_true, Nat.add_zero]
  omega

/-! ## Accesses -/

/-- `l[i]` as a read. -/
def rd (l : List α) (i : Int) : Except Fault α :=
  match at? l i with
  | some a => .ok a
  | none => .error (.outOfBounds l.length i)

def wr (l : List α) (i : Int) (a : α) : Except Fault (List α) :=
  match at? l i with
  | some _ => .ok (put l i a)
  | none => .error (.outOfBounds l.length i)

theorem rd_eq_ok {l : List α} {i : Int} {a : α} : rd l i = .ok a ↔ at? l i = some a := by
  unfold rd
  cases h : at? l i <;> simp

theorem wr_eq_ok {l l' : List α} {i : Int} {a : α} :
    wr l i a = .ok l' ↔ (∃ b, at? l i = some b) ∧ l' = put l i a := by
  unfold wr
  cases h : at? l i <;> simp [eq_comm]

end ConFuzz.CLib
