import Mathlib.Algebra.Order.Ring.Nat
import Mathlib.Data.Nat.Basic

/-!
# Byte regions and the blocks they touch

A region is a signed byte offset and a length; a negative offset says that there
is no region. `Within bs R offset length` says that every byte of a region is in
a block of `bs` bytes with the property `R`. A region that starts with a block
is within `R` when the blocks it reaches into are.
-/

namespace ConFuzz.CLib

/-- Every byte of the region is in a block that satisfies `R`. -/
def Within (bs : Nat) (R : Nat → Prop) (offset : Int) (length : Nat) : Prop :=
  0 ≤ offset → ∀ p : Nat, offset ≤ p → (p : Int) < offset + length → R (p / bs)

variable {bs : Nat} {R : Nat → Prop}

theorem Within.of_neg {offset : Int} {length : Nat} (h : offset < 0) :
    Within bs R offset length := by
  intro h0
  omega

theorem Within.of_empty (offset : Int) : Within bs R offset 0 := by
  intro _ p h1 h2
  omega

theorem Within.first {p length : Nat} (h : Within bs R p length) (hl : 0 < length) :
    R (p / bs) :=
  h (by omega) p (by omega) (by omega)

/-- A region of whole blocks. -/
theorem within_blocks (hbs : 0 < bs) (b n : Nat) :
    Within bs R ((b * bs : Nat) : Int) (n * bs) ↔ ∀ i < n, R (b + i) := by
  constructor
  · intro h i hi
    have hlt : i * bs + bs ≤ n * bs := by
      rw [← Nat.succ_mul]
      exact Nat.mul_le_mul_right bs hi
    have hr := h (by omega) ((b + i) * bs) (by rw [Nat.add_mul]; omega)
      (by rw [Nat.add_mul]; omega)
    rwa [Nat.mul_div_cancel _ hbs] at hr
  · intro h _ p hlo hhi
    have hge : b ≤ p / bs := (Nat.le_div_iff_mul_le hbs).2 (by omega)
    have hlt : p / bs < b + n := by
      rw [Nat.div_lt_iff_lt_mul hbs, Nat.add_mul]
      omega
    have hr := h (p / bs - b) (by omega)
    rwa [Nat.add_sub_cancel' hge] at hr

theorem within_block (hbs : 0 < bs) (b : Nat) {length : Nat} (h0 : 0 < length)
    (hl : length ≤ bs) : Within bs R ((b * bs : Nat) : Int) length ↔ R b := by
  constructor
  · intro h
    have hr := h.first h0
    rwa [Nat.mul_div_cancel _ hbs] at hr
  · intro h _ p hlo hhi
    have hp : p / bs = b := by
      apply Nat.div_eq_of_lt_le
      · omega
      · rw [Nat.succ_mul]
        omega
    rwa [hp]

end ConFuzz.CLib
