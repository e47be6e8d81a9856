import Mathlib.Algebra.Order.Field.Power
import Mathlib.Data.Int.Log
import Mathlib.Data.Rat.Floor
import Mathlib.Tactic.FieldSimp
import Mathlib.Tactic.Linarith
import Mathlib.Tactic.Positivity

/-!
# Rounding to a number of significant bits

`roundTo p x` is the rational `x` rounded to `p` significant bits, to nearest
with ties to even: the result of a floating point operation with exact value
`x`, as long as the exponent is in range. It is exact on integers up to `2 ^ p`
(`roundTo_natCast`), commutes with powers of two (`roundTo_mul_zpow`), is
idempotent (`roundTo_roundTo`), and its relative error is at most `2 ^ -p`
(`roundTo_le`).
-/

namespace ConFuzz.CLib

/-! ## Integers -/

/-- The integer nearest to `x`, and the even one of two. -/
def roundEven (x : ℚ) : ℤ :=
  if x - ⌊x⌋ < 1 / 2 then ⌊x⌋
  else if 1 / 2 < x - ⌊x⌋ then ⌊x⌋ + 1
  else if ⌊x⌋ % 2 = 0 then ⌊x⌋
  else ⌊x⌋ + 1

theorem roundEven_eq_of_lt {x : ℚ} {n : ℤ} (h0 : n ≤ x) (h1 : x < n + 1 / 2) :
    roundEven x = n := by
  have hfloor : ⌊x⌋ = n := by
    rw [Int.floor_eq_iff]
    exact ⟨h0, by linarith⟩
  unfold roundEven
  rw [hfloor, if_pos (by linarith)]

@[simp] theorem roundEven_intCast (n : ℤ) : roundEven n = n :=
  roundEven_eq_of_lt (le_refl _) (by linarith)

theorem roundEven_le_add (x : ℚ) : (roundEven x : ℚ) ≤ x + 1 / 2 := by
  have h0 := Int.floor_le x
  unfold roundEven
  split_ifs
  · linarith
  · push_cast; linarith
  · linarith
  · push_cast; linarith

theorem roundEven_le {x : ℚ} {n : ℤ} (h : x < n + 1 / 2) : roundEven x ≤ n := by
  have hlt : (roundEven x : ℚ) < n + 1 := by
    have := roundEven_le_add x
    linarith
  have : roundEven x < n + 1 := by exact_mod_cast hlt
  omega

theorem roundEven_nonneg {x : ℚ} (h : 0 ≤ x) : 0 ≤ roundEven x := by
  have h0 : 0 ≤ ⌊x⌋ := Int.floor_nonneg.2 h
  unfold roundEven
  split_ifs <;> omega

theorem roundEven_eq_of_even {x : ℚ} {n : ℤ} (hn : n % 2 = 0) (h0 : (n : ℚ) - 1 / 2 ≤ x)
    (h1 : x < n) : roundEven x = n := by
  have hfloor : ⌊x⌋ = n - 1 := by
    rw [Int.floor_eq_iff]
    push_cast
    constructor
    · linarith
    · linarith
  unfold roundEven
  rw [hfloor]
  push_cast
  rw [if_neg (by linarith)]
  split_ifs with h2 h3
  · omega
  · omega
  · omega

/-! ## Significant bits -/

/-- The unit in the last of `p` places of `x`. -/
def unit (p : ℕ) (x : ℚ) : ℚ := 2 ^ (Int.log 2 |x| + 1 - p)

/-- `x` rounded to `p` significant bits. -/
def roundTo (p : ℕ) (x : ℚ) : ℚ := roundEven (x / unit p x) * unit p x

theorem unit_pos (p : ℕ) (x : ℚ) : 0 < unit p x := by
  unfold unit
  positivity

@[simp] theorem roundTo_zero (p : ℕ) : roundTo p 0 = 0 := by
  have h := roundEven_intCast 0
  simp only [Int.cast_zero] at h
  rw [roundTo, zero_div, h, Int.cast_zero, zero_mul]

theorem roundTo_nonneg {p : ℕ} {x : ℚ} (h : 0 ≤ x) : 0 ≤ roundTo p x := by
  have hu := unit_pos p x
  have h0 : (0 : ℚ) ≤ roundEven (x / unit p x) := by
    exact_mod_cast roundEven_nonneg (div_nonneg h hu.le)
  exact mul_nonneg h0 hu.le

theorem log_eq_of_range {x : ℚ} {k : ℤ} (h0 : (2 : ℚ) ^ k ≤ x) (h1 : x < 2 ^ (k + 1)) :
    Int.log 2 x = k := by
  have hx : 0 < x := lt_of_lt_of_le (by positivity) h0
  apply le_antisymm
  · have := (Int.lt_zpow_iff_log_lt (b := 2) (by norm_num) hx).1 (by exact_mod_cast h1)
    omega
  · exact (Int.zpow_le_iff_le_log (b := 2) (by norm_num) hx).1 (by exact_mod_cast h0)

theorem zpow_log_le {x : ℚ} (h : 0 < x) : (2 : ℚ) ^ Int.log 2 x ≤ x := by
  exact_mod_cast Int.zpow_log_le_self (b := 2) (by norm_num) h

theorem lt_zpow_log {x : ℚ} : x < (2 : ℚ) ^ (Int.log 2 x + 1) := by
  exact_mod_cast Int.lt_zpow_succ_log_self (b := 2) (by norm_num) x

theorem unit_mul_zpow (p : ℕ) {x : ℚ} (h : 0 < x) (k : ℤ) :
    unit p (x * 2 ^ k) = unit p x * 2 ^ k := by
  have hpos : 0 < x * (2 : ℚ) ^ k := by positivity
  have hlog : Int.log 2 (x * (2 : ℚ) ^ k) = Int.log 2 x + k := by
    apply log_eq_of_range
    · rw [zpow_add₀ (by norm_num)]
      exact mul_le_mul_of_nonneg_right (zpow_log_le h) (by positivity)
    · rw [show Int.log 2 x + k + 1 = Int.log 2 x + 1 + k by ring, zpow_add₀ (by norm_num)]
      exact mul_lt_mul_of_pos_right lt_zpow_log (by positivity)
  unfold unit
  rw [abs_of_pos hpos, abs_of_pos h, hlog, ← zpow_add₀ (by norm_num)]
  congr 1
  ring

/-- **Rounding commutes with powers of two.** -/
theorem roundTo_mul_zpow (p : ℕ) {x : ℚ} (h : 0 < x) (k : ℤ) :
    roundTo p (x * 2 ^ k) = roundTo p x * 2 ^ k := by
  have hk : (2 : ℚ) ^ k ≠ 0 := by positivity
  rw [roundTo, unit_mul_zpow p h, mul_div_mul_right _ _ hk, roundTo, mul_assoc]

/-- **The relative error** of a rounding upwards. -/
theorem roundTo_le {p : ℕ} {x : ℚ} (h : 0 < x) : roundTo p x ≤ x * (1 + 1 / 2 ^ p) := by
  have hu := unit_pos p x
  have hhalf : unit p x / 2 ≤ x / 2 ^ p := by
    have hsplit : unit p x = 2 ^ Int.log 2 x * 2 / 2 ^ p := by
      unfold unit
      rw [abs_of_pos h, zpow_sub₀ (by norm_num), zpow_add₀ (by norm_num), zpow_one, zpow_natCast]
    rw [hsplit]
    have hle := zpow_log_le h
    have hp : (0 : ℚ) < 2 ^ p := by positivity
    rw [div_div, div_le_div_iff₀ (by positivity) hp]
    nlinarith
  calc roundTo p x ≤ (x / unit p x + 1 / 2) * unit p x :=
        mul_le_mul_of_nonneg_right (roundEven_le_add _) hu.le
    _ = x + unit p x / 2 := by field_simp
    _ ≤ x + x / 2 ^ p := by linarith
    _ = x * (1 + 1 / 2 ^ p) := by ring

/-- **Integers of `p` bits are exact.** -/
theorem roundTo_natCast {p n : ℕ} (h : n < 2 ^ p) : roundTo p n = n := by
  rcases Nat.eq_zero_or_pos n with rfl | hn
  · rw [Nat.cast_zero, roundTo_zero]
  have hpos : (0 : ℚ) < n := by exact_mod_cast hn
  have hlog : Int.log 2 (n : ℚ) = Nat.log 2 n := Int.log_natCast 2 n
  have hlt : Nat.log 2 n < p := Nat.log_lt_of_lt_pow hn.ne' h
  -- the last place of `n` is an integer, or finer
  obtain ⟨j, hj⟩ : ∃ j : ℕ, Nat.log 2 n + 1 + j = p := ⟨p - (Nat.log 2 n + 1), by omega⟩
  have hunit : unit p (n : ℚ) = (2 ^ j)⁻¹ := by
    unfold unit
    rw [abs_of_pos hpos, hlog, ← zpow_natCast, ← zpow_neg]
    congr 1
    omega
  have hquot : (n : ℚ) / unit p n = ((n * 2 ^ j : ℕ) : ℤ) := by
    rw [hunit, div_inv_eq_mul]
    push_cast
    ring
  rw [roundTo, hquot, roundEven_intCast, ← hquot, div_mul_cancel₀ _ (unit_pos p _).ne']

theorem roundTo_natCast_le {p n : ℕ} (hp : 0 < p) (h : n ≤ 2 ^ p) : roundTo p n = n := by
  rcases Nat.lt_or_eq_of_le h with h | rfl
  · exact roundTo_natCast h
  · have hone : roundTo p ((1 : ℕ) : ℚ) = 1 := by
      rw [roundTo_natCast (Nat.one_lt_two_pow hp.ne')]
      norm_num
    have hscale := roundTo_mul_zpow p (x := 1) (by norm_num) p
    rw [Nat.cast_one] at hone
    rw [hone, one_mul, zpow_natCast] at hscale
    push_cast
    exact hscale

/-- **A rounded number is exact.** -/
theorem roundTo_roundTo {p : ℕ} (hp : 0 < p) {x : ℚ} (h : 0 ≤ x) :
    roundTo p (roundTo p x) = roundTo p x := by
  rcases h.eq_or_lt with rfl | h
  · rw [roundTo_zero, roundTo_zero]
  have hu := unit_pos p x
  have hquot : x / unit p x < 2 ^ p := by
    rw [div_lt_iff₀ hu, unit, abs_of_pos h, ← zpow_natCast, ← zpow_add₀ (by norm_num)]
    have hexp : (p : ℤ) + (Int.log 2 x + 1 - p) = Int.log 2 x + 1 := by ring
    rw [hexp]
    exact lt_zpow_log
  have hle : roundEven (x / unit p x) ≤ 2 ^ p := by
    apply roundEven_le
    push_cast
    linarith
  obtain ⟨m, hm⟩ := Int.eq_ofNat_of_zero_le (roundEven_nonneg (div_nonneg h.le hu.le))
  have hm2 : m ≤ 2 ^ p := by
    rw [hm] at hle
    exact_mod_cast hle
  have hval : roundTo p x = (m : ℚ) * 2 ^ (Int.log 2 |x| + 1 - p) := by
    rw [roundTo, hm]
    rfl
  rw [hval]
  rcases Nat.eq_zero_or_pos m with rfl | hmpos
  · simp
  · rw [roundTo_mul_zpow p (by exact_mod_cast hmpos), roundTo_natCast_le hp hm2]

end ConFuzz.CLib
