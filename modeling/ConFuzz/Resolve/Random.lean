import ConFuzz.Model.Rand

/-!
# The range of `rand_num`

A word from `2 ^ 64 - 1024` on is rounded to `2 ^ 64` when it becomes a `double`,
so the fraction is 1 and `rand_num` returns its exclusive bound. Any other word
gives a fraction of at most `1 - 2 ^ -53`, and the rounding of the product does
not make up for that. The words that fail are those whose upper 54 bits are all 1
(`HighBytes`).
-/

namespace ConFuzz

open ConFuzz.CLib

/-! ## Words -/

section

variable {random : Nat → Nat}

theorem randomWord_eq (random : Nat → Nat) : randomWord random =
    random 0 % 256 + 256 * (random 1 % 256 + 256 * (random 2 % 256 + 256 * (random 3 % 256 +
    256 * (random 4 % 256 + 256 * (random 5 % 256 + 256 * (random 6 % 256 +
    256 * (random 7 % 256 + 256 * 0))))))) := rfl

theorem randomWord_lt (random : Nat → Nat) : randomWord random < 2 ^ 64 := by
  rw [randomWord_eq]
  omega

/-- The upper 54 bits of the word are all 1. -/
def HighBytes (random : Nat → Nat) : Prop :=
  252 ≤ random 1 % 256 ∧ ∀ i, 2 ≤ i → i < 8 → random i % 256 = 255

theorem highBytes_iff : HighBytes random ↔ 2 ^ 64 - 1024 ≤ randomWord random := by
  rw [randomWord_eq]
  constructor
  · rintro ⟨h1, h⟩
    have h2 := h 2 (by omega) (by omega)
    have h3 := h 3 (by omega) (by omega)
    have h4 := h 4 (by omega) (by omega)
    have h5 := h 5 (by omega) (by omega)
    have h6 := h 6 (by omega) (by omega)
    have h7 := h 7 (by omega) (by omega)
    omega
  · intro h
    refine ⟨by omega, fun i h2 h8 => ?_⟩
    obtain rfl | rfl | rfl | rfl | rfl | rfl : i = 2 ∨ i = 3 ∨ i = 4 ∨ i = 5 ∨ i = 6 ∨ i = 7 := by
      omega
    all_goals omega

/-! ## Words as `double`s -/

theorem toDouble_high {x : ℚ} (h0 : 2 ^ 63 ≤ x) (h1 : x < 2 ^ 64) :
    toDouble x = roundEven (x / 2048) * 2048 := by
  have hx : 0 < x := by linarith
  have hlog : Int.log 2 x = 63 := log_eq_of_range (by exact_mod_cast h0) (by exact_mod_cast h1)
  have hunit : unit 53 x = 2048 := by
    unfold unit
    rw [abs_of_pos hx, hlog]
    norm_num
  rw [toDouble, roundTo, hunit]

/-- The last 1024 words are rounded up to `2 ^ 64`. -/
theorem toDouble_top {x : ℚ} (h0 : 2 ^ 64 - 1024 ≤ x) (h1 : x < 2 ^ 64) :
    toDouble x = 2 ^ 64 := by
  rw [toDouble_high (by linarith) h1, roundEven_eq_of_even (n := 2 ^ 53) (by norm_num)]
  · norm_num
  · push_cast
    linarith
  · push_cast
    linarith

theorem toDouble_below {n : Nat} (h : n < 2 ^ 64 - 1024) : toDouble n ≤ 2 ^ 64 - 2048 := by
  have hn : (n : ℚ) < 2 ^ 64 - 1024 := by
    have : (n : ℚ) + 1024 < 2 ^ 64 := by exact_mod_cast (by omega : n + 1024 < 2 ^ 64)
    linarith
  rcases Nat.eq_zero_or_pos n with rfl | hpos
  · rw [toDouble, Nat.cast_zero, roundTo_zero]
    norm_num
  rcases lt_or_ge (n : ℚ) (2 ^ 63) with hlow | hhigh
  · have hle := roundTo_le (p := 53) (x := n) (by exact_mod_cast hpos)
    rw [toDouble]
    have : (n : ℚ) * (1 + 1 / 2 ^ 53) ≤ 2 ^ 63 * (1 + 1 / 2 ^ 53) :=
      mul_le_mul_of_nonneg_right hlow.le (by norm_num)
    have : (2 : ℚ) ^ 63 * (1 + 1 / 2 ^ 53) ≤ 2 ^ 64 - 2048 := by norm_num
    linarith
  · rw [toDouble_high hhigh (by linarith)]
    have hle : roundEven ((n : ℚ) / 2048) ≤ 2 ^ 53 - 1 := by
      apply roundEven_le
      push_cast
      linarith
    have hle : (roundEven ((n : ℚ) / 2048) : ℚ) ≤ 2 ^ 53 - 1 := by exact_mod_cast hle
    linarith

theorem wordScale_eq : wordScale = 2 ^ 64 := by
  have hlog : Int.log 2 ((2 : ℚ) ^ 64 + 1) = 64 := by
    apply log_eq_of_range
    · norm_num
    · norm_num
  have hunit : unit 53 ((2 : ℚ) ^ 64 + 1) = 4096 := by
    unfold unit
    rw [abs_of_pos (by positivity), hlog]
    norm_num
  have hround : roundEven (((2 : ℚ) ^ 64 + 1) / 4096) = 2 ^ 52 := by
    apply roundEven_eq_of_lt
    · norm_num
    · norm_num
  have hmax : toDouble (2 ^ 64 - 1) = 2 ^ 64 := toDouble_top (by norm_num) (by norm_num)
  rw [wordScale, hmax, toDouble, roundTo, hunit, hround]
  norm_num

/-! ## The draw -/

theorem toDouble_div_scale (n : Nat) :
    toDouble (toDouble n / wordScale) = toDouble n / 2 ^ 64 := by
  have h0 : 0 ≤ toDouble n := roundTo_nonneg (Nat.cast_nonneg n)
  rw [wordScale_eq]
  rcases h0.eq_or_lt with hz | hpos
  · rw [← hz, zero_div, toDouble, roundTo_zero]
  · have hdiv : toDouble n / 2 ^ 64 = toDouble n * 2 ^ (-64 : ℤ) := by
      rw [zpow_neg, div_eq_mul_inv]
      norm_num
    rw [hdiv]
    show roundTo 53 (toDouble n * 2 ^ (-64 : ℤ)) = _
    rw [roundTo_mul_zpow 53 hpos]
    show roundTo 53 (roundTo 53 n) * _ = _
    rw [roundTo_roundTo (by norm_num) (Nat.cast_nonneg n)]
    rfl

theorem toDouble_span {min max : Nat} (hlt : min < max) (hmax : max < 2 ^ 64)
    (hspan : max - min ≤ 2 ^ 31) :
    toDouble (toU64 ((max : Int) - min) : Nat) = ((max - min : Nat) : ℚ) := by
  have hsub : toU64 ((max : Int) - min) = max - min := by
    unfold toU64
    omega
  rw [hsub]
  exact roundTo_natCast (by omega)

theorem floor_draw {n d : Nat} (hn : n < 2 ^ 64 - 1024) (hd : 0 < d) :
    0 ≤ ⌊toDouble (d * (toDouble n / 2 ^ 64))⌋ ∧
      ⌊toDouble (d * (toDouble n / 2 ^ 64))⌋ < (d : ℤ) := by
  have hd' : (0 : ℚ) < d := by exact_mod_cast hd
  have hq0 : 0 ≤ toDouble n / 2 ^ 64 :=
    div_nonneg (roundTo_nonneg (Nat.cast_nonneg n)) (by norm_num)
  have hq1 : toDouble n / 2 ^ 64 ≤ 1 - 1 / 2 ^ 53 := by
    have := toDouble_below hn
    rw [div_le_iff₀ (by norm_num)]
    linarith
  have hprod0 : 0 ≤ d * (toDouble n / 2 ^ 64) := mul_nonneg hd'.le hq0
  refine ⟨Int.floor_nonneg.2 (roundTo_nonneg hprod0), ?_⟩
  rw [Int.floor_lt]
  rcases hprod0.eq_or_lt with hz | hpos
  · rw [← hz, toDouble, roundTo_zero]
    exact_mod_cast hd
  · calc toDouble (d * (toDouble n / 2 ^ 64))
        ≤ d * (toDouble n / 2 ^ 64) * (1 + 1 / 2 ^ 53) := roundTo_le hpos
      _ ≤ d * (1 - 1 / 2 ^ 53) * (1 + 1 / 2 ^ 53) := by
          refine mul_le_mul_of_nonneg_right ?_ (by norm_num)
          exact mul_le_mul_of_nonneg_left hq1 hd'.le
      _ < d := by nlinarith
      _ = ((d : ℤ) : ℚ) := by norm_num

/-- What `rand_num` returns below the last 1024 words. -/
theorem randNum_below {min max : Nat} (hlt : min < max) (hmax : max < 2 ^ 64)
    (hspan : max - min ≤ 2 ^ 31) (hlow : ¬ HighBytes random) :
    min ≤ randNum random min max ∧ randNum random min max < max := by
  rw [highBytes_iff, Nat.not_le] at hlow
  obtain ⟨h0, h1⟩ := floor_draw hlow (show 0 < max - min by omega)
  unfold randNum
  rw [toDouble_span hlt hmax hspan, toDouble_div_scale]
  unfold toU64
  omega

/-- The last 1024 words give the upper bound. -/
theorem randNum_high {min max : Nat} (hlt : min < max) (hmax : max < 2 ^ 64)
    (hspan : max - min ≤ 2 ^ 31) (hhigh : HighBytes random) : randNum random min max = max := by
  have hword : toDouble (randomWord random) = 2 ^ 64 := by
    have hlt := randomWord_lt random
    rw [highBytes_iff] at hhigh
    apply toDouble_top
    · have : (2 ^ 64 : ℚ) ≤ randomWord random + 1024 := by
        exact_mod_cast (by omega : 2 ^ 64 ≤ randomWord random + 1024)
      linarith
    · exact_mod_cast hlt
  have hfloor : ⌊toDouble (((max - min : Nat) : ℚ) * 1)⌋ = ((max - min : Nat) : ℤ) := by
    rw [mul_one]
    show ⌊roundTo 53 ((max - min : Nat) : ℚ)⌋ = _
    rw [roundTo_natCast (by omega)]
    exact Int.floor_natCast _
  unfold randNum
  rw [toDouble_span hlt hmax hspan, toDouble_div_scale, hword, div_self (by norm_num), hfloor]
  unfold toU64
  omega

end

/-- **The range of `rand_num`.** For bounds at most `2 ^ 31` apart, `rand_num` stays below its
upper bound if and only if the upper 54 bits of its word are not all 1. -/
theorem randNum_in_range_iff (random : Nat → Nat) (min max : Nat) (hlt : min < max)
    (hmax : max < 2 ^ 64) (hspan : max - min ≤ 2 ^ 31) :
    (min ≤ randNum random min max ∧ randNum random min max < max) ↔ ¬ HighBytes random := by
  constructor
  · intro hrange hhigh
    rw [randNum_high hlt hmax hspan hhigh] at hrange
    exact Nat.lt_irrefl max hrange.2
  · exact randNum_below hlt hmax hspan

/-- Bytes that are all 0 draw inside the bounds. -/
theorem randNum_zero_in_range :
    (3 ≤ randNum (fun _ => 0) 3 10 ∧ randNum (fun _ => 0) 3 10 < 10) ↔ ¬ HighBytes fun _ => 0 :=
  randNum_in_range_iff (fun _ => 0) 3 10 (by decide) (by decide) (by decide)

/-- Bytes that are all `0xff` draw 1 from the numbers below 1. -/
theorem randNum_ones_out_of_range :
    ¬ (0 ≤ randNum (fun _ => 255) 0 1 ∧ randNum (fun _ => 255) 0 1 < 1) := by
  have hhigh : HighBytes fun _ => 255 := ⟨by decide, fun _ _ _ => rfl⟩
  rw [randNum_high (by decide) (by decide) (by decide) hhigh]
  decide

end ConFuzz
