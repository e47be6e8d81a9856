import ConFuzz.CLib.Float
import ConFuzz.Model.Table

/-!
# `rand_num`

The draw of a number between two bounds, with the arithmetic of the machine: a
word is filled with the low bytes of eight results of `random()`, and the fraction
it stands for is scaled in `double`s. Every conversion, sum, product and quotient
of `double`s is its exact value rounded to 53 significant bits. The exponents
stay far from the ends of their range.
-/

namespace ConFuzz

open ConFuzz.CLib

def toDouble (x : ℚ) : ℚ := roundTo 53 x

/-- The word whose bytes are the low bytes of eight results of `random()`, the first result
in the lowest byte. -/
def randomWord (random : Nat → Nat) : Nat :=
  (List.range 8).foldr (fun i x => random i % 256 + 256 * x) 0

def wordScale : ℚ := toDouble (toDouble (2 ^ 64 - 1) + 1)

def randNum (random : Nat → Nat) (min max : Nat) : Nat :=
  toU64 (min + ⌊toDouble (toDouble (toU64 (max - min)) *
    toDouble (toDouble (randomWord random) / wordScale))⌋)

end ConFuzz
