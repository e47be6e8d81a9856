import ConFuzz.CLib.Getopt
import Mathlib.Data.List.TakeWhile
import Mathlib.Tactic.IntervalCases

/-!
# Numbers and lists in arguments

`strtoul` with base 0 and 64 bits, and `atoi`: blanks, a sign, the base that the
text chooses, the digits, and the rest of the text. A number that is printed in
decimal is read back (`strtoul_toString`, `atoi_toString`).

`tokens` are the parts of a list that a loop over its separators sees, and
`splitArg` cuts one part at its `=`. A list that is put together from words is
taken apart again (`tokens_intercalate`).
-/

namespace ConFuzz.CLib

/-! ## Digits -/

/-- `isspace` of the C locale. -/
def isSpace (c : Char) : Bool :=
  c == ' ' || c == '\t' || c == '\n' || c == '\x0b' || c == '\x0c' || c == '\r'

def digitOf (base : Nat) (c : Char) : Option Nat :=
  let d :=
    if c.isDigit then c.toNat - 48
    else if c.isLower then c.toNat - 87
    else if c.isUpper then c.toNat - 55
    else base
  if d < base then some d else none

/-- The number at the start of a text, and the rest of the text. -/
def scanDigits (base : Nat) : Nat → List Char → Nat × List Char
  | acc, [] => (acc, [])
  | acc, c :: cs =>
    match digitOf base c with
    | some d => scanDigits base (base * acc + d) cs
    | none => (acc, c :: cs)

/-- The base that the text chooses, and the text without its `0x`. -/
def chooseBase : List Char → Nat × List Char
  | '0' :: x :: c :: cs =>
    if (x = 'x' ∨ x = 'X') ∧ (digitOf 16 c).isSome then (16, c :: cs) else (8, '0' :: x :: c :: cs)
  | '0' :: cs => (8, '0' :: cs)
  | cs => (10, cs)

def takeSign : List Char → Bool × List Char
  | '-' :: cs => (true, cs)
  | '+' :: cs => (false, cs)
  | cs => (false, cs)

/-- The sign, the absolute value and the rest of a number, if the text has one. Base 0 lets the
text choose. -/
def scanNumber (base : Nat) (text : List Char) : Option (Bool × Nat × List Char) :=
  let signed := takeSign (text.dropWhile isSpace)
  let based := if base = 0 then chooseBase signed.2 else (base, signed.2)
  match based.2 with
  | [] => none
  | c :: cs =>
    if (digitOf based.1 c).isSome then some (signed.1, scanDigits based.1 0 (c :: cs)) else none

/-- `strtoul` and `strtoull` with base 0, and the text at `endptr`. -/
def strtoul (text : List Char) : Nat × List Char :=
  match scanNumber 0 text with
  | none => (0, text)
  | some (neg, n, rest) =>
    (if 2 ^ 64 ≤ n then 2 ^ 64 - 1 else if neg then (2 ^ 64 - n) % 2 ^ 64 else n, rest)

/-- `strtol` with base 10, and the text at `endptr`. -/
def strtol (text : List Char) : Int × List Char :=
  match scanNumber 10 text with
  | none => (0, text)
  | some (true, n, rest) => (-(min n (2 ^ 63) : Nat), rest)
  | some (false, n, rest) => ((min n (2 ^ 63 - 1) : Nat), rest)

def toInt32 (z : Int) : Int := (BitVec.ofInt 32 z).toInt

def atoi (text : List Char) : Int := toInt32 (strtol text).1

/-! ## Decimal numbers -/

theorem digitOf_of_isDigit {c : Char} (h : c.isDigit = true) :
    digitOf 10 c = some (c.toNat - 48) := by
  have hc : 48 ≤ c.toNat ∧ c.toNat ≤ 57 := by
    rw [Char.isDigit, Bool.and_eq_true, decide_eq_true_iff, decide_eq_true_iff] at h
    exact h
  unfold digitOf
  simp only [h, if_true]
  exact if_pos (by omega)

theorem scanDigits_of_isDigit : ∀ {cs : List Char} (acc : Nat), (∀ c ∈ cs, c.isDigit = true) →
    scanDigits 10 acc cs = (Nat.ofDigitChars 10 cs acc, [])
  | [], _, _ => by rw [scanDigits, Nat.ofDigitChars_nil]
  | c :: cs, acc, h => by
    rw [scanDigits, digitOf_of_isDigit (h c List.mem_cons_self), Nat.ofDigitChars_cons]
    exact scanDigits_of_isDigit _ fun c' hc' => h c' (List.mem_cons_of_mem c hc')

theorem head_toDigits_ne_zero {n : Nat} (hn : 0 < n) : (Nat.toDigits 10 n).head? ≠ some '0' := by
  induction n using Nat.strongRecOn with
  | ind n ih =>
    rw [Nat.toDigits_eq_if (by decide)]
    split
    · intro h
      rw [List.head?_cons, Option.some.injEq] at h
      interval_cases n <;> exact absurd h (by decide)
    · rw [List.head?_append_of_ne_nil _ Nat.toDigits_ne_nil]
      exact ih (n / 10) (by omega) (by omega)

theorem isDigit_of_mem_toString {n : Nat} {c : Char} (h : c ∈ (toString n).toList) :
    c.isDigit = true := by
  rw [Nat.toString_eq_ofList_toDigits, String.toList_ofList] at h
  exact Nat.isDigit_of_mem_toDigits (by decide) (by decide) h

theorem takeSign_of_isDigit {c : Char} {cs : List Char} (h : c.isDigit = true) :
    takeSign ((c :: cs).dropWhile isSpace) = (false, c :: cs) := by
  have hne : ∀ x : Char, x.isDigit = false → c ≠ x := by
    rintro x hx rfl
    rw [h] at hx
    cases hx
  have hspace : ¬ isSpace c = true := by
    unfold isSpace
    simp only [Bool.or_eq_true, beq_iff_eq]
    rintro (((((h | h) | h) | h) | h) | h) <;> exact hne _ (by decide) h
  rw [List.dropWhile_cons_of_neg hspace, takeSign]
  · exact fun cs' he => hne '-' (by decide) (List.cons.inj he).1
  · exact fun cs' he => hne '+' (by decide) (List.cons.inj he).1

theorem chooseBase_of_head {c : Char} {cs : List Char} (h : c ≠ '0') :
    chooseBase (c :: cs) = (10, c :: cs) := by
  rw [chooseBase]
  · exact fun _ _ _ he => h (List.cons.inj he).1
  · exact fun _ he => h (List.cons.inj he).1

theorem scanNumber_toString (n : Nat) :
    scanNumber 0 (toString n).toList = some (false, n, []) ∧
      scanNumber 10 (toString n).toList = some (false, n, []) := by
  have hdigits : ∀ c ∈ Nat.toDigits 10 n, c.isDigit = true := fun c hc =>
    Nat.isDigit_of_mem_toDigits (by decide) (by decide) hc
  have hscan := scanDigits_of_isDigit 0 hdigits
  rw [Nat.ofDigitChars_ten_toDigits] at hscan
  rw [Nat.toString_eq_ofList_toDigits, String.toList_ofList]
  rcases Nat.eq_zero_or_pos n with rfl | hn
  · exact ⟨by decide, by decide⟩
  have hhead := head_toDigits_ne_zero hn
  obtain ⟨c, cs, hcs⟩ := List.exists_cons_of_ne_nil (@Nat.toDigits_ne_nil n 10)
  rw [hcs] at hhead hscan hdigits ⊢
  have hc := hdigits c List.mem_cons_self
  have hbase : chooseBase (c :: cs) = (10, c :: cs) :=
    chooseBase_of_head fun h => hhead (congrArg some h)
  constructor
  · simp [scanNumber, takeSign_of_isDigit hc, hbase, digitOf_of_isDigit hc, hscan]
  · simp [scanNumber, takeSign_of_isDigit hc, digitOf_of_isDigit hc, hscan]

/-- A printed number is read back. -/
theorem strtoul_toString {n : Nat} (h : n < 2 ^ 64) : strtoul (toString n).toList = (n, []) := by
  unfold strtoul
  rw [(scanNumber_toString n).1]
  simp only [if_neg (Nat.not_le.2 h), Bool.false_eq_true, if_false]

theorem toInt32_natCast {n : Nat} (h : n < 2 ^ 31) : toInt32 n = n := by
  unfold toInt32
  rw [BitVec.toInt_ofInt, Int.bmod_eq_of_le (by omega) (by omega)]

/-- The parts that a loop over a list sees: it skips some characters, takes the part up to the
next separator, and goes on behind the separator unless the text ends there. -/
def scanTokens (skip stop : Char → Bool) : Nat → List Char → List Word
  | 0, _ => []
  | _ + 1, [] => []
  | fuel + 1, c :: cs =>
    let text := (c :: cs).dropWhile skip
    let token := text.takeWhile fun c => !stop c
    match text.dropWhile fun c => !stop c with
    | [] => [token]
    | _ :: next => token :: scanTokens skip stop fuel next

/-- The parts of a list. Every part takes a character, so the length of the text is enough
fuel. -/
def tokens (skip stop : Char → Bool) (text : List Char) : List Word :=
  scanTokens skip stop text.length text

/-- The name of an element and its argument, cut at the first `=`. -/
def splitArg (token : Word) : Word × Option Word :=
  match token.dropWhile (· ≠ '=') with
  | [] => (token, none)
  | _ :: arg => (token.takeWhile (· ≠ '='), some arg)

structure IsToken (skip stop : Char → Bool) (w : Word) : Prop where
  ne_nil : w ≠ []
  clean : ∀ c ∈ w, skip c = false ∧ stop c = false

instance (skip stop : Char → Bool) (w : Word) : Decidable (IsToken skip stop w) :=
  decidable_of_iff (w ≠ [] ∧ ∀ c ∈ w, skip c = false ∧ stop c = false)
    ⟨fun h => ⟨h.1, h.2⟩, fun h => ⟨h.ne_nil, h.clean⟩⟩

section

variable {skip stop : Char → Bool} {w : Word} {sep : Char}

theorem cut_append_cons {p : Char → Bool} {rest : List Char} (hw : ∀ c ∈ w, p c = true)
    (hsep : p sep = false) :
    (w ++ sep :: rest).takeWhile p = w ∧ (w ++ sep :: rest).dropWhile p = sep :: rest := by
  have hneg : ¬ p sep = true := by rw [hsep]; exact Bool.false_ne_true
  rw [List.takeWhile_append_of_pos hw, List.dropWhile_append_of_pos hw,
    List.takeWhile_cons_of_neg hneg, List.dropWhile_cons_of_neg hneg, List.append_nil]
  exact ⟨rfl, rfl⟩

theorem IsToken.dropWhile_skip (h : IsToken skip stop w) (rest : List Char) :
    (w ++ rest).dropWhile skip = w ++ rest := by
  obtain ⟨c, cs, rfl⟩ := List.exists_cons_of_ne_nil h.ne_nil
  have hc := (h.clean c List.mem_cons_self).1
  rw [List.cons_append, List.dropWhile_cons_of_neg (by rw [hc]; exact Bool.false_ne_true)]

theorem IsToken.not_stop (h : IsToken skip stop w) : ∀ c ∈ w, (!stop c) = true := fun c hc => by
  rw [(h.clean c hc).2]
  rfl

theorem scanTokens_last (h : IsToken skip stop w) (fuel : Nat) :
    scanTokens skip stop (fuel + 1) w = [w] := by
  have hskip := h.dropWhile_skip []
  have htake := List.takeWhile_eq_self_iff.2 h.not_stop
  have hdrop := List.dropWhile_eq_nil_iff.2 h.not_stop
  rw [List.append_nil] at hskip
  obtain ⟨c, cs, rfl⟩ := List.exists_cons_of_ne_nil h.ne_nil
  rw [scanTokens]
  simp only [hskip, htake, hdrop]

theorem scanTokens_cons (h : IsToken skip stop w) (hsep : stop sep = true) (fuel : Nat)
    (rest : List Char) :
    scanTokens skip stop (fuel + 1) (w ++ sep :: rest) = w :: scanTokens skip stop fuel rest := by
  have hskip := h.dropWhile_skip (sep :: rest)
  have hstop : (!stop sep) = false := by rw [hsep]; rfl
  have hcut := @cut_append_cons w sep (fun c => !stop c) rest h.not_stop hstop
  obtain ⟨c, cs, hcs⟩ := List.exists_cons_of_ne_nil
    (List.append_ne_nil_of_left_ne_nil h.ne_nil (sep :: rest))
  rw [hcs] at hskip hcut ⊢
  rw [scanTokens]
  simp only [hskip, hcut]

/-- A list of words is taken apart into its words. -/
theorem tokens_intercalate (hsep : stop sep = true) {ws : List Word}
    (h : ∀ w ∈ ws, IsToken skip stop w) : tokens skip stop ([sep].intercalate ws) = ws := by
  suffices hfuel : ∀ fuel, ([sep].intercalate ws).length ≤ fuel →
      scanTokens skip stop fuel ([sep].intercalate ws) = ws from hfuel _ (Nat.le_refl _)
  intro fuel
  induction ws generalizing fuel with
  | nil =>
    intro _
    cases fuel <;> rfl
  | cons w ws ih =>
    intro hle
    have hw := h w List.mem_cons_self
    have hpos : 0 < w.length := List.length_pos_of_ne_nil hw.ne_nil
    cases ws with
    | nil =>
      rw [List.intercalate_singleton] at hle ⊢
      obtain ⟨fuel, rfl⟩ := Nat.exists_eq_succ_of_ne_zero (show fuel ≠ 0 by omega)
      exact scanTokens_last hw fuel
    | cons w' ws =>
      rw [List.intercalate_cons_cons, List.append_assoc, List.singleton_append] at hle ⊢
      rw [List.length_append, List.length_cons] at hle
      obtain ⟨fuel, rfl⟩ := Nat.exists_eq_succ_of_ne_zero (show fuel ≠ 0 by omega)
      rw [scanTokens_cons hw hsep, ih (fun x hx => h x (List.mem_cons_of_mem w hx)) fuel (by omega)]

theorem tokens_line {last : Char} (hskip : skip sep = true) (hsep : stop sep = true)
    (hlast : stop last = true) {ws : List Word} (hne : ws ≠ [])
    (h : ∀ w ∈ ws, IsToken skip stop w) :
    tokens skip stop (ws.flatMap (fun w => sep :: w) ++ [last]) = ws := by
  -- without the first separator, by induction on the words behind the first one
  have hbody : ∀ (ws : List Word) (w : Word) (fuel : Nat), (∀ v ∈ w :: ws, IsToken skip stop v) →
      (w ++ (ws.flatMap (fun w => sep :: w) ++ [last])).length ≤ fuel →
      scanTokens skip stop fuel (w ++ (ws.flatMap (fun w => sep :: w) ++ [last])) = w :: ws := by
    intro ws
    induction ws with
    | nil =>
      intro w fuel h hle
      rw [List.flatMap_nil, List.nil_append, List.length_append, List.length_singleton] at hle
      obtain ⟨fuel, rfl⟩ := Nat.exists_eq_succ_of_ne_zero (show fuel ≠ 0 by omega)
      rw [List.flatMap_nil, List.nil_append, scanTokens_cons (h w List.mem_cons_self) hlast]
      cases fuel <;> rfl
    | cons w' ws ih =>
      intro w fuel h hle
      rw [List.flatMap_cons, List.cons_append, List.cons_append, List.append_assoc] at hle ⊢
      rw [List.length_append, List.length_cons] at hle
      obtain ⟨fuel, rfl⟩ := Nat.exists_eq_succ_of_ne_zero (show fuel ≠ 0 by omega)
      rw [scanTokens_cons (h w List.mem_cons_self) hsep,
        ih w' fuel (fun v hv => h v (List.mem_cons_of_mem w hv)) (by omega)]
  obtain ⟨w, ws, rfl⟩ := List.exists_cons_of_ne_nil hne
  obtain ⟨x, xs, hx⟩ := List.exists_cons_of_ne_nil (h w List.mem_cons_self).ne_nil
  rw [tokens, List.flatMap_cons, List.cons_append, List.cons_append, List.append_assoc,
    List.length_cons]
  have hlead := (h w List.mem_cons_self).dropWhile_skip (ws.flatMap (fun w => sep :: w) ++ [last])
  have hrun := hbody ws w _ h (Nat.le_succ _)
  rw [hx, List.cons_append] at hlead hrun ⊢
  rw [scanTokens] at hrun ⊢
  rw [List.dropWhile_cons_of_pos hskip]
  exact hrun

/-- An element with an argument is cut at its `=`. -/
theorem splitArg_append {name arg : Word} (h : '=' ∉ name) :
    splitArg (name ++ '=' :: arg) = (name, some arg) := by
  have hname : ∀ c ∈ name, decide (c ≠ '=') = true := by
    intro c hc
    rw [decide_eq_true_iff]
    rintro rfl
    exact h hc
  have hcut := @cut_append_cons name '=' (fun c => decide (c ≠ '=')) arg hname (by decide)
  unfold splitArg
  simp only [hcut]

theorem splitArg_plain {token : Word} (h : '=' ∉ token) : splitArg token = (token, none) := by
  have hdrop : token.dropWhile (fun c => decide (c ≠ '=')) = [] := by
    rw [List.dropWhile_eq_nil_iff]
    intro c hc
    rw [decide_eq_true_iff]
    rintro rfl
    exact h hc
  unfold splitArg
  rw [hdrop]

end

end ConFuzz.CLib
