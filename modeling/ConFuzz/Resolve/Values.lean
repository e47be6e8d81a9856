import ConFuzz.Resolve.Total
import Mathlib.Data.Set.Operations

/-!
# The values that can be drawn

Which values the first loop of `arg_fuzz` can store for a node, over all draws.
An arithmetic range `[a, b, c]` passes the number of its steps through an `int`
on the way to `rand_num`. The increment of that number overflows for one range,
`[0, 2 ^ 31 - 1, 1]`, and for every other one the values are the documented
ones. So are the powers of a geometric range and the texts of a list.
-/

namespace ConFuzz

open ConFuzz.CLib

def Draws.pick (v : Nat) : Draws :=
  { Draws.least with
    randNum := fun _ lo hi => if lo ≤ v ∧ v < hi then v else lo
    randNum_mem := by
      intro _ lo hi h
      split
      · rename_i hv
        exact hv
      · exact ⟨Nat.le_refl lo, h⟩ }

theorem Draws.pick_randNum {v lo hi : Nat} (k : Nat) (h0 : lo ≤ v) (h1 : v < hi) :
    (Draws.pick v).randNum k lo hi = v := if_pos ⟨h0, h1⟩

section

variable {d : Draws} {t : List ArgNode} {bitmap : List Nat} {i : Nat} {s : Run} {node : ArgNode}

/-! ## One turn -/

/-- The bound that an arithmetic range `[a, b, c]` hands to `rand_num`. -/
def stepBound (a b c : Nat) : Nat := toU64 (toInt32 (toInt32 (toU64 (b - a) / c : Nat) + 1))

def arithmeticValue (d : Draws) (pos a b c : Nat) : Nat :=
  toU64 (a + d.randNum pos 0 (stepBound a b c) * c : Nat)

def geometricValue (d : Draws) (pos a b c f : Nat) : Nat :=
  d.powMul a (toInt32 (d.randNum pos b (toU64 (c + 1 : Nat)))) f

theorem selectValue_arithmetic {j : Int} {a b c : Nat} (hty : node.valueType = 1)
    (hv : node.valueInt = [a, b, c]) (hc : c ≠ 0) :
    selectValue d node j s = (setValueInt s.ir j (arithmeticValue d s.pos a b c) >>= fun ir =>
      .ok ⟨ir, s.pos + 1⟩) := by
  unfold selectValue
  rw [hty, hv]
  simp only [show rd [a, b, c] 1 = .ok b from rfl, show rd [a, b, c] 0 = .ok a from rfl,
    show rd [a, b, c] 2 = .ok c from rfl, ok_bind, if_neg hc]
  rfl

theorem selectValue_geometric {j : Int} {a b c f : Nat} (hty : node.valueType = 2)
    (hv : node.valueInt = [a, b, c, f]) :
    selectValue d node j s = (setValueInt s.ir j (geometricValue d s.pos a b c f) >>= fun ir =>
      .ok ⟨ir, s.pos + 1⟩) := by
  unfold selectValue
  rw [hty, hv]
  simp only [show rd [a, b, c, f] 1 = .ok b from rfl, show rd [a, b, c, f] 2 = .ok c from rfl,
    show rd [a, b, c, f] 0 = .ok a from rfl, show rd [a, b, c, f] 3 = .ok f from rfl, ok_bind]
  rfl

/-- What the turn of node `i` can leave in a field of its cell, over all draws. -/
def storable {α : Type} (field : Ir → α) (t : List ArgNode) (bitmap : List Nat) (i : Nat)
    (s : Run) : Set α :=
  {v | ∃ d s' cell, selectStep d t bitmap i s = .ok s' ∧ at? s'.ir i = some cell ∧
    field cell = v}

theorem at?_setValueInt {ir ir' : List Ir} {j : Int} {v : Nat}
    (h : setValueInt ir j v = .ok ir') : ∃ cell, at? ir' j = some cell ∧ cell.valueInt = v := by
  obtain ⟨cell, hc, h⟩ := bind_eq_ok.1 h
  obtain ⟨-, rfl⟩ := wr_eq_ok.1 h
  exact ⟨{ cell with valueInt := v }, by rw [at?_put _ (rd_eq_ok.1 hc), if_pos rfl], rfl⟩

theorem at?_setValueChar {ir ir' : List Ir} {j : Int} {v : String}
    (h : setValueChar ir j v = .ok ir') : ∃ cell, at? ir' j = some cell ∧ cell.valueChar = v := by
  obtain ⟨cell, hc, h⟩ := bind_eq_ok.1 h
  obtain ⟨-, rfl⟩ := wr_eq_ok.1 h
  exact ⟨{ cell with valueChar := v }, by rw [at?_put _ (rd_eq_ok.1 hc), if_pos rfl], rfl⟩

theorem field_of_at? {α : Type} {field : Ir → α} {ir : List Ir} {j : Int} {v : α} {cell : Ir}
    (h : ∃ cell, at? ir j = some cell ∧ field cell = v) (hc : at? ir j = some cell) :
    field cell = v := by
  obtain ⟨cell', hc', hv⟩ := h
  rw [hc] at hc'
  cases hc'
  exact hv

/-- A turn that stores `value d` can store just the values of `value`. -/
theorem storable_eq {α : Type} {field : Ir → α} {value : Draws → α}
    (hl : s.ir.length = t.length) (hb : t.length ≤ bitmap.length) (hn : at? t i = some node)
    (hvalue : ∀ d ir, ir.length = t.length → ∃ s' cell,
      selectValue d node i ⟨ir, s.pos⟩ = .ok s' ∧ at? s'.ir i = some cell ∧
        field cell = value d) :
    storable field t bitmap i s = Set.range value := by
  ext v
  constructor
  · rintro ⟨d, s', cell, h, hc, rfl⟩
    obtain ⟨ir, hir, heq⟩ := selectStep_eq (d := d) hl hn hb
    obtain ⟨s1, cell', h1, hstored⟩ := hvalue d ir hir
    rw [heq, h1] at h
    cases h
    exact ⟨d, (field_of_at? ⟨cell', hstored⟩ hc).symm⟩
  · rintro ⟨d, rfl⟩
    obtain ⟨ir, hir, heq⟩ := selectStep_eq (d := d) hl hn hb
    obtain ⟨s', cell, h1, hc, hv⟩ := hvalue d ir hir
    exact ⟨d, s', cell, heq.trans h1, hc, hv⟩

theorem storesInt {d : Draws} {ir : List Ir} {pos v : Nat} (hn : at? t i = some node)
    (hir : ir.length = t.length)
    (h : selectValue d node i ⟨ir, pos⟩ = (setValueInt ir i v >>= fun ir => .ok ⟨ir, pos + 1⟩)) :
    ∃ s' cell, selectValue d node i ⟨ir, pos⟩ = .ok s' ∧ at? s'.ir i = some cell ∧
      cell.valueInt = v := by
  obtain ⟨h0, hi⟩ := range_of_at? hn
  obtain ⟨ir', h1⟩ := setValueInt_total v h0 (show (i : Int) < ir.length by omega)
  obtain ⟨cell, hc, hv⟩ := at?_setValueInt h1
  refine ⟨⟨ir', pos + 1⟩, cell, ?_, hc, hv⟩
  rw [h, h1]
  rfl

/-! ## Arithmetic ranges -/

theorem toU64_natCast {n : Nat} (h : n < 2 ^ 64) : toU64 (n : Int) = n := by
  unfold toU64
  omega

theorem toInt32_natCast {n : Nat} (h : n < 2 ^ 31) : toInt32 (n : Int) = n := by
  unfold toInt32
  omega

theorem stepBound_eq {a b c : Nat} (hab : a ≤ b) (hb : b < 2 ^ 31)
    (hsteps : (b - a) / c + 1 < 2 ^ 31) : stepBound a b c = (b - a) / c + 1 := by
  have hsub : toU64 ((b : Int) - a) = b - a := by
    rw [← Int.ofNat_sub hab]
    exact toU64_natCast (by omega)
  have hone : (((b - a) / c : Nat) : Int) + 1 = ((b - a) / c + 1 : Nat) := by omega
  unfold stepBound
  rw [hsub, toInt32_natCast (by omega), hone, toInt32_natCast hsteps, toU64_natCast (by omega)]

/-- The number of steps is no `int` for one range only. -/
theorem steps_lt_or {a b c : Nat} (hb : b < 2 ^ 31) (hc : 1 ≤ c) :
    (b - a) / c + 1 < 2 ^ 31 ∨ a = 0 ∧ b = 2 ^ 31 - 1 ∧ c = 1 := by
  by_cases h : (b - a) / c + 1 < 2 ^ 31
  · exact .inl h
  · have hmul : (2 ^ 31 - 1) * c ≤ b - a :=
      (Nat.le_div_iff_mul_le (by omega)).1 (by omega)
    right
    omega

/-- The documented values of `[a, b, c]`. -/
def arithmeticSet (a b c : Nat) : Set Nat := {v | ∃ m, v = a + m * c ∧ a + m * c ≤ b}

/-- The documented values of `[a, b, c, f]`. -/
def geometricSet (a b c f : Nat) : Set Nat := {v | ∃ e, b ≤ e ∧ e ≤ c ∧ v = a ^ e * f}

theorem range_arithmeticValue {a b c : Nat} (pos : Nat) (hab : a ≤ b) (hb : b < 2 ^ 31)
    (hc : 1 ≤ c) (hsteps : (b - a) / c + 1 < 2 ^ 31) :
    Set.range (fun d => arithmeticValue d pos a b c) = arithmeticSet a b c := by
  -- `m` is a step of the range if and only if it is below the bound
  have hstep : ∀ m, m < stepBound a b c ↔ a + m * c ≤ b := by
    intro m
    rw [stepBound_eq hab hb hsteps, Nat.lt_succ_iff, Nat.le_div_iff_mul_le (by omega)]
    omega
  have hvalue : ∀ d : Draws, d.randNum pos 0 (stepBound a b c) < stepBound a b c ∧
      arithmeticValue d pos a b c = a + d.randNum pos 0 (stepBound a b c) * c := by
    intro d
    have hlt := (d.randNum_mem pos 0 (stepBound a b c) ((hstep 0).2 (by omega))).2
    have hle := (hstep _).1 hlt
    exact ⟨hlt, toU64_natCast (by omega)⟩
  ext v
  constructor
  · rintro ⟨d, rfl⟩
    obtain ⟨hlt, heq⟩ := hvalue d
    exact ⟨_, heq, (hstep _).1 hlt⟩
  · rintro ⟨m, rfl, hm⟩
    refine ⟨Draws.pick m, ?_⟩
    show arithmeticValue _ pos a b c = _
    rw [(hvalue _).2, Draws.pick_randNum pos (Nat.zero_le m) ((hstep m).2 hm)]

theorem range_arithmeticValue_overflow (pos : Nat) :
    Set.range (fun d => arithmeticValue d pos 0 (2 ^ 31 - 1) 1) ≠
      arithmeticSet 0 (2 ^ 31 - 1) 1 := by
  intro h
  have hbound : stepBound 0 (2 ^ 31 - 1) 1 = 2 ^ 64 - 2 ^ 31 := by decide
  have hmem : 2 ^ 31 ∈ Set.range (fun d => arithmeticValue d pos 0 (2 ^ 31 - 1) 1) := by
    refine ⟨Draws.pick (2 ^ 31), ?_⟩
    show arithmeticValue _ pos _ _ _ = _
    unfold arithmeticValue
    rw [Draws.pick_randNum pos (Nat.zero_le _) (by rw [hbound]; omega), Nat.mul_one, Nat.zero_add]
    exact toU64_natCast (by omega)
  rw [h] at hmem
  obtain ⟨m, hm, hle⟩ := hmem
  omega

/-! ## Geometric ranges and lists of texts -/

/-- Below an exponent whose power is exact, every power is exact. -/
theorem powers_exact {a c e f : Nat} (he : e ≤ c) (hf : f < 2 ^ 31) (hpow : a ^ c < 2 ^ 53)
    (hprod : a ^ c * f < 2 ^ 53) : a ^ e < 2 ^ 53 ∧ a ^ e * f < 2 ^ 53 := by
  rcases Nat.eq_zero_or_pos a with rfl | ha
  · cases e with
    | zero => simp; omega
    | succ e => simp
  · have hle : a ^ e ≤ a ^ c := Nat.pow_le_pow_right ha he
    exact ⟨by omega, Nat.lt_of_le_of_lt (Nat.mul_le_mul_right f hle) hprod⟩

theorem range_geometricValue {a b c f : Nat} (pos : Nat) (hbc : b ≤ c) (hc : c < 2 ^ 31)
    (hf : f < 2 ^ 31) (hpow : a ^ c < 2 ^ 53) (hprod : a ^ c * f < 2 ^ 53) :
    Set.range (fun d => geometricValue d pos a b c f) = geometricSet a b c f := by
  have hbound : toU64 ((c + 1 : Nat) : Int) = c + 1 := toU64_natCast (by omega)
  have hvalue : ∀ d : Draws, (b ≤ d.randNum pos b (c + 1) ∧ d.randNum pos b (c + 1) ≤ c) ∧
      geometricValue d pos a b c f = a ^ d.randNum pos b (c + 1) * f := by
    intro d
    have hmem := d.randNum_mem pos b (c + 1) (by omega)
    obtain ⟨h1, h2⟩ := powers_exact (e := d.randNum pos b (c + 1)) (by omega) hf hpow hprod
    refine ⟨by omega, ?_⟩
    unfold geometricValue
    rw [hbound, toInt32_natCast (by omega)]
    exact d.powMul_exact a _ f h1 h2
  ext v
  constructor
  · rintro ⟨d, rfl⟩
    obtain ⟨⟨h0, h1⟩, heq⟩ := hvalue d
    exact ⟨_, h0, h1, heq⟩
  · rintro ⟨e, h0, h1, rfl⟩
    refine ⟨Draws.pick e, ?_⟩
    show geometricValue _ pos a b c f = _
    rw [(hvalue _).2, Draws.pick_randNum pos h0 (by omega)]

def textValue (d : Draws) (pos : Nat) (texts : List String) : String :=
  (at? texts (d.randNum pos 0 texts.length)).getD ""

theorem at?_draw (d : Draws) (pos : Nat) {texts : List String} (hne : texts ≠ []) :
    at? texts (d.randNum pos 0 texts.length) = some (textValue d pos texts) := by
  have hlt := (d.randNum_mem pos 0 texts.length (List.length_pos_iff.2 hne)).2
  obtain ⟨text, h⟩ := at?_of_mem_range (l := texts) (i := d.randNum pos 0 texts.length)
    (Int.natCast_nonneg _) (by omega)
  unfold textValue
  rw [h]
  rfl

theorem storesText {ir : List Ir} {pos : Nat} (hn : at? t i = some node)
    (hir : ir.length = t.length) (hty : node.valueType = 4) (hne : node.valueCharArray ≠ []) :
    ∃ s' cell, selectValue d node i ⟨ir, pos⟩ = .ok s' ∧ at? s'.ir i = some cell ∧
      cell.valueChar = textValue d pos node.valueCharArray := by
  obtain ⟨h0, hi⟩ := range_of_at? hn
  obtain ⟨ir', h1⟩ := setValueChar_total (textValue d pos node.valueCharArray) h0
    (show (i : Int) < ir.length by omega)
  obtain ⟨cell, hc, hv⟩ := at?_setValueChar h1
  refine ⟨⟨ir', pos + 1⟩, cell, ?_, hc, hv⟩
  unfold selectValue
  rw [hty]
  simp only [rd_eq_ok.2 (at?_draw d pos hne), ok_bind, h1]
  rfl

theorem range_textValue (pos : Nat) {texts : List String} (hne : texts ≠ []) :
    Set.range (fun d => textValue d pos texts) = {text | text ∈ texts} := by
  ext text
  constructor
  · rintro ⟨d, rfl⟩
    exact mem_of_at? (at?_draw d pos hne)
  · intro h
    obtain ⟨k, hk, rfl⟩ := List.getElem_of_mem h
    refine ⟨Draws.pick k, ?_⟩
    show textValue _ pos texts = _
    unfold textValue
    rw [Draws.pick_randNum pos (Nat.zero_le k) hk, at?_natCast, List.getElem?_eq_getElem hk]
    rfl

/-! ## Drawable cells -/

/-- The cell holds a value that some draw stores for the node. -/
def Drawable (node : ArgNode) (cell : Ir) : Prop :=
  ∃ d i s s' cell', selectValue d node i s = .ok s' ∧ at? s'.ir i = some cell' ∧
    cell.valueInt = cell'.valueInt ∧ cell.valueChar = cell'.valueChar

theorem toU64_lt (x : Int) : toU64 x < 2 ^ 64 := by
  unfold toU64
  omega

theorem Drawable.arithmetic {cell : Ir} (hty : node.valueType = 1) (h : Drawable node cell) :
    cell.valueInt < 2 ^ 64 := by
  obtain ⟨d, i, s, s', cell', h, hc, hv, -⟩ := h
  unfold selectValue at h
  rw [hty] at h
  obtain ⟨b, -, h⟩ := bind_eq_ok.1 h
  obtain ⟨a, -, h⟩ := bind_eq_ok.1 h
  obtain ⟨c, -, h⟩ := bind_eq_ok.1 h
  split at h
  · cases h
  · obtain ⟨ir, h1, h⟩ := bind_eq_ok.1 h
    cases h
    rw [hv, field_of_at? (at?_setValueInt h1) hc]
    exact toU64_lt _

theorem Drawable.geometric {cell : Ir} {a b c f : Nat} (hty : node.valueType = 2)
    (hv : node.valueInt = [a, b, c, f]) (hbc : b ≤ c) (hc : c < 2 ^ 31) (hf : f < 2 ^ 31)
    (hpow : a ^ c < 2 ^ 53) (hprod : a ^ c * f < 2 ^ 53) (h : Drawable node cell) :
    cell.valueInt ∈ geometricSet a b c f := by
  obtain ⟨d, i, s, s', cell', h, hc', hint, -⟩ := h
  rw [selectValue_geometric hty hv] at h
  obtain ⟨ir, h1, h⟩ := bind_eq_ok.1 h
  cases h
  rw [← range_geometricValue s.pos hbc hc hf hpow hprod, hint,
    field_of_at? (at?_setValueInt h1) hc']
  exact ⟨d, rfl⟩

theorem Drawable.text {cell : Ir} (hty : node.valueType = 3) (h : Drawable node cell) :
    cell.valueChar = node.valueChar := by
  obtain ⟨d, i, s, s', cell', h, hc, -, hv⟩ := h
  unfold selectValue at h
  rw [hty] at h
  obtain ⟨ir, h1, h⟩ := bind_eq_ok.1 h
  cases h
  rw [hv, field_of_at? (at?_setValueChar h1) hc]

theorem Drawable.texts {cell : Ir} (hty : node.valueType = 4) (h : Drawable node cell) :
    cell.valueChar ∈ node.valueCharArray := by
  obtain ⟨d, i, s, s', cell', h, hc, -, hv⟩ := h
  unfold selectValue at h
  rw [hty] at h
  obtain ⟨text, htext, h⟩ := bind_eq_ok.1 h
  obtain ⟨ir, h1, h⟩ := bind_eq_ok.1 h
  cases h
  rw [hv, field_of_at? (at?_setValueChar h1) hc]
  exact mem_of_at? (rd_eq_ok.1 htext)

end

/-! ## The documented values -/

/-- A value of the documented form: `[a, b, c]`, `[a, b, c, f]` with powers that are exact in
floating point, or a list of texts. The integers of a list come from `json_object_get_int`, so
they are below `2 ^ 31`. -/
inductive ValueDoc (node : ArgNode) : Prop where
  | arithmetic (a b c : Nat) : node.valueType = 1 → node.valueInt = [a, b, c] → a ≤ b →
      b < 2 ^ 31 → 1 ≤ c → c < 2 ^ 31 → ValueDoc node
  | geometric (a b c f : Nat) : node.valueType = 2 → node.valueInt = [a, b, c, f] → b ≤ c →
      c < 2 ^ 31 → f < 2 ^ 31 → a ^ c < 2 ^ 53 → a ^ c * f < 2 ^ 53 → ValueDoc node
  | texts : node.valueType = 4 → node.valueCharArray ≠ [] → ValueDoc node

/-- The turn of node `i` can store the documented values and no others. -/
structure StoresDocumented (t : List ArgNode) (bitmap : List Nat) (i : Nat) (s : Run)
    (node : ArgNode) : Prop where
  arithmetic : ∀ a b c, node.valueType = 1 → node.valueInt = [a, b, c] →
    storable Ir.valueInt t bitmap i s = arithmeticSet a b c
  geometric : ∀ a b c f, node.valueType = 2 → node.valueInt = [a, b, c, f] →
    storable Ir.valueInt t bitmap i s = geometricSet a b c f
  texts : node.valueType = 4 →
    storable Ir.valueChar t bitmap i s = {text | text ∈ node.valueCharArray}

section

variable {t : List ArgNode} {bitmap : List Nat} {i : Nat} {s : Run} {node : ArgNode}

theorem storesDocumented_arithmetic {a b c : Nat} (hty : node.valueType = 1)
    (hv : node.valueInt = [a, b, c]) :
    StoresDocumented t bitmap i s node ↔
      storable Ir.valueInt t bitmap i s = arithmeticSet a b c := by
  refine ⟨fun h => h.arithmetic a b c hty hv, fun h => ⟨fun a' b' c' _ hv' => ?_,
    fun _ _ _ _ hty' => by omega, fun hty' => by omega⟩⟩
  rw [hv] at hv'
  cases hv'
  exact h

theorem storesDocumented_geometric {a b c f : Nat} (hty : node.valueType = 2)
    (hv : node.valueInt = [a, b, c, f]) :
    StoresDocumented t bitmap i s node ↔
      storable Ir.valueInt t bitmap i s = geometricSet a b c f := by
  refine ⟨fun h => h.geometric a b c f hty hv, fun h => ⟨fun _ _ _ hty' => by omega,
    fun a' b' c' f' _ hv' => ?_, fun hty' => by omega⟩⟩
  rw [hv] at hv'
  cases hv'
  exact h

theorem storesDocumented_texts (hty : node.valueType = 4) :
    StoresDocumented t bitmap i s node ↔
      storable Ir.valueChar t bitmap i s = {text | text ∈ node.valueCharArray} :=
  ⟨fun h => h.texts hty, fun h => ⟨fun _ _ _ hty' => by omega, fun _ _ _ _ hty' => by omega,
    fun _ => h⟩⟩

end

/-- **The values that can be drawn are the documented ones**, for every node with a value of the
documented form, except for the range whose number of steps overflows an `int`. -/
theorem storesDocumented_iff (t : List ArgNode) (bitmap : List Nat) (i : Nat) (s : Run)
    (node : ArgNode) (hl : s.ir.length = t.length) (hb : t.length ≤ bitmap.length)
    (hn : at? t i = some node) (hdoc : ValueDoc node) :
    StoresDocumented t bitmap i s node ↔
      ¬ (node.valueType = 1 ∧ node.valueInt = [0, 2 ^ 31 - 1, 1]) := by
  cases hdoc with
  | arithmetic a b c hty hv hab hb31 hc1 hc =>
    have hstore : storable Ir.valueInt t bitmap i s =
        Set.range (fun d => arithmeticValue d s.pos a b c) :=
      storable_eq hl hb hn fun d ir hir =>
        storesInt hn hir (selectValue_arithmetic hty hv (by omega))
    rw [storesDocumented_arithmetic hty hv, hstore]
    constructor
    · rintro heq ⟨-, hv'⟩
      rw [hv] at hv'
      cases hv'
      exact range_arithmeticValue_overflow s.pos heq
    · intro hno
      rcases steps_lt_or (a := a) hb31 hc1 with hsteps | ⟨rfl, rfl, rfl⟩
      · exact range_arithmeticValue s.pos hab hb31 hc1 hsteps
      · exact absurd ⟨hty, hv⟩ hno
  | geometric a b c f hty hv hbc hc hf hpow hprod =>
    have hstore : storable Ir.valueInt t bitmap i s = geometricSet a b c f := by
      rw [← range_geometricValue s.pos hbc hc hf hpow hprod]
      exact storable_eq hl hb hn fun d ir hir => storesInt hn hir (selectValue_geometric hty hv)
    rw [storesDocumented_geometric hty hv]
    exact ⟨fun _ h => by omega, fun _ => hstore⟩
  | texts hty hne =>
    have hstore : storable Ir.valueChar t bitmap i s = {text | text ∈ node.valueCharArray} := by
      rw [← range_textValue s.pos hne]
      exact storable_eq hl hb hn fun d ir hir => storesText hn hir hty hne
    rw [storesDocumented_texts hty]
    exact ⟨fun _ h => by omega, fun _ => hstore⟩

/-- The block sizes of `-b` are 1024, 2048 and 4096, and no others. -/
def blockSizeNode : ArgNode :=
  { plainNode "-b" with valueType := 2, valueInt := [2, 0, 2, 1024] }

theorem blockSize_storesDocumented :
    StoresDocumented [blockSizeNode] [1] 0 ⟨zeroIr 1, 0⟩ blockSizeNode ↔
      ¬ (blockSizeNode.valueType = 1 ∧ blockSizeNode.valueInt = [0, 2 ^ 31 - 1, 1]) :=
  storesDocumented_iff [blockSizeNode] [1] 0 ⟨zeroIr 1, 0⟩ blockSizeNode rfl (by decide) rfl
    (.geometric 2 0 2 1024 rfl rfl (by decide) (by decide) (by decide) (by decide) (by decide))

/-- The range of all `int`s from 0 on. -/
def wholeRangeNode : ArgNode :=
  { plainNode "-N" with valueType := 1, valueInt := [0, 2147483647, 1] }

/-- For it values above the range can be drawn. -/
theorem wholeRange_not_documented :
    storable Ir.valueInt [wholeRangeNode] [1] 0 ⟨zeroIr 1, 0⟩ ≠ arithmeticSet 0 2147483647 1 := by
  have hstore : storable Ir.valueInt [wholeRangeNode] [1] 0 ⟨zeroIr 1, 0⟩ =
      Set.range (fun d => arithmeticValue d 0 0 (2 ^ 31 - 1) 1) :=
    storable_eq rfl (by decide) rfl fun d ir hir =>
      storesInt (t := [wholeRangeNode]) rfl hir (selectValue_arithmetic rfl rfl (by decide))
  rw [hstore]
  exact range_arithmeticValue_overflow 0

end ConFuzz
