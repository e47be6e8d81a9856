import ConFuzz.Model.Resolve

/-!
# The bitmap decision

The first loop of `arg_fuzz` sets `enable` to 1 where the bitmap byte is even
and nowhere else: the values it draws leave the marks alone. `select_marks`
gives the marks after the whole loop.
-/

namespace ConFuzz

open ConFuzz.CLib

/-- The bitmap byte of node `i` is even. -/
def chosen (bitmap : List Nat) (i : Int) : Bool := (at? bitmap i).any (· % 2 = 0)

def AllOff (ir : List Ir) : Prop := ∀ cell ∈ ir, cell.enable = 0

instance (ir : List Ir) : Decidable (AllOff ir) := inferInstanceAs (Decidable (∀ cell ∈ ir, _))

theorem AllOff.eq_zero {ir : List Ir} (h : AllOff ir) {i v : Int} (hv : enableOf ir i = some v) :
    v = 0 := by
  obtain ⟨cell, hc, rfl⟩ := enableOf_eq_some.1 hv
  exact h cell (mem_of_at? hc)

section

variable {d : Draws} {t : List ArgNode} {bitmap : List Nat}

theorem enableOf_put {ir : List Ir} {i : Int} {cell cell' : Ir} (h : at? ir i = some cell)
    (he : cell'.enable = cell.enable) : enableOf (put ir i cell') = enableOf ir := by
  funext j
  unfold enableOf
  rw [at?_put _ h]
  by_cases hj : j = i
  · subst hj; simp [h, he]
  · simp [hj]

theorem setValueInt_frame {ir ir' : List Ir} {i : Int} {v : Nat}
    (h : setValueInt ir i v = .ok ir') : enableOf ir' = enableOf ir ∧ ir'.length = ir.length := by
  obtain ⟨cell, hc, h⟩ := bind_eq_ok.1 h
  obtain ⟨-, rfl⟩ := wr_eq_ok.1 h
  exact ⟨enableOf_put (rd_eq_ok.1 hc) rfl, length_put ..⟩

theorem setValueChar_frame {ir ir' : List Ir} {i : Int} {v : String}
    (h : setValueChar ir i v = .ok ir') : enableOf ir' = enableOf ir ∧ ir'.length = ir.length := by
  obtain ⟨cell, hc, h⟩ := bind_eq_ok.1 h
  obtain ⟨-, rfl⟩ := wr_eq_ok.1 h
  exact ⟨enableOf_put (rd_eq_ok.1 hc) rfl, length_put ..⟩

theorem selectValue_frame {node : ArgNode} {i : Int} {s s' : Run}
    (h : selectValue d node i s = .ok s') :
    enableOf s'.ir = enableOf s.ir ∧ s'.ir.length = s.ir.length := by
  unfold selectValue at h
  split at h
  · obtain ⟨b, -, h⟩ := bind_eq_ok.1 h
    obtain ⟨a, -, h⟩ := bind_eq_ok.1 h
    obtain ⟨c, -, h⟩ := bind_eq_ok.1 h
    split at h
    · cases h
    · obtain ⟨ir, h1, h⟩ := bind_eq_ok.1 h
      cases h
      exact setValueInt_frame h1
  · obtain ⟨lo, -, h⟩ := bind_eq_ok.1 h
    obtain ⟨hi, -, h⟩ := bind_eq_ok.1 h
    obtain ⟨base, -, h⟩ := bind_eq_ok.1 h
    obtain ⟨factor, -, h⟩ := bind_eq_ok.1 h
    obtain ⟨ir, h1, h⟩ := bind_eq_ok.1 h
    cases h
    exact setValueInt_frame h1
  · obtain ⟨ir, h1, h⟩ := bind_eq_ok.1 h
    cases h
    exact setValueChar_frame h1
  · obtain ⟨text, -, h⟩ := bind_eq_ok.1 h
    obtain ⟨ir, h1, h⟩ := bind_eq_ok.1 h
    cases h
    exact setValueChar_frame h1
  · cases h
    exact ⟨rfl, rfl⟩

theorem selectStep_marks {i : Nat} {s s' : Run} (h : selectStep d t bitmap i s = .ok s') :
    (enableOf s'.ir = if chosen bitmap i then Function.update (enableOf s.ir) i (some 1)
      else enableOf s.ir) ∧ s'.ir.length = s.ir.length := by
  obtain ⟨byte, hb, h⟩ := bind_eq_ok.1 h
  obtain ⟨ir, h1, h⟩ := bind_eq_ok.1 h
  obtain ⟨node, hn, h⟩ := bind_eq_ok.1 h
  obtain ⟨hm, hl⟩ := selectValue_frame h
  rw [hm, hl]
  have hc : chosen bitmap i = decide (byte % 2 = 0) := by simp [chosen, rd_eq_ok.1 hb]
  rw [hc]
  split at h1
  · rename_i h0
    rw [decide_eq_true h0, if_pos rfl]
    exact ⟨enableOf_setEnable h1, length_setEnable h1⟩
  · rename_i h0
    cases h1
    rw [decide_eq_false h0, if_neg (by simp)]
    exact ⟨rfl, rfl⟩

/-- **The marks after the first loop.** -/
theorem select_marks {n : Nat} {ir : List Ir} {s : Run}
    (h : forUpto n (selectStep d t bitmap) ⟨ir, 0⟩ = .ok s) :
    (∀ j : Int, enableOf s.ir j =
      if 0 ≤ j ∧ j < n ∧ chosen bitmap j = true then some 1 else enableOf ir j) ∧
    s.ir.length = ir.length := by
  refine forUpto_inv (fun k s => (∀ j : Int, enableOf s.ir j =
      if 0 ≤ j ∧ j < k ∧ chosen bitmap j = true then some 1 else enableOf ir j) ∧
      s.ir.length = ir.length) ⟨fun j => ?_, rfl⟩ ?_ h
  · rw [if_neg (by omega)]
  · rintro k s1 s2 _ ⟨hI, hl⟩ hb
    obtain ⟨hm, hl'⟩ := selectStep_marks hb
    refine ⟨fun j => ?_, hl'.trans hl⟩
    rw [hm]
    by_cases hj : j = k
    · subst hj
      by_cases hc : chosen bitmap k = true
      · rw [if_pos hc, Function.update_self, if_pos ⟨by omega, by omega, hc⟩]
      · rw [if_neg hc, hI, if_neg (by omega), if_neg (by tauto)]
    · have hk : (0 ≤ j ∧ j < (k : Int) ∧ chosen bitmap j = true) ↔
          (0 ≤ j ∧ j < ((k + 1 : Nat) : Int) ∧ chosen bitmap j = true) := by
        constructor <;> rintro ⟨h1, h2, h3⟩ <;> exact ⟨h1, by omega, h3⟩
      have hu : (if chosen bitmap k = true then Function.update (enableOf s1.ir) (k : Int) (some 1)
          else enableOf s1.ir) j = enableOf s1.ir j := by
        split
        · rw [Function.update_of_ne hj]
        · rfl
      rw [hu, hI]
      simp only [hk]

end

end ConFuzz
