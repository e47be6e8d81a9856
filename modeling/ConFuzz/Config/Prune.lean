import ConFuzz.Config.Graph

/-!
# Pruning conflicts, one option at a time

Before it resolves anything the program goes once over the options. `PruneMove`
is its decision about option `i` when no option has more than one conflict: a
must-have that is off is turned on, and of two conflicting options that are on
one is pruned. The decision about a must-have that is off does not look at its
conflict.
-/

namespace ConFuzz.Config

variable {ι : Type} [DecidableEq ι]

/-- The decision about option `i`. -/
inductive PruneMove (G : OptGraph ι) (i : ι) : Marks ι → Marks ι → Prop where
  | must {e : Marks ι} : e i = some 0 → G.mustHave i = true →
      PruneMove G i e (Function.update e i (some 1))
  | keep {e : Marks ι} : (e i = some 0 → G.mustHave i = false) →
      (e i = some 1 → ∀ b ∈ G.mutex i, e b ≠ some 1) → PruneMove G i e e
  | pruneOther {e : Marks ι} {b : ι} : G.mutex i = [b] → e i = some 1 → e b = some 1 →
      PruneMove G i e (Function.update (Function.update e i (some 1)) b (some 2))
  | pruneSelf {e : Marks ι} {b : ι} : G.mutex i = [b] → e i = some 1 → e b = some 1 →
      PruneMove G i e (Function.update (Function.update e i (some 2)) b (some 1))

variable {G : OptGraph ι} {i j : ι} {e e' : Marks ι}

/-- Away from `i` and its conflict a decision changes nothing. -/
theorem PruneMove.frame (h : PruneMove G i e e') (hi : j ≠ i) (hm : j ∉ G.mutex i) :
    e' j = e j := by
  cases h with
  | must => rw [Function.update_of_ne hi]
  | keep => rfl
  | pruneOther hb _ _ | pruneSelf hb _ _ =>
    rw [hb, List.mem_singleton] at hm
    rw [Function.update_of_ne hm, Function.update_of_ne hi]

theorem PruneMove.on_before (h : PruneMove G i e e') (hj : e' j = some 1) :
    e j = some 1 ∨ (j = i ∧ G.mustHave i = true) := by
  cases h with
  | must _ hm =>
    by_cases hji : j = i
    · exact .inr ⟨hji, hm⟩
    · rw [Function.update_of_ne hji] at hj; exact .inl hj
  | keep => exact .inl hj
  | @pruneOther b _ hi hb =>
    by_cases hjb : j = b
    · subst hjb; exact .inl hb
    · rw [Function.update_of_ne hjb] at hj
      by_cases hji : j = i
      · subst hji; exact .inl hi
      · rw [Function.update_of_ne hji] at hj; exact .inl hj
  | @pruneSelf b _ hi hb =>
    by_cases hjb : j = b
    · subst hjb; exact .inl hb
    · rw [Function.update_of_ne hjb] at hj
      by_cases hji : j = i
      · subst hji; exact .inl hi
      · rw [Function.update_of_ne hji] at hj; exact .inl hj

theorem PruneMove.pruned (h : PruneMove G i e e') (hj : e j = some 2) : e' j = some 2 := by
  cases h with
  | must h0 =>
    have hji : j ≠ i := by rintro rfl; rw [h0] at hj; cases hj
    rw [Function.update_of_ne hji]; exact hj
  | keep => exact hj
  | @pruneOther b _ hi hb | @pruneSelf b _ hi hb =>
    have hji : j ≠ i := by rintro rfl; rw [hi] at hj; cases hj
    have hjb : j ≠ b := by rintro rfl; rw [hb] at hj; cases hj
    rw [Function.update_of_ne hjb, Function.update_of_ne hji]; exact hj

/-- Conflicting options that are both on after a decision were both on before, and
the decision was about neither. -/
theorem PairedConflicts.prune (hG : PairedConflicts G) (h : PruneMove G i e e') {a b : ι}
    (hab : b ∈ G.mutex a) (ha : e' a = some 1) (hb : e' b = some 1) :
    e a = some 1 ∧ e b = some 1 ∧ a ≠ i ∧ b ≠ i := by
  have hba : a ∈ G.mutex b := (hG.symm a b).1 hab
  cases h with
  | must _ hm =>
    have hai : a ≠ i := by
      rintro rfl
      rw [hG.not_mustHave a b hab] at hm; cases hm
    have hbi : b ≠ i := by
      rintro rfl
      rw [hG.not_mustHave b a hba] at hm; cases hm
    rw [Function.update_of_ne hai] at ha
    rw [Function.update_of_ne hbi] at hb
    exact ⟨ha, hb, hai, hbi⟩
  | keep _ hno =>
    refine ⟨ha, hb, ?_, ?_⟩
    · rintro rfl; exact hno ha b hab hb
    · rintro rfl; exact hno hb a hba ha
  | @pruneOther c hc _ _ =>
    -- the conflict `c` of `i` is pruned, so neither `a` nor `b` is `c`, hence neither is `i`
    have hac : a ≠ c := by rintro rfl; simp at ha
    have hbc : b ≠ c := by rintro rfl; simp at hb
    have hai : a ≠ i := by
      rintro rfl
      rw [hc, List.mem_singleton] at hab; exact hbc hab
    have hbi : b ≠ i := by
      rintro rfl
      rw [hc, List.mem_singleton] at hba; exact hac hba
    rw [Function.update_of_ne hac, Function.update_of_ne hai] at ha
    rw [Function.update_of_ne hbc, Function.update_of_ne hbi] at hb
    exact ⟨ha, hb, hai, hbi⟩
  | @pruneSelf c hc _ _ =>
    have hic : i ≠ c := by
      rintro rfl
      exact hG.irrefl i (by rw [hc]; exact List.mem_cons_self)
    have hoff : Function.update (Function.update e i (some 2)) c (some 1) i ≠ some 1 := by
      rw [Function.update_of_ne hic, Function.update_self]; decide
    have hai : a ≠ i := by rintro rfl; exact hoff ha
    have hbi : b ≠ i := by rintro rfl; exact hoff hb
    have hci : i ∈ G.mutex c := (hG.symm i c).1 (by rw [hc]; exact List.mem_cons_self)
    have honly : ∀ x ∈ G.mutex c, x = i := fun x hx =>
      eq_of_mem_le_one (hG.le_one c) hx hci
    have hac : a ≠ c := by rintro rfl; exact hbi (honly b hab)
    have hbc : b ≠ c := by rintro rfl; exact hai (honly a hba)
    rw [Function.update_of_ne hac, Function.update_of_ne hai] at ha
    rw [Function.update_of_ne hbc, Function.update_of_ne hbi] at hb
    exact ⟨ha, hb, hai, hbi⟩

theorem PruneMove.zero_or_one (h : PruneMove G i e e') (hi : G.mutex j = [])
    (hj : ∀ a, j ∉ G.mutex a) (h01 : ∀ v, e j = some v → v = 0 ∨ v = 1) :
    ∀ v, e' j = some v → v = 0 ∨ v = 1 := by
  intro v hv
  cases h with
  | must =>
    by_cases hji : j = i
    · subst hji
      rw [Function.update_self] at hv
      exact .inr (Option.some.inj hv).symm
    · rw [Function.update_of_ne hji] at hv; exact h01 v hv
  | keep => exact h01 v hv
  | @pruneOther b hb _ _ | @pruneSelf b hb _ _ =>
    have hjb : j ≠ b := by
      rintro rfl
      exact hj i (by rw [hb]; exact List.mem_cons_self)
    have hji : j ≠ i := by
      rintro rfl
      rw [hi] at hb; cases hb
    rw [Function.update_of_ne hjb, Function.update_of_ne hji] at hv
    exact h01 v hv

end ConFuzz.Config
