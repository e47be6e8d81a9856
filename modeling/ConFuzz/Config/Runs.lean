import ConFuzz.Config.Graph

/-!
# The two recursions of the resolver

`DepRun G j e e'`: started at `j` with the marks `e`, the dependency recursion
ends with `e'`. It stops at an option that is off or has no dependency that is
off, else it turns one on and goes on from that one alone. `ChildRun` is the
child recursion. Both are runs of moves, and what they leave closed is the
subject of the rest of this file.
-/

namespace ConFuzz.Config

variable {ι : Type} [DecidableEq ι] {G : OptGraph ι} {e e' : Marks ι} {j p : ι}

def DepDoneAt (G : OptGraph ι) (e : Marks ι) (j : ι) : Prop :=
  ∀ p ∈ G.dep j, ∃ w, e p = some w ∧ w ≠ 0

/-- The dependency recursion. -/
inductive DepRun (G : OptGraph ι) : ι → Marks ι → Marks ι → Prop where
  | stop {e : Marks ι} {j : ι} :
      (e j = some 1 → ∀ p ∈ G.dep j, ∃ w, e p = some w ∧ w ≠ 0) → DepRun G j e e
  | step {e e' : Marks ι} {j p : ι} : e j = some 1 → p ∈ G.dep j → e p = some 0 →
      DepRun G p (Function.update e p (some 1)) e' → DepRun G j e e'

/-- The child recursion. -/
inductive ChildRun (G : OptGraph ι) : ι → Marks ι → Marks ι → Prop where
  | stop {e : Marks ι} {p : ι} : (e p = some 1 → ChildClosedAt G e p) → ChildRun G p e e
  | step {e e' : Marks ι} {p c : ι} : e p = some 1 → G.mustChild p = true → c ∈ G.child p →
      (∀ c' ∈ G.child p, e c' ≠ some 1) → ChildRun G c (Function.update e c (some 1)) e' →
      ChildRun G p e e'

theorem DepRun.moves (h : DepRun G j e e') : Moves G e e' := by
  induction h with
  | stop => exact .refl
  | step hj hp h0 _ ih => exact .head (.inl (.mk hj hp h0)) ih

theorem ChildRun.moves (h : ChildRun G p e e') : Moves G e e' := by
  induction h with
  | stop => exact .refl
  | step hp hm hc hno _ ih => exact .head (.inr (.mk hp hm hc hno)) ih

theorem DepRun.off_of_changed (h : DepRun G j e e') {i : ι} (hi : e' i ≠ e i) : e i = some 0 := by
  induction h with
  | stop => exact absurd rfl hi
  | @step e e' j p _ _ h0 _ ih =>
    by_cases hip : i = p
    · rw [hip]
      exact h0
    · rw [← Function.update_of_ne hip (some 1) e] at hi ⊢
      exact ih hi

theorem DepRun.eq_of_done (h : DepRun G j e e') (hc : e j = some 1 → DepDoneAt G e j) :
    e' = e := by
  cases h with
  | stop => rfl
  | step hj hp h0 _ =>
    obtain ⟨w, hw, hne⟩ := hc hj _ hp
    rw [h0] at hw
    exact absurd (Option.some.inj hw).symm hne

theorem ChildRun.eq_of_closed (h : ChildRun G p e e') (hc : e p = some 1 → ChildClosedAt G e p) :
    e' = e := by
  cases h with
  | stop => rfl
  | step hp hm hmem hno _ =>
    obtain ⟨c, hc, hon⟩ := hc hp hm (List.ne_nil_of_mem hmem)
    exact absurd hon (hno c hc)

/-! ## Dependencies -/

/-- The marks of the dependencies are 0 and 1 only. -/
def NoPrunedDep (G : OptGraph ι) (e : Marks ι) : Prop :=
  ∀ j p, p ∈ G.dep j → ∀ v, e p = some v → v = 0 ∨ v = 1

theorem NoPrunedDep.update (h : NoPrunedDep G e) (i : ι) :
    NoPrunedDep G (Function.update e i (some 1)) := by
  intro j p hp v hv
  by_cases hpi : p = i
  · subst hpi
    rw [Function.update_self] at hv
    exact .inr (Option.some.inj hv).symm
  · rw [Function.update_of_ne hpi] at hv
    exact h j p hp v hv

theorem NoPrunedDep.moves (h : NoPrunedDep G e) (hm : Moves G e e') : NoPrunedDep G e' := by
  refine hm.inv (P := NoPrunedDep G) (fun e e' h hm => ?_) h
  rcases hm with ⟨-, -, -⟩ | ⟨-, -, -, -⟩ <;> exact h.update _

theorem Moves.depDoneAt (h : Moves G e e') (hj : DepDoneAt G e j) : DepDoneAt G e' j := by
  intro p hp
  obtain ⟨w, hw, hne⟩ := hj p hp
  rcases h.same_or_on p with h | h
  · exact ⟨w, h.trans hw, hne⟩
  · exact ⟨1, h, by decide⟩

theorem DepRun.done (hle : ∀ j, (G.dep j).length ≤ 1) (h : DepRun G j e e') :
    (e j = some 1 → DepDoneAt G e' j) ∧ ∀ i, e' i = some 1 → e i = some 1 ∨ DepDoneAt G e' i := by
  induction h with
  | stop hstop => exact ⟨hstop, fun i hi => .inl hi⟩
  | @step e e' j p hj hp h0 hrun ih =>
    obtain ⟨ih1, ih2⟩ := ih
    have hpon : e' p = some 1 := hrun.moves.on (Function.update_self ..)
    constructor
    · intro _ q hq
      rw [eq_of_mem_le_one (hle j) hq hp]
      exact ⟨1, hpon, by decide⟩
    · intro i hi
      by_cases hip : i = p
      · subst hip; exact .inr (ih1 (Function.update_self ..))
      · rcases ih2 i hi with h | h
        · rw [Function.update_of_ne hip] at h; exact .inl h
        · exact .inr h

omit [DecidableEq ι] in
theorem DepDoneAt.closed (h : DepDoneAt G e j) (hnp : NoPrunedDep G e) : DepClosedAt G e j := by
  intro p hp
  obtain ⟨w, hw, hne⟩ := h p hp
  rcases hnp j p hp w hw with rfl | rfl
  · exact absurd rfl hne
  · exact hw

theorem DepRun.closed (hle : ∀ j, (G.dep j).length ≤ 1) (h : DepRun G j e e')
    (hnp : NoPrunedDep G e) :
    (e j = some 1 → DepClosedAt G e' j) ∧
      ∀ i, e' i = some 1 → e i = some 1 ∨ DepClosedAt G e' i := by
  have hnp' := hnp.moves h.moves
  obtain ⟨hj, hnew⟩ := h.done hle
  exact ⟨fun h1 => (hj h1).closed hnp', fun i hi => (hnew i hi).imp id fun h => h.closed hnp'⟩

theorem ChildRun.depClosed (hcd : ∀ p c, c ∈ G.child p → G.dep c = [p]) (h : ChildRun G p e e') :
    ∀ i, e' i = some 1 → e i = some 1 ∨ DepClosedAt G e' i := by
  induction h with
  | stop => exact fun i hi => .inl hi
  | @step e e' p c hp _ hc _ hrun ih =>
    intro i hi
    have hpon : e' p = some 1 := hrun.moves.on (update_on hp)
    by_cases hic : i = c
    · subst hic
      refine .inr fun q hq => ?_
      rw [hcd p i hc, List.mem_singleton] at hq
      rw [hq]
      exact hpon
    · rcases ih i hi with h | h
      · rw [Function.update_of_ne hic] at h; exact .inl h
      · exact .inr h

/-! ## Children -/

/-- When an option that must have a child has its dependants among its children, the
dependency recursion turns on only options with a child that is on. -/
theorem DepRun.childClosed
    (hdc : ∀ j t, t ∈ G.dep j → G.mustChild t = true → G.child t ≠ [] → j ∈ G.child t)
    (h : DepRun G j e e') : ∀ i, e' i = some 1 → e i = some 1 ∨ ChildClosedAt G e' i := by
  induction h with
  | stop => exact fun i hi => .inl hi
  | @step e e' j p hj hp h0 hrun ih =>
    intro i hi
    have hjon : e' j = some 1 := hrun.moves.on (update_on hj)
    by_cases hip : i = p
    · subst hip
      exact .inr fun hm hne => ⟨j, hdc j i hp hm hne, hjon⟩
    · rcases ih i hi with h | h
      · rw [Function.update_of_ne hip] at h; exact .inl h
      · exact .inr h

/-- The child recursion leaves its start and every option it turned on with the child
they must have. -/
theorem ChildRun.closed (h : ChildRun G p e e') :
    (e p = some 1 → ChildClosedAt G e' p) ∧
      ∀ i, e' i = some 1 → e i = some 1 ∨ ChildClosedAt G e' i := by
  induction h with
  | stop hstop => exact ⟨hstop, fun i hi => .inl hi⟩
  | @step e e' p c hp hm hc hno hrun ih =>
    obtain ⟨ih1, ih2⟩ := ih
    have hcon : e' c = some 1 := hrun.moves.on (Function.update_self ..)
    constructor
    · exact fun _ _ _ => ⟨c, hc, hcon⟩
    · intro i hi
      by_cases hic : i = c
      · subst hic; exact .inr (ih1 (Function.update_self ..))
      · rcases ih2 i hi with h | h
        · rw [Function.update_of_ne hic] at h; exact .inl h
        · exact .inr h

end ConFuzz.Config
