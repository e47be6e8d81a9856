import Mathlib.Logic.Relation
import Mathlib.Logic.Function.Basic

/-!
# Option graphs and the moves of the resolver

The abstract view of an option table: a set of options with conflicts,
dependencies and children, over any type of option names. `Marks` gives every
option its mark (0 off, 1 on, 2 pruned, `none` for a name that is no option).
The resolver works by two moves:

* `DepMove`: an option that is on turns on one of its dependencies that is off;
* `ChildMove`: an option that is on, must have a child and has none that is on
  turns on one of its children, pruned ones included.

Every property of a resolution that a move keeps holds after any number of
moves (`Moves.inv`).
-/

namespace ConFuzz.Config

variable {ι : Type}

structure OptGraph (ι : Type) where
  mutex : ι → List ι
  mustHave : ι → Bool
  dep : ι → List ι
  mustChild : ι → Bool
  child : ι → List ι

theorem eq_of_mem_le_one {l : List ι} (h : l.length ≤ 1) {a b : ι} (ha : a ∈ l) (hb : b ∈ l) :
    a = b := by
  match l, h with
  | [c], _ => rw [List.mem_singleton.1 ha, List.mem_singleton.1 hb]

theorem eq_singleton_of_mem {l : List ι} (h : l.length ≤ 1) {a : ι} (ha : a ∈ l) : l = [a] := by
  match l, h with
  | [c], _ => rw [List.mem_singleton.1 ha]

abbrev Marks (ι : Type) : Type := ι → Option Int

def Exclusive (G : OptGraph ι) (e : Marks ι) : Prop :=
  ∀ a b, b ∈ G.mutex a → ¬ (e a = some 1 ∧ e b = some 1)

def DepClosedAt (G : OptGraph ι) (e : Marks ι) (j : ι) : Prop := ∀ p ∈ G.dep j, e p = some 1

def ChildClosedAt (G : OptGraph ι) (e : Marks ι) (p : ι) : Prop :=
  G.mustChild p = true → G.child p ≠ [] → ∃ c ∈ G.child p, e c = some 1

/-- The options that a bitmap asks for: the least set with the chosen options and
the must-haves that has the dependencies and the possible mandatory children of
its members. -/
inductive Justified (G : OptGraph ι) (chosen : ι → Prop) : ι → Prop where
  | chosen {i : ι} : chosen i → Justified G chosen i
  | mustHave {i : ι} : G.mustHave i = true → Justified G chosen i
  | dep {j p : ι} : Justified G chosen j → p ∈ G.dep j → Justified G chosen p
  | child {p c : ι} : Justified G chosen p → G.mustChild p = true → c ∈ G.child p →
      Justified G chosen c

/-- A set of options that is a complete, consistent configuration. -/
structure Valid (G : OptGraph ι) (isNode : ι → Prop) (S : ι → Prop) : Prop where
  node : ∀ i, S i → isNode i
  mustHave : ∀ i, isNode i → G.mustHave i = true → S i
  dep : ∀ i, S i → ∀ p ∈ G.dep i, S p
  mutex : ∀ i j, S i → S j → j ∉ G.mutex i
  child : ∀ i, S i → G.mustChild i = true → G.child i ≠ [] → ∃ c ∈ G.child i, S c

/-! ## Moves -/

section Moves

variable [DecidableEq ι] {G : OptGraph ι} {e e' : Marks ι}

/-- An option that is on turns on a dependency that is off. -/
inductive DepMove (G : OptGraph ι) : Marks ι → Marks ι → Prop where
  | mk {e : Marks ι} {j p : ι} : e j = some 1 → p ∈ G.dep j → e p = some 0 →
      DepMove G e (Function.update e p (some 1))

/-- An option without the child it must have turns one on. -/
inductive ChildMove (G : OptGraph ι) : Marks ι → Marks ι → Prop where
  | mk {e : Marks ι} {p c : ι} : e p = some 1 → G.mustChild p = true → c ∈ G.child p →
      (∀ c' ∈ G.child p, e c' ≠ some 1) → ChildMove G e (Function.update e c (some 1))

def Move (G : OptGraph ι) (e e' : Marks ι) : Prop := DepMove G e e' ∨ ChildMove G e e'

abbrev Moves (G : OptGraph ι) : Marks ι → Marks ι → Prop := Relation.ReflTransGen (Move G)

/-- What every move keeps, any number of moves keep. -/
theorem Moves.inv {P : Marks ι → Prop} (hP : ∀ e e', P e → Move G e e' → P e')
    (h : Moves G e e') (h0 : P e) : P e' := by
  induction h with
  | refl => exact h0
  | tail _ hm ih => exact hP _ _ ih hm

theorem update_on {e : Marks ι} {i p : ι} (h : e i = some 1) :
    Function.update e p (some 1) i = some 1 := by
  by_cases hi : i = p
  · subst hi; simp
  · simp [hi, h]

theorem Move.on {i : ι} (h : Move G e e') (hi : e i = some 1) : e' i = some 1 := by
  rcases h with ⟨-, -, -⟩ | ⟨-, -, -, -⟩ <;> exact update_on hi

theorem Moves.on {i : ι} (h : Moves G e e') (hi : e i = some 1) : e' i = some 1 :=
  h.inv (P := fun e => e i = some 1) (fun _ _ hi hm => hm.on hi) hi

theorem update_same_or_on (e : Marks ι) (p i : ι) :
    Function.update e p (some 1) i = e i ∨ Function.update e p (some 1) i = some 1 := by
  by_cases hi : i = p
  · subst hi; simp
  · simp [hi]

theorem Moves.same_or_on (h : Moves G e e') (i : ι) : e' i = e i ∨ e' i = some 1 := by
  refine h.inv (P := fun e' => e' i = e i ∨ e' i = some 1) (fun e1 e2 h1 hm => ?_) (.inl rfl)
  have hstep : e2 i = e1 i ∨ e2 i = some 1 := by
    rcases hm with ⟨-, -, -⟩ | ⟨-, -, -, -⟩ <;> exact update_same_or_on _ _ i
  rcases hstep with h2 | h2
  · rw [h2]; exact h1
  · exact .inr h2

theorem Moves.off {i : ι} (h : Moves G e e') (hi : e' i = some 0) : e i = some 0 := by
  rcases h.same_or_on i with h | h
  · rw [← h]; exact hi
  · rw [h] at hi; cases hi

theorem Moves.childClosedAt {p : ι} (h : Moves G e e') (hp : ChildClosedAt G e p) :
    ChildClosedAt G e' p := by
  intro hm hne
  obtain ⟨c, hc, hon⟩ := hp hm hne
  exact ⟨c, hc, h.on hon⟩

theorem Moves.depClosedAt {j : ι} (h : Moves G e e') (hj : DepClosedAt G e j) :
    DepClosedAt G e' j := fun p hp => h.on (hj p hp)

/-- A pruned option comes back only as a child of an option that must have one. -/
theorem Moves.pruned {i : ι} (h : Moves G e e')
    (hi : ∀ p, G.mustChild p = true → i ∉ G.child p) (h2 : e i = some 2) : e' i = some 2 := by
  refine h.inv (P := fun e => e i = some 2) (fun e e' h2 hm => ?_) h2
  rcases hm with ⟨-, -, h0⟩ | ⟨-, hm, hc, -⟩
  · rename_i p
    have hip : i ≠ p := by rintro rfl; rw [h0] at h2; cases h2
    rw [Function.update_of_ne hip]; exact h2
  · rename_i p c
    have hic : i ≠ c := by rintro rfl; exact hi p hm hc
    rw [Function.update_of_ne hic]; exact h2

/-- Conflicts as the shipped tables have them: a symmetric pairing of distinct
options that nothing requires by itself and that share their parents. -/
structure PairedConflicts (G : OptGraph ι) : Prop where
  symm : ∀ a b, b ∈ G.mutex a ↔ a ∈ G.mutex b
  le_one : ∀ a, (G.mutex a).length ≤ 1
  irrefl : ∀ a, a ∉ G.mutex a
  not_mustHave : ∀ a b, b ∈ G.mutex a → G.mustHave a = false
  not_dep : ∀ a b j, b ∈ G.mutex a → a ∉ G.dep j
  same_parents : ∀ a b p, b ∈ G.mutex a → (a ∈ G.child p ↔ b ∈ G.child p)

theorem Exclusive.update {c : ι} (hs : ∀ a b, b ∈ G.mutex a ↔ a ∈ G.mutex b)
    (hx : Exclusive G e) (hc : ∀ b ∈ G.mutex c, e b ≠ some 1) (hcc : c ∉ G.mutex c) :
    Exclusive G (Function.update e c (some 1)) := by
  rintro a b hab ⟨ha, hb⟩
  by_cases hac : a = c
  · subst hac
    have hba : b ≠ a := fun h => hcc (h ▸ hab)
    rw [Function.update_of_ne hba] at hb
    exact hc b hab hb
  · by_cases hbc : b = c
    · subst hbc
      rw [Function.update_of_ne hac] at ha
      exact hc a ((hs a b).1 hab) ha
    · rw [Function.update_of_ne hac] at ha
      rw [Function.update_of_ne hbc] at hb
      exact hx a b hab ⟨ha, hb⟩

theorem PairedConflicts.move (hG : PairedConflicts G) (hx : Exclusive G e) (h : Move G e e') :
    Exclusive G e' := by
  rcases h with h | h
  · obtain ⟨hj, hp, h0⟩ := h
    exact hx.update hG.symm (fun b hb => absurd hp (hG.not_dep _ b _ hb)) (hG.irrefl _)
  · -- a conflict of the chosen child is a child of the same parent, so it is not on
    obtain ⟨hp, hm, hc, hno⟩ := h
    exact hx.update hG.symm (fun b hb => hno b ((hG.same_parents _ b _ hb).1 hc)) (hG.irrefl _)

/-- **The moves keep conflicts apart.** -/
theorem PairedConflicts.moves (hG : PairedConflicts G) (hx : Exclusive G e) (h : Moves G e e') :
    Exclusive G e' :=
  h.inv (P := Exclusive G) (fun _ _ hx hm => hG.move hx hm) hx

/-! ## Justification -/

theorem Move.justified {chosen : ι → Prop} (h : Move G e e')
    (hJ : ∀ i, e i = some 1 → Justified G chosen i) :
    ∀ i, e' i = some 1 → Justified G chosen i := by
  intro i hi
  rcases h with ⟨hj, hp, -⟩ | ⟨hp, hm, hc, -⟩
  · rename_i j p
    by_cases hip : i = p
    · subst hip; exact .dep (hJ j hj) hp
    · rw [Function.update_of_ne hip] at hi; exact hJ i hi
  · rename_i p c
    by_cases hic : i = c
    · subst hic; exact .child (hJ p hp) hm hc
    · rw [Function.update_of_ne hic] at hi; exact hJ i hi

/-- **The moves turn on nothing that is not justified.** -/
theorem Moves.justified {chosen : ι → Prop} (h : Moves G e e')
    (hJ : ∀ i, e i = some 1 → Justified G chosen i) :
    ∀ i, e' i = some 1 → Justified G chosen i :=
  h.inv (P := fun e => ∀ i, e i = some 1 → Justified G chosen i)
    (fun _ _ hJ hm => hm.justified hJ) hJ

end Moves

end ConFuzz.Config
