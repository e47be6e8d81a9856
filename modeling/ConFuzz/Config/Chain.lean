import ConFuzz.Config.Graph

/-!
# The chain of missing dependencies

The dependency recursion turns on one missing dependency of an option, the first
one of its list, and goes on from there: it follows a chain and never comes back.
`Missing G e j m` says that `m` is off and needed by `j`, directly or through
options that are off themselves. The chain passes all of them exactly when they
can be listed as one (`FirstChain`), each being the first dependency of the one
before that is off and not listed yet.
-/

namespace ConFuzz.Config

variable {ι : Type} [DecidableEq ι] {G : OptGraph ι} {e : Marks ι} {j p m : ι}

def MissingDep (G : OptGraph ι) (e : Marks ι) (j p : ι) : Prop := p ∈ G.dep j ∧ e p = some 0

/-- `m` is off and needed by `j`, directly or through options that are off. -/
abbrev Missing (G : OptGraph ι) (e : Marks ι) : ι → ι → Prop :=
  Relation.TransGen (MissingDep G e)

/-- The first dependency of `j` that is off and not in `seen`. -/
def firstMissing (G : OptGraph ι) (e : Marks ι) (seen : List ι) (j : ι) : Option ι :=
  (G.dep j).find? fun q => e q = some 0 ∧ q ∉ seen

/-- `l` lists options that are off, each the first dependency of the one before that is off
and neither in `seen` nor listed yet. The first one is a dependency of `j`. -/
def FirstChain (G : OptGraph ι) (e : Marks ι) : List ι → ι → List ι → Prop
  | _, _, [] => True
  | seen, j, p :: l => firstMissing G e seen j = some p ∧ FirstChain G e (p :: seen) p l

def FullChain (G : OptGraph ι) (e : Marks ι) : List ι → ι → List ι → Prop
  | seen, j, [] => firstMissing G e seen j = none
  | seen, j, p :: l => firstMissing G e seen j = some p ∧ FullChain G e (p :: seen) p l

def turnOn (e : Marks ι) (l : List ι) : Marks ι := fun i => if i ∈ l then some 1 else e i

theorem turnOn_nil (e : Marks ι) : turnOn e [] = e := by
  funext i
  simp [turnOn]

theorem update_turnOn (e : Marks ι) (l : List ι) (p : ι) :
    Function.update (turnOn e l) p (some 1) = turnOn e (p :: l) := by
  funext i
  by_cases hi : i = p
  · subst hi
    simp [turnOn]
  · rw [Function.update_of_ne hi]
    simp [turnOn, hi]

theorem turnOn_eq_one {l : List ι} {i : ι} (h0 : e i = some 0) (h : turnOn e l i = some 1) :
    i ∈ l := by
  by_contra hi
  rw [turnOn, if_neg hi, h0] at h
  cases h

theorem firstMissing_some {seen : List ι} (h : firstMissing G e seen j = some p) :
    MissingDep G e j p ∧ p ∉ seen := by
  have hp := List.find?_some h
  rw [decide_eq_true_eq] at hp
  exact ⟨⟨List.mem_of_find?_eq_some h, hp.1⟩, hp.2⟩

theorem firstMissing_turnOn (seen : List ι) :
    ((G.dep j).find? fun q => turnOn e seen q = some 0) = firstMissing G e seen j := by
  unfold firstMissing
  congr 1
  funext q
  by_cases hq : q ∈ seen
  · simp [turnOn, hq]
  · simp [turnOn, hq]

/-! ## Full chains -/

theorem FullChain.chain : ∀ {l seen : List ι} {j : ι}, FullChain G e seen j l →
    FirstChain G e seen j l
  | [], _, _, _ => trivial
  | _ :: _, _, _, ⟨hp, h⟩ => ⟨hp, h.chain⟩

theorem FullChain.mem_of_chain : ∀ {l l' seen : List ι} {j : ι}, FullChain G e seen j l' →
    FirstChain G e seen j l → ∀ i ∈ l, i ∈ l'
  | p :: l, [], _, _, hfull, ⟨hp, _⟩, _, _ => by
    have hnone : _ = none := hfull
    rw [hnone] at hp
    cases hp
  | p :: l, q :: l', _, _, ⟨hq, hfull⟩, ⟨hp, h⟩, i, hi => by
    rw [hq] at hp
    cases hp
    rcases List.mem_cons.1 hi with rfl | hi
    · exact List.mem_cons_self
    · exact List.mem_cons_of_mem _ (hfull.mem_of_chain h i hi)

theorem FirstChain.missing : ∀ {l seen : List ι} {j : ι}, FirstChain G e seen j l →
    ∀ i ∈ l, Missing G e j i
  | p :: l, _, _, ⟨hp, h⟩, i, hi => by
    have hstep := (firstMissing_some hp).1
    rcases List.mem_cons.1 hi with rfl | hi
    · exact .single hstep
    · exact .head hstep (h.missing i hi)

/-- **The chain is complete** exactly when what is missing can be listed as a chain. -/
theorem FullChain.complete_iff {l : List ι} (h : FullChain G e [] j l)
    (h01 : ∀ i p, p ∈ G.dep i → e p = some 0 ∨ e p = some 1) :
    ((∀ p ∈ G.dep j, turnOn e l p = some 1) ∧
      ∀ i, e i = some 0 → turnOn e l i = some 1 → ∀ p ∈ G.dep i, turnOn e l p = some 1) ↔
    ∃ l', FirstChain G e [] j l' ∧ ∀ m, Missing G e j m → m ∈ l' := by
  constructor
  · rintro ⟨hj, hnew⟩
    refine ⟨l, h.chain, fun m hm => ?_⟩
    -- along the dependencies that are off: each is on afterwards, so it was turned on
    induction hm with
    | single hm => exact turnOn_eq_one hm.2 (hj _ hm.1)
    | @tail i m hi hm ih =>
      have h0 : e i = some 0 := by
        cases hi with
        | single hi => exact hi.2
        | tail _ hi => exact hi.2
      exact turnOn_eq_one hm.2 (hnew i h0 (by rw [turnOn, if_pos ih]) m hm.1)
  · rintro ⟨l', hl', hall⟩
    have hon : ∀ i p, p ∈ G.dep i → (e p = some 0 → Missing G e j p) → turnOn e l p = some 1 := by
      intro i p hp hmiss
      rcases h01 i p hp with h0 | h1
      · rw [turnOn, if_pos (h.mem_of_chain hl' p (hall p (hmiss h0)))]
      · unfold turnOn
        split
        · rfl
        · exact h1
    refine ⟨fun p hp => hon j p hp fun h0 => .single ⟨hp, h0⟩, fun i h0 hi p hp => ?_⟩
    have hmi : Missing G e j i := h.chain.missing i (turnOn_eq_one h0 hi)
    exact hon i p hp fun h0 => .tail hmi ⟨hp, h0⟩

end ConFuzz.Config
