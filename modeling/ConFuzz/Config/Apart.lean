import ConFuzz.Config.Chain
import ConFuzz.Config.Runs

/-!
# When the moves keep conflicts apart

The moves look at marks and never at conflicts: a dependency is turned on next to
whatever is on, and a child is picked among all children, pruned ones included.
`KeepsApart e e'` is what a resolution from `e` to `e'` should do all the same. Since
marks are only turned on, it fails as soon as an option is turned on that is pruned
or has a conflict that is on, and only then (`keepsApart_update`); `DepTurns` and
`ChildTurns` are the marks at which the two recursions turn an option on.

The moves keep conflicts apart from every exclusive start when no option has to pick
a child and no dependency has a conflict of its own (`Unforced`). From one start it
is enough that conflicts are nobody's dependencies and share their parents, and that
next to every pruned child there is one that is on (`SharedParents`,
`PrunedHasSibling`).
-/

namespace ConFuzz.Config

variable {ι : Type} {G : OptGraph ι} {e e' : Marks ι}

/-- Symmetric conflicts between options without children. -/
structure LeafConflicts (G : OptGraph ι) : Prop where
  symm : ∀ a b, b ∈ G.mutex a → a ∈ G.mutex b
  leaf : ∀ a b, b ∈ G.mutex a → G.child a = []

/-- No conflicting options are on at the end, and what was pruned is not on. -/
structure KeepsApart (G : OptGraph ι) (e e' : Marks ι) : Prop where
  exclusive : Exclusive G e'
  pruned : ∀ i, e i = some 2 → e' i ≠ some 1

theorem KeepsApart.of_pruned (hx : Exclusive G e') (h2 : ∀ i, e i = some 2 → e' i = some 2) :
    KeepsApart G e e' := by
  refine ⟨hx, fun i hi h1 => ?_⟩
  rw [h2 i hi] at h1
  cases h1

variable [DecidableEq ι]

theorem update_pruned {a i : ι} {v : Option Int} (ha : e a ≠ some 2) (hi : e i = some 2) :
    Function.update e a v i = some 2 := by
  have hia : i ≠ a := by
    rintro rfl
    exact ha hi
  rw [Function.update_of_ne hia]
  exact hi

/-! ## Turning an option on -/

omit [DecidableEq ι] in
def Unopposed (G : OptGraph ι) (e : Marks ι) (p : ι) : Prop :=
  p ∉ G.mutex p ∧ ∀ b ∈ G.mutex p, e b ≠ some 1

/-- The dependency recursion from `j` with the marks `e` comes to the marks `e1`, and turns on
`p` there. -/
inductive DepTurns (G : OptGraph ι) : ι → Marks ι → Marks ι → ι → Prop where
  | first {j p : ι} {e : Marks ι} : e j = some 1 → firstMissing G e [] j = some p →
      DepTurns G j e e p
  | later {j q p : ι} {e e1 : Marks ι} : e j = some 1 → firstMissing G e [] j = some q →
      DepTurns G q (Function.update e q (some 1)) e1 p → DepTurns G j e e1 p

def MustPick (G : OptGraph ι) (e : Marks ι) (p : ι) : Prop :=
  e p = some 1 ∧ G.mustChild p = true ∧ ∀ c ∈ G.child p, e c ≠ some 1

/-- The child recursion from `p` with the marks `e` comes to the marks `e1`, and turns on `c`
there. The child that an option picks with the `pos`-th draw is `pick pos`. -/
inductive ChildTurns (G : OptGraph ι) (pick : Nat → ι → Option ι) :
    Nat → ι → Marks ι → Marks ι → ι → Prop where
  | first {pos : Nat} {p c : ι} {e : Marks ι} : MustPick G e p → pick pos p = some c →
      ChildTurns G pick pos p e e c
  | later {pos : Nat} {p q c : ι} {e e1 : Marks ι} : MustPick G e p → pick pos p = some q →
      ChildTurns G pick (pos + 1) q (Function.update e q (some 1)) e1 c →
      ChildTurns G pick pos p e e1 c

theorem depTurns_forall {j q : ι} {P : Marks ι → ι → Prop} (hj : e j = some 1)
    (hq : firstMissing G e [] j = some q) : (∀ e1 p, DepTurns G j e e1 p → P e1 p) ↔
      P e q ∧ ∀ e1 p, DepTurns G q (Function.update e q (some 1)) e1 p → P e1 p := by
  refine ⟨fun h => ⟨h e q (.first hj hq), fun e1 p hp => h e1 p (.later hj hq hp)⟩, ?_⟩
  rintro ⟨hfirst, hlater⟩ e1 p hp
  cases hp with
  | first _ hp => rwa [Option.some.inj (hp.symm.trans hq)]
  | later _ hq' hp =>
    obtain rfl := Option.some.inj (hq'.symm.trans hq)
    exact hlater e1 p hp

theorem childTurns_forall {pick : Nat → ι → Option ι} {pos : Nat} {p q : ι}
    {P : Marks ι → ι → Prop} (hp : MustPick G e p) (hq : pick pos p = some q) :
    (∀ e1 c, ChildTurns G pick pos p e e1 c → P e1 c) ↔ P e q ∧
      ∀ e1 c, ChildTurns G pick (pos + 1) q (Function.update e q (some 1)) e1 c → P e1 c := by
  refine ⟨fun h => ⟨h e q (.first hp hq), fun e1 c hc => h e1 c (.later hp hq hc)⟩, ?_⟩
  rintro ⟨hfirst, hlater⟩ e1 c hc
  cases hc with
  | first _ hc => rwa [Option.some.inj (hc.symm.trans hq)]
  | later _ hq' hc =>
    obtain rfl := Option.some.inj (hq'.symm.trans hq)
    exact hlater e1 c hc

/-- What is lost stays lost. -/
theorem KeepsApart.of_moves {e1 e2 : Marks ι} (h : Moves G e1 e2) (hK : KeepsApart G e e2) :
    KeepsApart G e e1 :=
  ⟨fun a b hb hab => hK.exclusive a b hb ⟨h.on hab.1, h.on hab.2⟩,
    fun i hi h1 => hK.pruned i hi (h.on h1)⟩

/-- **Turning on one option** keeps conflicts apart if the option is not pruned and none of its
conflicts is on. -/
theorem keepsApart_update {e1 : Marks ι} {p : ι} (hs : ∀ a b, b ∈ G.mutex a ↔ a ∈ G.mutex b)
    (hm : Moves G e e1) (hK : KeepsApart G e e1) :
    KeepsApart G e (Function.update e1 p (some 1)) ↔ e1 p ≠ some 2 ∧ Unopposed G e1 p := by
  have hp : Function.update e1 p (some 1) p = some 1 := Function.update_self ..
  constructor
  · intro h
    refine ⟨fun h2 => ?_, fun hpp => h.exclusive p p hpp ⟨hp, hp⟩, fun b hb h1 => ?_⟩
    · rcases hm.same_or_on p with hsame | hon
      · exact h.pruned p (hsame ▸ h2) hp
      · rw [h2] at hon
        cases hon
    · exact h.exclusive p b hb ⟨hp, update_on h1⟩
  · rintro ⟨h2, hpp, hno⟩
    refine ⟨hK.exclusive.update hs hno hpp, fun i hi h1 => ?_⟩
    by_cases hip : i = p
    · subst hip
      rcases hm.same_or_on i with hsame | hon
      · exact h2 (hsame.trans hi)
      · exact hK.pruned i hi hon
    · rw [Function.update_of_ne hip] at h1
      exact hK.pruned i hi h1

/-! ## From every start -/

/-- No option has to pick a child, and an option that can be on needs nothing that conflicts
with an option that can be on beside it. -/
structure Unforced (G : OptGraph ι) : Prop where
  child : ∀ p, G.mustChild p = true → G.child p ≠ [] → p ∈ G.child p
  dep : ∀ a b j, b ∈ G.mutex a → a ∈ G.dep j → j ≠ a → j ∉ G.mutex j →
    b ≠ a ∧ (b ∈ G.mutex j ∨ b ∈ G.mutex b)

theorem Unforced.move (hG : Unforced G) (hc : LeafConflicts G) (hx : Exclusive G e)
    (h : Move G e e') : Exclusive G e' ∧ ∀ i, e i = some 2 → e' i = some 2 := by
  have hs : ∀ a b, b ∈ G.mutex a ↔ a ∈ G.mutex b := fun a b => ⟨hc.symm a b, hc.symm b a⟩
  rcases h with h | h
  · obtain @⟨j, a, hj, ha, h0⟩ := h
    have hja : j ≠ a := by
      rintro rfl
      rw [hj] at h0
      cases h0
    have hjj : j ∉ G.mutex j := fun h => hx j j h ⟨hj, hj⟩
    refine ⟨hx.update hs (fun b hb h1 => ?_) (fun haa => ?_), fun i hi => ?_⟩
    · rcases (hG.dep a b j hb ha hja hjj).2 with h | h
      · exact hx j b h ⟨hj, h1⟩
      · exact hx b b h ⟨h1, h1⟩
    · exact (hG.dep a a j haa ha hja hjj).1 rfl
    · exact update_pruned (by rw [h0]; decide) hi
  · obtain @⟨p, c, hp, hm, hmem, hno⟩ := h
    exact absurd hp (hno p (hG.child p hm (List.ne_nil_of_mem hmem)))

/-- **The moves keep conflicts apart from every exclusive start.** -/
theorem Unforced.moves (hG : Unforced G) (hc : LeafConflicts G) (hx : Exclusive G e)
    (h : Moves G e e') : KeepsApart G e e' := by
  obtain ⟨hx', h2⟩ := h.inv
    (P := fun e' => Exclusive G e' ∧ ∀ i, e i = some 2 → e' i = some 2)
    (fun e1 e2 hI hm => by
      obtain ⟨hx2, h2⟩ := hG.move hc hI.1 hm
      exact ⟨hx2, fun i hi => h2 i (hI.2 i hi)⟩)
    ⟨hx, fun _ hi => hi⟩
  exact .of_pruned hx' h2

/-! ## From one start -/

/-- Conflicting options are distinct, nothing depends on them, and they are children of the
same options that must have one. -/
structure SharedParents (G : OptGraph ι) : Prop where
  irrefl : ∀ a, a ∉ G.mutex a
  not_dep : ∀ a b j, b ∈ G.mutex a → a ∉ G.dep j
  parents : ∀ a b p, b ∈ G.mutex a → G.mustChild p = true → a ∈ G.child p → b ∈ G.child p

/-- Beside a pruned child of an option that must have one there is a child that is on. -/
def PrunedHasSibling (G : OptGraph ι) (e : Marks ι) : Prop :=
  ∀ p c, G.mustChild p = true → c ∈ G.child p → e c = some 2 → ∃ c' ∈ G.child p, e c' = some 1

theorem SharedParents.move (hG : SharedParents G) (hc : LeafConflicts G) (hx : Exclusive G e)
    (hp : PrunedHasSibling G e) (h : Move G e e') :
    Exclusive G e' ∧ ∀ i, e i = some 2 → e' i = some 2 := by
  have hs : ∀ a b, b ∈ G.mutex a ↔ a ∈ G.mutex b := fun a b => ⟨hc.symm a b, hc.symm b a⟩
  rcases h with h | h
  · obtain @⟨j, a, hj, ha, h0⟩ := h
    exact ⟨hx.update hs (fun b hb => absurd ha (hG.not_dep a b j hb)) (hG.irrefl a),
      fun i hi => update_pruned (by rw [h0]; decide) hi⟩
  · obtain @⟨p, c, hon, hm, hmem, hno⟩ := h
    have hc2 : e c ≠ some 2 := by
      intro h2
      obtain ⟨c', hc', h1⟩ := hp p c hm hmem h2
      exact hno c' hc' h1
    exact ⟨hx.update hs (fun b hb => hno b (hG.parents c b p hb hm hmem)) (hG.irrefl c),
      fun i hi => update_pruned hc2 hi⟩

theorem PrunedHasSibling.moves (hp : PrunedHasSibling G e) (h : Moves G e e') :
    PrunedHasSibling G e' := by
  intro p c hm hc h2
  have he : e c = some 2 := by
    rcases h.same_or_on c with h' | h'
    · rw [← h']; exact h2
    · rw [h'] at h2; cases h2
  obtain ⟨c', hc', h1⟩ := hp p c hm hc he
  exact ⟨c', hc', h.on h1⟩

/-- **The moves keep conflicts apart from a start with a child on beside every pruned one.** -/
theorem SharedParents.moves (hG : SharedParents G) (hc : LeafConflicts G) (hx : Exclusive G e)
    (hp : PrunedHasSibling G e) (h : Moves G e e') : KeepsApart G e e' := by
  obtain ⟨-, hx', h2⟩ := h.inv
    (P := fun e' => PrunedHasSibling G e' ∧ Exclusive G e' ∧ ∀ i, e i = some 2 → e' i = some 2)
    (fun e1 e2 hI hm => by
      obtain ⟨hp1, hx1, h1⟩ := hI
      obtain ⟨hx2, h2⟩ := hG.move hc hx1 hp1 hm
      exact ⟨hp1.moves (.single hm), hx2, fun i hi => h2 i (h1 i hi)⟩)
    ⟨hp, hx, fun _ hi => hi⟩
  exact .of_pruned hx' h2

/-! ## One dependency that is off -/

theorem DepRun.only_off {j a : ι} (h : DepRun G j e e') (hj : e j = some 1) (ha : a ∈ G.dep j)
    (honly : ∀ p, e p = some 0 → p = a) : e' a ≠ some 0 := by
  cases h with
  | stop hstop =>
    obtain ⟨w, hw, hne⟩ := hstop hj a ha
    rw [hw]
    exact fun h => hne (Option.some.inj h)
  | @step _ _ _ p _ _ h0 hrun =>
    have hpa : p = a := honly p h0
    subst hpa
    intro h
    have hon : e' p = some 1 := hrun.moves.on (Function.update_self ..)
    rw [hon] at h
    cases h

end ConFuzz.Config
