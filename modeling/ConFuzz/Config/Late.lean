import ConFuzz.Config.Chain
import ConFuzz.Config.Runs

/-!
# Options turned on behind the sweep

The sweep visits the options in order, and at its turn an option gets its chain of
missing dependencies and a child. What it turns on behind itself is not visited
again: a dependency gets no child there, and a child gets no dependency.
`LateSettled` says of the marks before a turn that this does no harm: what the turn
can turn on behind itself finds what it needs among the options that are on, or
among those that the turn turns on as well.
-/

namespace ConFuzz.Config

variable {ι : Type} {G : OptGraph ι} {e e' : Marks ι} {i j p m : ι}

/-- `p` must have a child, has none, and `c` is one of its children. -/
def OpenLink (G : OptGraph ι) (e : Marks ι) (p c : ι) : Prop :=
  G.mustChild p = true ∧ c ∈ G.child p ∧ ∀ c' ∈ G.child p, e c' ≠ some 1

/-- What the turn of `i` turns on before `i` has what it needs. -/
structure LateSettled [LT ι] (G : OptGraph ι) (e : Marks ι) (i : ι) : Prop where
  /-- A dependency has a child that is on or is turned on as a dependency. -/
  child : ∀ p, p < i → Missing G e i p → G.mustChild p = true → G.child p ≠ [] →
    ∃ c ∈ G.child p, e c = some 1 ∨ Missing G e i c
  /-- A child has no dependency that is off, but for its parent and what is turned on as a
  dependency. -/
  dep : ∀ x c, c < i → Relation.ReflTransGen (OpenLink G e) i x → OpenLink G e x c →
    ∀ q ∈ G.dep c, e q = some 0 → q = x ∨ Missing G e i q

/-- On a table where an option that must have a child has its dependants among its
children, and a child of such an option depends on nothing else, every turn is settled. -/
theorem LateSettled.of_links [LT ι]
    (hdep : ∀ j p, p ∈ G.dep j → G.mustChild p = true → G.child p ≠ [] → j ∈ G.child p)
    (hchild : ∀ p c, G.mustChild p = true → c ∈ G.child p → ∀ q ∈ G.dep c, q = p)
    (hi : e i = some 1) : LateSettled G e i := by
  refine ⟨fun p _ hp hm hne => ?_, fun x c _ _ hx q hq _ => .inl (hchild x c hx.1 hx.2.1 q hq)⟩
  cases hp with
  | single hp => exact ⟨i, hdep i p hp.1 hm hne, .inl hi⟩
  | @tail j p hj hp => exact ⟨j, hdep j p hp.1 hm hne, .inr hj⟩

variable [DecidableEq ι]

theorem MissingDep.of_update {q : ι} (h : MissingDep G (Function.update e q (some 1)) j p) :
    MissingDep G e j p := by
  obtain ⟨hp, h0⟩ := h
  refine ⟨hp, ?_⟩
  by_cases hpq : p = q
  · subst hpq
    rw [Function.update_self] at h0
    cases h0
  · rwa [Function.update_of_ne hpq] at h0

theorem DepRun.missing (h : DepRun G j e e') :
    ∀ m, e' m = some 1 → e m = some 1 ∨ Missing G e j m := by
  induction h with
  | stop => exact fun m hm => .inl hm
  | @step e e' j p hj hp h0 hrun ih =>
    intro m hm
    rcases ih m hm with h | h
    · by_cases hmp : m = p
      · subst hmp
        exact .inr (.single ⟨hp, h0⟩)
      · rw [Function.update_of_ne hmp] at h
        exact .inl h
    · exact .inr (.head ⟨hp, h0⟩ (Relation.TransGen.mono (fun _ _ h => h.of_update) _ _ h))

/-- With at most one dependency each, it turns on all that is missing. -/
theorem DepRun.reaches (hle : ∀ j, (G.dep j).length ≤ 1) (h : DepRun G j e e') (hj : e j = some 1)
    (hm : Missing G e j m) : e' m = some 1 := by
  obtain ⟨hdone, hnew⟩ := h.done hle
  have hon : ∀ i p, DepDoneAt G e' i → MissingDep G e i p → e' p = some 1 := by
    rintro i p hd ⟨hp, h0⟩
    obtain ⟨w, hw, hne⟩ := hd p hp
    rcases h.moves.same_or_on p with h' | h'
    · rw [h', h0] at hw
      exact absurd (Option.some.inj hw).symm hne
    · exact h'
  induction hm with
  | single hm => exact hon j _ (hdone hj) hm
  | @tail i m hi hm ih =>
    have h0 : e i = some 0 := by
      cases hi with
      | single hi => exact hi.2
      | tail _ hi => exact hi.2
    rcases hnew i ih with h1 | hd
    · rw [h0] at h1
      cases h1
    · exact hon i m hd hm

theorem OpenLink.of_moves {c : ι} (h : Moves G e e') (hl : OpenLink G e' p c) : OpenLink G e p c :=
  ⟨hl.1, hl.2.1, fun c' hc' h1 => hl.2.2 c' hc' (h.on h1)⟩

theorem ChildRun.links (h : ChildRun G p e e') : ∀ c, e' c = some 1 → e c = some 1 ∨
    ∃ x, Relation.ReflTransGen (OpenLink G e) p x ∧ OpenLink G e x c ∧ e' x = some 1 := by
  induction h with
  | stop => exact fun c hc => .inl hc
  | @step e e' p c hp hm hc hno hrun ih =>
    have hlink : OpenLink G e p c := ⟨hm, hc, hno⟩
    have hmv : Moves G e (Function.update e c (some 1)) := .single (.inr (.mk hp hm hc hno))
    intro c' hc'
    rcases ih c' hc' with h | ⟨x, hx, hxc, hon⟩
    · by_cases hcc : c' = c
      · subst hcc
        exact .inr ⟨p, .refl, hlink, hrun.moves.on (update_on hp)⟩
      · rw [Function.update_of_ne hcc] at h
        exact .inl h
    · exact .inr ⟨x, .head hlink (Relation.ReflTransGen.mono (fun _ _ h => h.of_moves hmv) _ _ hx),
        hxc.of_moves hmv, hon⟩

/-- **A settled turn.** After the two recursions from `i`, every option that they turned on
before `i` has no dependency off and has the child it must have. -/
theorem LateSettled.turn [LT ι] {e1 e2 : Marks ι} (hle : ∀ j, (G.dep j).length ≤ 1)
    (hs : LateSettled G e i) (hi : e i = some 1)
    (hmark : ∀ j p, p ∈ G.dep j → ∃ w, e p = some w) (h1 : DepRun G i e e1)
    (h2 : ChildRun G i e1 e2) :
    ∀ m, m < i → e2 m = some 1 → e m = some 1 ∨ (DepDoneAt G e2 m ∧ ChildClosedAt G e2 m) := by
  intro m hmi hm
  have hmv : Moves G e e2 := h1.moves.trans h2.moves
  rcases h2.links m hm with hm1 | ⟨x, hx, hxm, hxon⟩
  · rcases h1.missing m hm1 with hm0 | hmiss
    · exact .inl hm0
    · rcases (h1.done hle).2 m hm1 with hm0 | hd
      · exact .inl hm0
      · refine .inr ⟨h2.moves.depDoneAt hd, fun hmc hne => ?_⟩
        obtain ⟨c, hc, hcon | hcm⟩ := hs.child m hmi hmiss hmc hne
        · exact ⟨c, hc, hmv.on hcon⟩
        · exact ⟨c, hc, h2.moves.on (h1.reaches hle hi hcm)⟩
  · rcases h2.closed.2 m hm with hm1 | hcl
    · rcases h1.missing m hm1 with hm0 | hmiss
      · exact .inl hm0
      · exact absurd hm1 (hxm.2.2 m hxm.2.1)
    · refine .inr ⟨fun q hq => ?_, hcl⟩
      obtain ⟨w, hw⟩ := hmark m q hq
      by_cases h0 : e q = some 0
      · have hon : e2 q = some 1 := by
          rcases hs.dep x m hmi
            (Relation.ReflTransGen.mono (fun _ _ h => h.of_moves h1.moves) _ _ hx)
            (hxm.of_moves h1.moves) q hq h0 with rfl | hqm
          · exact hxon
          · exact h2.moves.on (h1.reaches hle hi hqm)
        exact ⟨1, hon, by decide⟩
      · rcases hmv.same_or_on q with h' | h'
        · refine ⟨w, h'.trans hw, ?_⟩
          rintro rfl
          exact h0 hw
        · exact ⟨1, h', by decide⟩

end ConFuzz.Config
