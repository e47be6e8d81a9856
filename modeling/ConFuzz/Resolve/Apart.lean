import ConFuzz.Config.Apart
import ConFuzz.Resolve.Dependency

/-!
# The second iteration and the conflicts

A sweep keeps conflicts apart exactly when every turn of it is safe (`SafeTurn`):
whatever the two recursions turn on has no conflict that is on at that moment, and
no pruned child is picked.

Whether the second iteration can bring a conflict or a pruned node back at all
depends on the table alone, when the marks it starts from may be any exclusive ones.
For the direction that needs a failing start, `irWith` builds one: the option that
has to pick a child is on and everything else is pruned, or a node and a conflict of
its dependency are on and the dependency is the only node that is off.
-/

namespace ConFuzz

open ConFuzz.CLib ConFuzz.Config

section

variable {d : Draws} {t : List ArgNode}

/-- Every node gets its turn: what the turn of a node that is on establishes, and the moves
keep, holds at the end. -/
theorem secondPass_visited {C : Marks Int → Prop} {n k : Nat} {s s' : Run}
    (hmono : ∀ {e e' : Marks Int}, Moves (graphOf t) e e' → C e → C e')
    (hturn : ∀ s1 s2 : Run, Moves (graphOf t) (enableOf s.ir) (enableOf s1.ir) → On s1.ir k →
      secondStep d t k s1 = .ok s2 → C (enableOf s2.ir))
    (hon : On s.ir k) (hk : k < n) (h : secondPass d t n s = .ok s') : C (enableOf s'.ir) := by
  have hI := forUpto_inv (fun i s1 => Moves (graphOf t) (enableOf s.ir) (enableOf s1.ir) ∧
      (k < i → C (enableOf s1.ir)))
    ⟨.refl, fun h => absurd h (Nat.not_lt_zero k)⟩ ?_ h
  · exact hI.2 hk
  · rintro i s1 s2 _ ⟨hm, hC⟩ hb
    have hmv := secondStep_moves hb
    refine ⟨hm.trans hmv, fun hki => ?_⟩
    rcases Nat.lt_succ_iff_lt_or_eq.1 hki with hlt | rfl
    · exact hmono hmv (hC hlt)
    · exact hturn s1 s2 hm (hm.on hon) hb

/-! ## Marks for a table -/

def irWith (t : List ArgNode) (f : Int → Int) : List Ir := (ids t).map fun i => ⟨f i, 0, ""⟩

theorem length_irWith (f : Int → Int) : (irWith t f).length = t.length := by
  simp [irWith, ids]

theorem enableOf_irWith {f : Int → Int} {i : Int} (hi : InTable t i) :
    enableOf (irWith t f) i = some (f i) := by
  obtain ⟨h0, h1⟩ := hi
  obtain ⟨k, rfl⟩ : ∃ k : Nat, i = k := ⟨i.toNat, by omega⟩
  have hk : k < t.length := by omega
  rw [enableOf, at?_natCast]
  simp [irWith, ids, hk]

theorem irWith_eq_some {f : Int → Int} {i v : Int} (h : enableOf (irWith t f) i = some v) :
    InTable t i ∧ f i = v := by
  have hi : InTable t i := by
    have := range_of_enableOf h
    rwa [length_irWith] at this
  rw [enableOf_irWith hi] at h
  exact ⟨hi, Option.some.inj h⟩

theorem marks_irWith {f : Int → Int} (hf : ∀ i, f i = 0 ∨ f i = 1 ∨ f i = 2) :
    ∀ cell ∈ irWith t f, cell.enable = 0 ∨ cell.enable = 1 ∨ cell.enable = 2 := by
  intro cell hc
  obtain ⟨i, -, rfl⟩ := List.mem_map.1 hc
  exact hf i

/-! ## The sweep -/

/-- The sweep ends, without two conflicting nodes on and without a pruned node on. -/
def SweepKeepsApart (d : Draws) (t : List ArgNode) (s : Run) : Prop :=
  ∃ s', secondPass d t t.length s = .ok s' ∧ KeepsApart (graphOf t) (enableOf s.ir) (enableOf s'.ir)

/-! ### Turn by turn -/

/-- The child that `enable_dependant` picks for `p` with the `pos`-th draw. -/
def pickOf (d : Draws) (t : List ArgNode) (pos : Nat) (p : Int) : Option Int :=
  at? ((graphOf t).child p) (d.randNum pos 0 ((graphOf t).child p).length)

/-- At the turn of `k`, a dependency is turned on only with no conflict on, and a child is picked
only when it is not pruned and no conflict of it is on. -/
structure SafeTurn (d : Draws) (t : List ArgNode) (k : Int) (s : Run) : Prop where
  dep : ∀ e p, DepTurns (graphOf t) k (enableOf s.ir) e p → Unopposed (graphOf t) e p
  child : ∀ ir, enableDependency t (s.ir.length + 1) s.ir k = .ok ir →
    ∀ e c, ChildTurns (graphOf t) (pickOf d t) s.pos k (enableOf ir) e c →
      e c ≠ some 2 ∧ Unopposed (graphOf t) e c

variable {e0 : Marks Int}

theorem enableDependency_keepsApart (hc : LeafConflicts (graphOf t)) :
    ∀ {fuel : Nat} {ir ir' : List Ir} {id : Int}, enableDependency t fuel ir id = .ok ir' →
      Moves (graphOf t) e0 (enableOf ir) → KeepsApart (graphOf t) e0 (enableOf ir) →
      (KeepsApart (graphOf t) e0 (enableOf ir') ↔
        ∀ e p, DepTurns (graphOf t) id (enableOf ir) e p → Unopposed (graphOf t) e p)
  | 0, _, _, _, h, _, _ => by cases h
  | fuel + 1, ir, ir', id, h, hm, hK => by
    have hs : ∀ a b, b ∈ (graphOf t).mutex a ↔ a ∈ (graphOf t).mutex b :=
      fun a b => ⟨hc.symm a b, hc.symm b a⟩
    rcases enableDependency_turn h with ⟨rfl, hnone⟩ | ⟨p, ir1, hon, hp, hset, h⟩
    · refine iff_of_true hK fun e p hturn => ?_
      cases hturn with
      | first hon hp => rw [hnone hon] at hp; cases hp
      | later hon hp _ => rw [hnone hon] at hp; cases hp
    · have hmiss := (firstMissing_some hp).1
      have he1 := enableOf_setEnable hset
      have hupdate := keepsApart_update (p := p) hs hm hK
      rw [← he1] at hupdate
      rw [depTurns_forall hon hp, ← he1]
      by_cases hun : Unopposed (graphOf t) (enableOf ir) p
      · have hm1 : Moves (graphOf t) e0 (enableOf ir1) := by
          rw [he1]
          exact hm.tail (.inl (.mk hon hmiss.1 hmiss.2))
        have hK1 := hupdate.2 ⟨by rw [hmiss.2]; decide, hun⟩
        rw [enableDependency_keepsApart hc h hm1 hK1]
        exact ⟨fun h => ⟨hun, h⟩, And.right⟩
      · refine iff_of_false (fun hK' => hun ?_) fun h => hun h.1
        exact (hupdate.1 (hK'.of_moves (enableDependency_run h).moves)).2

theorem enableDependant_turn {fuel : Nat} {s s' : Run} {id : Int}
    (h : enableDependant d t (fuel + 1) s id = .ok s') :
    (s' = s ∧ (MustPick (graphOf t) (enableOf s.ir) id → pickOf d t s.pos id = none)) ∨
    ∃ c ir1, MustPick (graphOf t) (enableOf s.ir) id ∧ pickOf d t s.pos id = some c ∧
      setEnable s.ir c 1 = .ok ir1 ∧ enableDependant d t fuel ⟨ir1, s.pos + 1⟩ c = .ok s' := by
  obtain ⟨node, hn, h⟩ := bind_eq_ok.1 h
  obtain ⟨cell, hc, h⟩ := bind_eq_ok.1 h
  rw [rd_eq_ok] at hn hc
  unfold MustPick pickOf
  rw [graphOf_child hn, graphOf_mustChild hn]
  split at h
  · rename_i hcond
    have hon : On s.ir id := enableOf_eq_some.2 ⟨cell, hc, hcond.1⟩
    obtain ⟨r, hr, h⟩ := bind_eq_ok.1 h
    split at h
    · rename_i c
      cases h
      obtain ⟨hm, h1⟩ := firstWith_some hr
      exact .inl ⟨rfl, fun hp => absurd h1 (hp.2.2 c hm)⟩
    · obtain ⟨c, hk, h⟩ := bind_eq_ok.1 h
      obtain ⟨ir1, h1, h⟩ := bind_eq_ok.1 h
      refine .inr ⟨c, ir1, ⟨hon, hcond.2.2, fun c' hc' h1' => ?_⟩, rd_eq_ok.1 hk, h1, h⟩
      obtain ⟨w, hw, hne⟩ := firstWith_none hr c' hc'
      rw [hw] at h1'
      exact hne (Option.some.inj h1')
  · rename_i hcond
    cases h
    refine .inl ⟨rfl, fun hp => ?_⟩
    obtain ⟨cell', hc', h1⟩ := enableOf_eq_some.1 hp.1
    rw [hc] at hc'
    cases hc'
    have hnil : node.childId = [] := by
      by_contra hne
      exact hcond ⟨h1, hne, hp.2.1⟩
    rw [hnil]
    unfold at?
    split <;> rfl

theorem enableDependant_keepsApart (hc : LeafConflicts (graphOf t)) :
    ∀ {fuel : Nat} {s s' : Run} {id : Int}, enableDependant d t fuel s id = .ok s' →
      Moves (graphOf t) e0 (enableOf s.ir) → KeepsApart (graphOf t) e0 (enableOf s.ir) →
      (KeepsApart (graphOf t) e0 (enableOf s'.ir) ↔
        ∀ e c, ChildTurns (graphOf t) (pickOf d t) s.pos id (enableOf s.ir) e c →
          e c ≠ some 2 ∧ Unopposed (graphOf t) e c)
  | 0, _, _, _, h, _, _ => by cases h
  | fuel + 1, s, s', id, h, hm, hK => by
    have hs : ∀ a b, b ∈ (graphOf t).mutex a ↔ a ∈ (graphOf t).mutex b :=
      fun a b => ⟨hc.symm a b, hc.symm b a⟩
    rcases enableDependant_turn h with ⟨rfl, hnone⟩ | ⟨c, ir1, hp, hpick, hset, h⟩
    · refine iff_of_true hK fun e c hturn => ?_
      cases hturn with
      | first hp hpick => rw [hnone hp] at hpick; cases hpick
      | later hp hpick _ => rw [hnone hp] at hpick; cases hpick
    · have he1 := enableOf_setEnable hset
      have hupdate := keepsApart_update (p := c) hs hm hK
      rw [← he1] at hupdate
      rw [childTurns_forall hp hpick, ← he1]
      by_cases hsafe : enableOf s.ir c ≠ some 2 ∧ Unopposed (graphOf t) (enableOf s.ir) c
      · have hmem : c ∈ (graphOf t).child id := mem_of_at? hpick
        have hm1 : Moves (graphOf t) e0 (enableOf ir1) := by
          rw [he1]
          exact hm.tail (.inr (.mk hp.1 hp.2.1 hmem hp.2.2))
        have hlater := enableDependant_keepsApart hc h hm1 (hupdate.2 hsafe)
        rw [hlater]
        exact ⟨fun h => ⟨hsafe, h⟩, And.right⟩
      · refine iff_of_false (fun hK' => hsafe ?_) fun h => hsafe h.1
        exact hupdate.1 (hK'.of_moves (enableDependant_run h).moves)

/-- A turn keeps conflicts apart exactly when it is safe. -/
theorem secondStep_keepsApart (hc : LeafConflicts (graphOf t)) {k : Nat} {s s' : Run}
    (hm : Moves (graphOf t) e0 (enableOf s.ir)) (hK : KeepsApart (graphOf t) e0 (enableOf s.ir))
    (h : secondStep d t k s = .ok s') :
    KeepsApart (graphOf t) e0 (enableOf s'.ir) ↔ SafeTurn d t k s := by
  obtain ⟨ir, h1, h2⟩ := bind_eq_ok.1 h
  have hdep := enableDependency_keepsApart hc h1 hm hK
  have hmv := (enableDependant_run h2).moves
  have hm1 := hm.trans (enableDependency_run h1).moves
  constructor
  · intro hK'
    have hK1 : KeepsApart (graphOf t) e0 (enableOf ir) := hK'.of_moves hmv
    refine ⟨hdep.1 hK1, fun ir1 hir1 => ?_⟩
    rw [h1] at hir1
    cases hir1
    exact (enableDependant_keepsApart hc h2 hm1 hK1).1 hK'
  · rintro ⟨hsafe, hchild⟩
    exact (enableDependant_keepsApart hc h2 hm1 (hdep.2 hsafe)).2 (hchild ir h1)

/-- A sweep keeps conflicts apart exactly when all its turns are safe. -/
theorem secondPass_safeTurns (hc : LeafConflicts (graphOf t)) {s : Run}
    (hx : Exclusive (graphOf t) (enableOf s.ir)) : ∀ {n : Nat} {s' : Run},
    secondPass d t n s = .ok s' →
      (KeepsApart (graphOf t) (enableOf s.ir) (enableOf s'.ir) ↔
        ∀ k s1, k < n → secondPass d t k s = .ok s1 → SafeTurn d t k s1)
  | 0, s', h => by
    cases h
    refine iff_of_true (.of_pruned hx fun _ h => h) fun k s1 hk => absurd hk (Nat.not_lt_zero k)
  | n + 1, s', h => by
    obtain ⟨s1, h1, h2⟩ := bind_eq_ok.1 h
    have ih := secondPass_safeTurns hc hx h1
    have hsplit : (∀ k s2, k < n + 1 → secondPass d t k s = .ok s2 → SafeTurn d t k s2) ↔
        (∀ k s2, k < n → secondPass d t k s = .ok s2 → SafeTurn d t k s2) ∧
          SafeTurn d t n s1 := by
      refine ⟨fun h => ⟨fun k s2 hk => h k s2 (by omega), h n s1 (by omega) h1⟩, ?_⟩
      rintro ⟨hbefore, hlast⟩ k s2 hk hs2
      rcases Nat.lt_succ_iff_lt_or_eq.1 hk with hlt | rfl
      · exact hbefore k s2 hlt hs2
      · have h1' : secondPass d t k s = .ok s1 := h1
        rw [hs2] at h1'
        cases h1'
        exact hlast
    rw [hsplit, ← ih]
    by_cases hK : KeepsApart (graphOf t) (enableOf s.ir) (enableOf s1.ir)
    · rw [secondStep_keepsApart hc (secondPass_moves h1) hK h2]
      exact ⟨fun h => ⟨hK, h⟩, And.right⟩
    · exact iff_of_false (fun hK' => hK (hK'.of_moves (secondStep_moves h2))) fun h => hK h.1

/-! ### From every start -/

/-- A sweep over every exclusive start keeps conflicts apart. -/
def AlwaysKeepsApart (t : List ArgNode) : Prop :=
  ∀ s : Run, s.ir.length = t.length →
    (∀ cell ∈ s.ir, cell.enable = 0 ∨ cell.enable = 1 ∨ cell.enable = 2) →
    Exclusive (graphOf t) (enableOf s.ir) → ∀ d, SweepKeepsApart d t s

theorem mem_child_inTable (ht : LinksOK t) {p c : Int} (hc : c ∈ (graphOf t).child p) :
    InTable t c := by
  obtain ⟨node, hn⟩ := at?_of_inTable (inTable_of_mem_child hc) rfl
  rw [graphOf_child hn] at hc
  exact ht.child node (mem_of_at? hn) c hc

theorem mem_dep_inTable (ht : LinksOK t) {j a : Int} (ha : a ∈ (graphOf t).dep j) :
    InTable t a := by
  obtain ⟨node, hn⟩ := at?_of_inTable (inTable_of_mem_dep ha) rfl
  rw [graphOf_dep hn] at ha
  exact ht.dep node (mem_of_at? hn) a ha

/-- An option that has to pick a child picks a pruned one where all are. -/
theorem unforced_child (ht : LinksOK t) (hc : LeafConflicts (graphOf t))
    (h : AlwaysKeepsApart t) (p : Int) (hm : (graphOf t).mustChild p = true)
    (hne : (graphOf t).child p ≠ []) : p ∈ (graphOf t).child p := by
  obtain ⟨c0, hc0⟩ := List.exists_mem_of_ne_nil _ hne
  have hp : InTable t p := inTable_of_mem_child hc0
  obtain ⟨k, rfl⟩ : ∃ k : Nat, p = k := ⟨p.toNat, by have := hp.1; omega⟩
  let f : Int → Int := fun i => if i = k then 1 else 2
  have honly : ∀ i, On (irWith t f) i → i = k := by
    intro i hi
    by_contra hik
    have hfi := (irWith_eq_some hi).2
    simp only [f, if_neg hik] at hfi
    omega
  have hon : On (irWith t f) k := by
    rw [On, enableOf_irWith hp]
    simp [f]
  have hx : Exclusive (graphOf t) (enableOf (irWith t f)) := by
    rintro a b hab ⟨ha, -⟩
    rw [honly a ha] at hab
    exact hne (hc.leaf k b hab)
  obtain ⟨s', hs, hK⟩ := h ⟨irWith t f, 0⟩ (length_irWith f)
    (marks_irWith fun i => by simp only [f]; split <;> simp) hx .least
  have hcl : ChildClosedAt (graphOf t) (enableOf s'.ir) k :=
    secondPass_visited (C := fun e => ChildClosedAt (graphOf t) e k)
      (fun hm hC => hm.childClosedAt hC)
      (fun s1 s2 _ hon1 hb => by
        obtain ⟨e, hdep, hchild⟩ := secondStep_runs hb
        exact hchild.closed.1 (hdep.moves.on hon1))
      hon (by have := hp.2; omega) hs
  obtain ⟨c, hc, hcon⟩ := hcl hm hne
  by_contra hself
  have hck : c ≠ k := by
    rintro rfl
    exact hself hc
  refine hK.pruned c ?_ hcon
  rw [enableOf_irWith (mem_child_inTable ht hc)]
  simp [f, hck]

/-- `a` is off, `j` and `b` are on, and everything else is pruned. -/
def besideMarks (a j b i : Int) : Int := if i = a then 0 else if i = j ∨ i = b then 1 else 2

theorem besideMarks_range (a j b i : Int) :
    besideMarks a j b i = 0 ∨ besideMarks a j b i = 1 ∨ besideMarks a j b i = 2 := by
  unfold besideMarks
  split
  · exact .inl rfl
  · split <;> simp

theorem besideMarks_eq_zero {a j b i : Int} : besideMarks a j b i = 0 ↔ i = a := by
  unfold besideMarks
  split
  · simpa
  · split <;> simpa

theorem besideMarks_eq_one {a j b i : Int} :
    besideMarks a j b i = 1 ↔ i ≠ a ∧ (i = j ∨ i = b) := by
  unfold besideMarks
  split
  · simp_all
  · split <;> simp_all

theorem exclusive_beside (hc : LeafConflicts (graphOf t)) {a j b : Int}
    (hjj : j ∉ (graphOf t).mutex j)
    (hapart : b ≠ a → b ∉ (graphOf t).mutex j ∧ b ∉ (graphOf t).mutex b) :
    Exclusive (graphOf t) (enableOf (irWith t (besideMarks a j b))) := by
  rintro x y hxy ⟨hx, hy⟩
  obtain ⟨hxa, hx⟩ := besideMarks_eq_one.1 (irWith_eq_some hx).2
  obtain ⟨hya, hy⟩ := besideMarks_eq_one.1 (irWith_eq_some hy).2
  rcases hx with rfl | rfl
  · rcases hy with rfl | rfl
    · exact hjj hxy
    · exact (hapart hya).1 hxy
  · rcases hy with rfl | rfl
    · exact (hapart hxa).1 (hc.symm x _ hxy)
    · exact (hapart hxa).2 hxy

theorem secondPass_beside {a b : Int} {k : Nat} {s' : Run} (ht : LinksOK t)
    (ha : a ∈ (graphOf t).dep k) (hka : (k : Int) ≠ a)
    (h : secondPass d t t.length ⟨irWith t (besideMarks a k b), 0⟩ = .ok s') : On s'.ir a := by
  have hk : InTable t k := inTable_of_mem_dep ha
  have hon : On (irWith t (besideMarks a k b)) k := by
    rw [On, enableOf_irWith hk]
    exact congrArg some (besideMarks_eq_one.2 ⟨hka, .inl rfl⟩)
  have hoff : ∀ i, enableOf (irWith t (besideMarks a k b)) i = some 0 → i = a := fun i hi =>
    besideMarks_eq_zero.1 (irWith_eq_some hi).2
  have hne : enableOf s'.ir a ≠ some 0 :=
    secondPass_visited (C := fun e => e a ≠ some 0) (fun hm hC h0 => hC (hm.off h0))
      (fun s1 s2 hm hon1 hb h0 => by
        obtain ⟨e, hdep, hchild⟩ := secondStep_runs hb
        exact hdep.only_off hon1 ha (fun p hp => hoff p (hm.off hp)) (hchild.moves.off h0))
      hon (by have := hk.2; omega) h
  rcases (secondPass_moves h).same_or_on a with hsame | hon
  · rw [hsame] at hne
    refine absurd ?_ hne
    rw [enableOf_irWith (mem_dep_inTable ht ha)]
    exact congrArg some (besideMarks_eq_zero.2 rfl)
  · exact hon

/-- A dependency that is off is turned on beside its conflict. -/
theorem unforced_dep (ht : LinksOK t) (hc : LeafConflicts (graphOf t)) (h : AlwaysKeepsApart t)
    (a b j : Int) (hab : b ∈ (graphOf t).mutex a) (ha : a ∈ (graphOf t).dep j) (hja : j ≠ a)
    (hjj : j ∉ (graphOf t).mutex j) :
    b ≠ a ∧ (b ∈ (graphOf t).mutex j ∨ b ∈ (graphOf t).mutex b) := by
  by_contra hcon
  have hapart : b ≠ a → b ∉ (graphOf t).mutex j ∧ b ∉ (graphOf t).mutex b := fun hne =>
    ⟨fun hbj => hcon ⟨hne, .inl hbj⟩, fun hbb => hcon ⟨hne, .inr hbb⟩⟩
  have hj : InTable t j := inTable_of_mem_dep ha
  have hb : InTable t b := inTable_of_mem_mutex (hc.symm a b hab)
  obtain ⟨k, rfl⟩ : ∃ k : Nat, j = k := ⟨j.toNat, by have := hj.1; omega⟩
  obtain ⟨s', hs, hK⟩ := h ⟨irWith t (besideMarks a k b), 0⟩ (length_irWith _)
    (marks_irWith (besideMarks_range a k b)) (exclusive_beside hc hjj hapart) .least
  have haon : On s'.ir a := secondPass_beside ht ha hja hs
  have hbon : On s'.ir b := by
    by_cases hba : b = a
    · rw [hba]
      exact haon
    · refine (secondPass_moves hs).on ?_
      rw [enableOf_irWith hb]
      exact congrArg some (besideMarks_eq_one.2 ⟨hba, .inr rfl⟩)
  exact hK.exclusive a b hab ⟨haon, hbon⟩

end

/-- **When the second iteration preserves mutual exclusion.** On a table with symmetric
conflicts between leaves a sweep from an exclusive start does so exactly when all its
turns are safe. It does so from every exclusive start exactly when the table is
`Unforced`; and it does so from a given start when conflicts share their parents and
every pruned child has a sibling that is on. -/
theorem secondPass_keepsApart (t : List ArgNode) (ht : LinksOK t)
    (hc : LeafConflicts (graphOf t)) :
    (∀ d (s : Run), s.ir.length = t.length → Exclusive (graphOf t) (enableOf s.ir) →
      (SweepKeepsApart d t s ↔
        ∀ k s1, k < t.length → secondPass d t k s = .ok s1 → SafeTurn d t k s1)) ∧
    (AlwaysKeepsApart t ↔ Unforced (graphOf t)) ∧
    (SharedParents (graphOf t) → ∀ s : Run, s.ir.length = t.length →
      Exclusive (graphOf t) (enableOf s.ir) → PrunedHasSibling (graphOf t) (enableOf s.ir) →
      ∀ d, SweepKeepsApart d t s) := by
  refine ⟨fun d s hl hx => ?_, ⟨fun h => ⟨unforced_child ht hc h, unforced_dep ht hc h⟩, ?_⟩, ?_⟩
  · obtain ⟨s', hs, -⟩ := secondPass_total (d := d) ht hl
    refine Iff.trans ⟨?_, fun hK => ⟨s', hs, hK⟩⟩ (secondPass_safeTurns hc hx hs)
    rintro ⟨s2, hs2, hK⟩
    rw [hs] at hs2
    cases hs2
    exact hK
  · intro hG s hl _ hx d
    obtain ⟨s', hs, -⟩ := secondPass_total (d := d) ht hl
    exact ⟨s', hs, hG.moves hc hx (secondPass_moves hs)⟩
  · intro hG s hl hx hp d
    obtain ⟨s', hs, -⟩ := secondPass_total (d := d) ht hl
    exact ⟨s', hs, hG.moves hc hx hp (secondPass_moves hs)⟩

theorem leafConflicts_of_ids {t : List ArgNode}
    (h : ∀ a ∈ ids t, ∀ b ∈ (graphOf t).mutex a,
      a ∈ (graphOf t).mutex b ∧ (graphOf t).child a = []) : LeafConflicts (graphOf t) :=
  ⟨fun a b hb => (h a (mem_ids.2 (inTable_of_mem_mutex hb)) b hb).1,
    fun a b hb => (h a (mem_ids.2 (inTable_of_mem_mutex hb)) b hb).2⟩

theorem prunedHasSibling_of_ids {t : List ArgNode} {ir : List Ir}
    (h : ∀ p ∈ ids t, (graphOf t).mustChild p = true → ∀ c ∈ (graphOf t).child p,
      enableOf ir c = some 2 → ∃ c' ∈ (graphOf t).child p, enableOf ir c' = some 1) :
    PrunedHasSibling (graphOf t) (enableOf ir) :=
  fun p c hm hc => h p (mem_ids.2 (inTable_of_mem_child hc)) hm c hc

/-- The child of `-J` that was pruned stays off beside the one that is on. -/
theorem journal_keepsApart :
    SweepKeepsApart .least journalTable ⟨[⟨1, 0, ""⟩, ⟨2, 0, ""⟩, ⟨1, 0, ""⟩], 0⟩ := by
  have hc : ∀ a ∈ ids journalTable, ∀ b ∈ (graphOf journalTable).mutex a,
      a ∈ (graphOf journalTable).mutex b ∧ (graphOf journalTable).child a = [] ∧ a ≠ b ∧
      (∀ j ∈ ids journalTable, a ∉ (graphOf journalTable).dep j) ∧
      ∀ p ∈ ids journalTable, a ∈ (graphOf journalTable).child p →
        b ∈ (graphOf journalTable).child p := by decide
  have hin : ∀ a b, b ∈ (graphOf journalTable).mutex a → a ∈ ids journalTable :=
    fun a b hb => mem_ids.2 (inTable_of_mem_mutex hb)
  have hG : SharedParents (graphOf journalTable) := by
    refine ⟨fun a ha => ?_, fun a b j hb hj => ?_, fun a b p hb _ ha => ?_⟩
    · exact (hc a (hin a a ha) a ha).2.2.1 rfl
    · exact (hc a (hin a b hb) b hb).2.2.2.1 j (mem_ids.2 (inTable_of_mem_dep hj)) hj
    · exact (hc a (hin a b hb) b hb).2.2.2.2 p (mem_ids.2 (inTable_of_mem_child ha)) ha
  have hx : ∀ a ∈ ids journalTable, ∀ b ∈ (graphOf journalTable).mutex a,
      ¬ (On [⟨1, 0, ""⟩, ⟨2, 0, ""⟩, ⟨1, 0, ""⟩] a ∧
        On [⟨1, 0, ""⟩, ⟨2, 0, ""⟩, ⟨1, 0, ""⟩] b) := by
    decide
  exact (secondPass_keepsApart journalTable ⟨by decide, by decide⟩
    (leafConflicts_of_ids fun a ha b hb => ⟨(hc a ha b hb).1, (hc a ha b hb).2.1⟩)).2.2 hG
    ⟨[⟨1, 0, ""⟩, ⟨2, 0, ""⟩, ⟨1, 0, ""⟩], 0⟩ rfl (fun a b hb => hx a (hin a b hb) b hb)
    (prunedHasSibling_of_ids (by decide)) .least

/-- `-p` must have its only child `-a`, and `-a` conflicts with `-b`. -/
def crossTable : List ArgNode :=
  [{ plainNode "-p" with mustChild := true, childId := [1] },
   { plainNode "-a" with mutex := some [2], dependencyId := [0] },
   { plainNode "-b" with mutex := some [1] }]

/-- With all three chosen, the first iteration can prune `-a` and keep `-b`; the second one
turns `-a` on again. -/
theorem cross_not_keepsApart : LeafConflicts (graphOf crossTable) ∧ LinksOK crossTable ∧
    forUpto 3 (firstStep .greatest crossTable) ⟨[⟨1, 0, ""⟩, ⟨1, 0, ""⟩, ⟨1, 0, ""⟩], 0⟩ =
      .ok ⟨[⟨1, 0, ""⟩, ⟨2, 0, ""⟩, ⟨1, 0, ""⟩], 3⟩ ∧
    (∀ a ∈ ids crossTable, ∀ b ∈ (graphOf crossTable).mutex a,
      ¬ (On [⟨1, 0, ""⟩, ⟨2, 0, ""⟩, ⟨1, 0, ""⟩] a ∧ On [⟨1, 0, ""⟩, ⟨2, 0, ""⟩, ⟨1, 0, ""⟩] b)) ∧
    ¬ SweepKeepsApart .greatest crossTable ⟨[⟨1, 0, ""⟩, ⟨2, 0, ""⟩, ⟨1, 0, ""⟩], 3⟩ := by
  refine ⟨leafConflicts_of_ids (by decide), ⟨by decide, by decide⟩, rfl, by decide, ?_⟩
  rintro ⟨s', h, hK⟩
  cases h
  exact hK.exclusive 1 2 (by decide) ⟨rfl, rfl⟩

end ConFuzz
