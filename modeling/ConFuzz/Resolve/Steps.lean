import ConFuzz.Config.Prune
import ConFuzz.Config.Runs
import ConFuzz.Model.Resolve

/-!
# What a step of the resolver can do

`graphOf` is the option graph of a table. Each function of the second iteration
has one inversion lemma (`enableDependency_cases`, `enableDependant_cases`), and
the recursions are those of the graph (`enableDependency_run`,
`enableDependant_run`). With at most one conflict per node a turn of the first
iteration is a `PruneMove` (`firstStep_move`).
-/

namespace ConFuzz

open ConFuzz.CLib ConFuzz.Config

def graphOf (argArray : List ArgNode) : OptGraph Int where
  mutex i := ((at? argArray i).bind (·.mutex)).getD []
  mustHave i := ((at? argArray i).map (·.mustHave)).getD false
  dep i := ((at? argArray i).map (·.dependencyId)).getD []
  mustChild i := ((at? argArray i).map (·.mustChild)).getD false
  child i := ((at? argArray i).map (·.childId)).getD []

section

variable {d : Draws} {t : List ArgNode} {node : ArgNode} {i : Int}

theorem graphOf_mutex (h : at? t i = some node) :
    (graphOf t).mutex i = node.mutex.getD [] := by simp [graphOf, h]

theorem graphOf_mustHave (h : at? t i = some node) :
    (graphOf t).mustHave i = node.mustHave := by simp [graphOf, h]

theorem graphOf_dep (h : at? t i = some node) :
    (graphOf t).dep i = node.dependencyId := by simp [graphOf, h]

theorem graphOf_mustChild (h : at? t i = some node) :
    (graphOf t).mustChild i = node.mustChild := by simp [graphOf, h]

theorem graphOf_child (h : at? t i = some node) :
    (graphOf t).child i = node.childId := by simp [graphOf, h]

def InTable (t : List ArgNode) (m : Int) : Prop := 0 ≤ m ∧ m < t.length

instance (t : List ArgNode) (m : Int) : Decidable (InTable t m) :=
  inferInstanceAs (Decidable (_ ∧ _))

def ids (t : List ArgNode) : List Int := (List.range t.length).map Int.ofNat

theorem mem_ids {m : Int} : m ∈ ids t ↔ InTable t m := by
  simp only [ids, List.mem_map, List.mem_range, InTable]
  constructor
  · rintro ⟨k, hk, rfl⟩
    exact ⟨Int.natCast_nonneg k, Int.ofNat_lt.2 hk⟩
  · rintro ⟨h0, h1⟩
    exact ⟨m.toNat, by omega, Int.toNat_of_nonneg h0⟩

theorem inTable_of_mem_mutex {a b : Int} (h : b ∈ (graphOf t).mutex a) : InTable t a := by
  cases hn : at? t a with
  | none => simp [graphOf, hn] at h
  | some node => exact range_of_at? hn

theorem inTable_of_mem_dep {j p : Int} (h : p ∈ (graphOf t).dep j) : InTable t j := by
  cases hn : at? t j with
  | none => simp [graphOf, hn] at h
  | some node => exact range_of_at? hn

theorem inTable_of_mem_child {p c : Int} (h : c ∈ (graphOf t).child p) : InTable t p := by
  cases hn : at? t p with
  | none => simp [graphOf, hn] at h
  | some node => exact range_of_at? hn

theorem dep_eq_nil {j : Int} (h : ¬ InTable t j) : (graphOf t).dep j = [] :=
  List.eq_nil_iff_forall_not_mem.2 fun _ hp => h (inTable_of_mem_dep hp)

theorem mutex_eq_nil {a : Int} (h : ¬ InTable t a) : (graphOf t).mutex a = [] :=
  List.eq_nil_iff_forall_not_mem.2 fun _ hb => h (inTable_of_mem_mutex hb)

theorem mutex_le_one_iff : (∀ a, ((graphOf t).mutex a).length ≤ 1) ↔
    ∀ a ∈ ids t, ((graphOf t).mutex a).length ≤ 1 := by
  refine ⟨fun h a _ => h a, fun h a => ?_⟩
  by_cases ha : InTable t a
  · exact h a (mem_ids.2 ha)
  · rw [mutex_eq_nil ha]; exact Nat.zero_le 1

theorem mutex_symm_iff : (∀ a b, b ∈ (graphOf t).mutex a → a ∈ (graphOf t).mutex b) ↔
    ∀ a ∈ ids t, ∀ b ∈ (graphOf t).mutex a, a ∈ (graphOf t).mutex b :=
  ⟨fun h a _ b => h a b, fun h a b hb => h a (mem_ids.2 (inTable_of_mem_mutex hb)) b hb⟩

theorem inTable_of_mustHave {m : Int} (h : (graphOf t).mustHave m = true) : InTable t m := by
  cases hn : at? t m with
  | none => simp [graphOf, hn] at h
  | some node => exact range_of_at? hn

/-! ## Second iteration -/

theorem firstWith_some {ir : List Ir} {v m : Int} : ∀ {l : List Int},
    firstWith ir v l = .ok (some m) → m ∈ l ∧ enableOf ir m = some v
  | [], h => by cases h
  | a :: l, h => by
    obtain ⟨cell, hc, h⟩ := bind_eq_ok.1 h
    rw [rd_eq_ok] at hc
    split at h
    · rename_i hv
      cases h
      exact ⟨List.mem_cons_self, enableOf_eq_some.2 ⟨cell, hc, hv⟩⟩
    · obtain ⟨hm, he⟩ := firstWith_some h
      exact ⟨List.mem_cons_of_mem _ hm, he⟩

theorem firstWith_none {ir : List Ir} {v : Int} : ∀ {l : List Int},
    firstWith ir v l = .ok none → ∀ m ∈ l, ∃ w, enableOf ir m = some w ∧ w ≠ v
  | [], _, m, hm => by cases hm
  | a :: l, h, m, hm => by
    obtain ⟨cell, hc, h⟩ := bind_eq_ok.1 h
    rw [rd_eq_ok] at hc
    split at h
    · cases h
    · rename_i hv
      rcases List.mem_cons.1 hm with rfl | hm
      · exact ⟨cell.enable, enableOf_eq_some.2 ⟨cell, hc, rfl⟩, hv⟩
      · exact firstWith_none h m hm

theorem enableDependency_cases {fuel : Nat} {ir ir' : List Ir} {id : Int}
    (h : enableDependency t (fuel + 1) ir id = .ok ir') :
    (ir' = ir ∧ (On ir id → ∀ p ∈ (graphOf t).dep id, ∃ w, enableOf ir p = some w ∧ w ≠ 0)) ∨
    ∃ p ir1, On ir id ∧ p ∈ (graphOf t).dep id ∧ enableOf ir p = some 0 ∧
      setEnable ir p 1 = .ok ir1 ∧ enableDependency t fuel ir1 p = .ok ir' := by
  obtain ⟨node, hn, h⟩ := bind_eq_ok.1 h
  obtain ⟨cell, hc, h⟩ := bind_eq_ok.1 h
  rw [rd_eq_ok] at hn hc
  rw [graphOf_dep hn]
  split at h
  · rename_i hcond
    obtain ⟨r, hr, h⟩ := bind_eq_ok.1 h
    split at h
    · rename_i p
      obtain ⟨ir1, h1, h⟩ := bind_eq_ok.1 h
      obtain ⟨hm, h0⟩ := firstWith_some hr
      exact .inr ⟨p, ir1, enableOf_eq_some.2 ⟨cell, hc, hcond.1⟩, hm, h0, h1, h⟩
    · cases h
      exact .inl ⟨rfl, fun _ => firstWith_none hr⟩
  · rename_i hcond
    cases h
    refine .inl ⟨rfl, fun hon p hp => ?_⟩
    obtain ⟨cell', hc', h1⟩ := enableOf_eq_some.1 hon
    rw [hc] at hc'
    cases hc'
    exact absurd ⟨h1, List.ne_nil_of_mem hp⟩ hcond

theorem enableDependant_cases {fuel : Nat} {s s' : Run} {id : Int}
    (h : enableDependant d t (fuel + 1) s id = .ok s') :
    (s' = s ∧ (On s.ir id → ChildClosedAt (graphOf t) (enableOf s.ir) id)) ∨
    ∃ c ir1, On s.ir id ∧ (graphOf t).mustChild id = true ∧ c ∈ (graphOf t).child id ∧
      (∀ c' ∈ (graphOf t).child id, enableOf s.ir c' ≠ some 1) ∧ setEnable s.ir c 1 = .ok ir1 ∧
      enableDependant d t fuel ⟨ir1, s.pos + 1⟩ c = .ok s' := by
  obtain ⟨node, hn, h⟩ := bind_eq_ok.1 h
  obtain ⟨cell, hc, h⟩ := bind_eq_ok.1 h
  rw [rd_eq_ok] at hn hc
  rw [graphOf_child hn, graphOf_mustChild hn]
  split at h
  · rename_i hcond
    obtain ⟨r, hr, h⟩ := bind_eq_ok.1 h
    split at h
    · rename_i c
      cases h
      obtain ⟨hm, h1⟩ := firstWith_some hr
      refine .inl ⟨rfl, fun _ _ _ => ⟨c, ?_, h1⟩⟩
      rwa [graphOf_child hn]
    · obtain ⟨c, hk, h⟩ := bind_eq_ok.1 h
      obtain ⟨ir1, h1, h⟩ := bind_eq_ok.1 h
      rw [rd_eq_ok] at hk
      refine .inr ⟨c, ir1, enableOf_eq_some.2 ⟨cell, hc, hcond.1⟩, hcond.2.2, mem_of_at? hk,
        fun c' hc' h1' => ?_, h1, h⟩
      obtain ⟨w, hw, hne⟩ := firstWith_none hr c' hc'
      rw [hw] at h1'
      exact hne (Option.some.inj h1')
  · rename_i hcond
    cases h
    refine .inl ⟨rfl, fun hon hmc hne => ?_⟩
    obtain ⟨cell', hc', h1⟩ := enableOf_eq_some.1 hon
    rw [hc] at hc'
    cases hc'
    rw [graphOf_child hn] at hne
    rw [graphOf_mustChild hn] at hmc
    exact absurd ⟨h1, hne, hmc⟩ hcond

/-- `enable_dependency` is the dependency recursion of the option graph. -/
theorem enableDependency_run : ∀ {fuel : Nat} {ir ir' : List Ir} {id : Int},
    enableDependency t fuel ir id = .ok ir' → DepRun (graphOf t) id (enableOf ir) (enableOf ir')
  | 0, _, _, _, h => by cases h
  | fuel + 1, ir, ir', id, h => by
    rcases enableDependency_cases h with ⟨rfl, hstop⟩ | ⟨p, ir1, hon, hp, h0, h1, h⟩
    · exact .stop hstop
    · refine .step hon hp h0 ?_
      rw [← enableOf_setEnable h1]
      exact enableDependency_run h

/-- `enable_dependant` is the child recursion of the option graph. -/
theorem enableDependant_run : ∀ {fuel : Nat} {s s' : Run} {id : Int},
    enableDependant d t fuel s id = .ok s' →
    ChildRun (graphOf t) id (enableOf s.ir) (enableOf s'.ir)
  | 0, _, _, _, h => by cases h
  | fuel + 1, s, s', id, h => by
    rcases enableDependant_cases h with ⟨rfl, hstop⟩ | ⟨c, ir1, hon, hm, hc, hno, h1, h⟩
    · exact .stop hstop
    · refine .step hon hm hc hno ?_
      rw [← enableOf_setEnable h1]
      exact enableDependant_run h

/-- A turn of the second iteration is the two recursions from one node. -/
theorem secondStep_runs {j : Nat} {s s' : Run} (h : secondStep d t j s = .ok s') :
    ∃ e, DepRun (graphOf t) j (enableOf s.ir) e ∧ ChildRun (graphOf t) j e (enableOf s'.ir) := by
  obtain ⟨ir1, h1, h2⟩ := bind_eq_ok.1 h
  exact ⟨enableOf ir1, enableDependency_run h1, enableDependant_run h2⟩

theorem secondStep_moves {j : Nat} {s s' : Run} (h : secondStep d t j s = .ok s') :
    Moves (graphOf t) (enableOf s.ir) (enableOf s'.ir) := by
  obtain ⟨e, h1, h2⟩ := secondStep_runs h
  exact h1.moves.trans h2.moves

/-- **The second iteration is a run of moves.** -/
theorem secondPass_moves {n : Nat} {s s' : Run} (h : secondPass d t n s = .ok s') :
    Moves (graphOf t) (enableOf s.ir) (enableOf s'.ir) :=
  forUpto_inv (fun _ s1 => Moves (graphOf t) (enableOf s.ir) (enableOf s1.ir)) .refl
    (fun _ _ _ _ hI hb => hI.trans (secondStep_moves hb)) h

theorem secondPass_settled {n : Nat} {s s' : Run}
    (hon : ∀ i, On s.ir i → DepDoneAt (graphOf t) (enableOf s.ir) i ∧
      ChildClosedAt (graphOf t) (enableOf s.ir) i)
    (h : secondPass d t n s = .ok s') : enableOf s'.ir = enableOf s.ir := by
  refine forUpto_inv (fun _ s1 => enableOf s1.ir = enableOf s.ir) rfl ?_ h
  intro k s1 s2 _ hI hb
  obtain ⟨e, hdep, hchild⟩ := secondStep_runs hb
  rw [hI] at hdep
  have he : e = enableOf s.ir := hdep.eq_of_done fun hk => (hon k hk).1
  rw [he] at hchild
  exact hchild.eq_of_closed fun hk => (hon k hk).2

/-! ## First iteration -/

theorem countOn_none {ir : List Ir} {tmp n : Nat} : ∀ {l : List Int},
    (∀ m ∈ l, ¬ On ir m) → countOn ir l tmp = .ok n → n = tmp
  | [], _, h => by cases h; rfl
  | m :: l, hno, h => by
    obtain ⟨cell, hc, h⟩ := bind_eq_ok.1 h
    rw [rd_eq_ok] at hc
    have hm : cell.enable ≠ 1 := fun he =>
      hno m List.mem_cons_self (enableOf_eq_some.2 ⟨cell, hc, he⟩)
    rw [if_neg hm] at h
    exact countOn_none (fun m' hm' => hno m' (List.mem_cons_of_mem _ hm')) h

theorem collectOn_none {ir : List Ir} {mutex mutex' : List (Option Int)} :
    ∀ {l : List Int} {j : Nat},
    (∀ m ∈ l, ¬ On ir m) → collectOn ir l j mutex = .ok mutex' → mutex' = mutex
  | [], _, _, h => by cases h; rfl
  | m :: l, j, hno, h => by
    obtain ⟨cell, hc, h⟩ := bind_eq_ok.1 h
    rw [rd_eq_ok] at hc
    have hm : cell.enable ≠ 1 := fun he =>
      hno m List.mem_cons_self (enableOf_eq_some.2 ⟨cell, hc, he⟩)
    rw [if_neg hm] at h
    exact collectOn_none (fun m' hm' => hno m' (List.mem_cons_of_mem _ hm')) h

theorem randNum_one (d : Draws) (k : Nat) : d.randNum k 0 1 = 0 := by
  have := d.randNum_mem k 0 1 (by omega)
  omega

theorem pruneMutex_none {l : List Int} {s s' : Run} (hon : On s.ir i)
    (hno : ∀ m ∈ l, ¬ On s.ir m) (h : pruneMutex d l i s = .ok s') : s'.ir = s.ir := by
  obtain ⟨tmp, ht, h⟩ := bind_eq_ok.1 h
  obtain ⟨m0, h0, h⟩ := bind_eq_ok.1 h
  obtain ⟨m1, h1, h⟩ := bind_eq_ok.1 h
  obtain ⟨ir, h2, h⟩ := bind_eq_ok.1 h
  cases h
  have e1 : tmp = 1 := countOn_none hno ht
  subst e1
  have e2 : m0 = [some i] := by cases h0; rfl
  have e3 : m1 = m0 := collectOn_none hno h1
  subst e3 e2
  rw [randNum_one] at h2
  obtain ⟨ir0, h3, h4⟩ := bind_eq_ok.1 h2
  cases h3
  obtain ⟨cell, hc, hir⟩ := setEnable_eq_ok.1 (show setEnable s.ir i 1 = .ok ir from h4)
  obtain ⟨cell', hc', hv⟩ := enableOf_eq_some.1 hon
  rw [hc] at hc'
  cases hc'
  rw [hir, ← hv]
  exact put_self hc

theorem pruneMutex_pair {b : Int} {s s' : Run} (hb : On s.ir b)
    (h : pruneMutex d [b] i s = .ok s') :
    (d.randNum s.pos 0 2 = 0 ∧
      enableOf s'.ir = Function.update (Function.update (enableOf s.ir) i (some 1)) b (some 2)) ∨
    (d.randNum s.pos 0 2 = 1 ∧
      enableOf s'.ir =
        Function.update (Function.update (enableOf s.ir) i (some 2)) b (some 1)) := by
  obtain ⟨cell, hc, hv⟩ := enableOf_eq_some.1 hb
  obtain ⟨tmp, ht, h⟩ := bind_eq_ok.1 h
  obtain ⟨m0, h0, h⟩ := bind_eq_ok.1 h
  obtain ⟨m1, h1, h⟩ := bind_eq_ok.1 h
  obtain ⟨ir, h2, h⟩ := bind_eq_ok.1 h
  cases h
  have e1 : tmp = 2 := by
    simp only [countOn, rd_eq_ok.2 hc, hv, ok_bind] at ht
    cases ht; rfl
  subst e1
  have e2 : m0 = [some i, none] := by cases h0; rfl
  subst e2
  have e3 : m1 = [some i, some b] := by
    simp only [collectOn, rd_eq_ok.2 hc, hv, ok_bind, ↓reduceIte] at h1
    cases h1; rfl
  subst e3
  obtain ⟨ir1, h3, h4⟩ := bind_eq_ok.1 h2
  obtain ⟨ir0, h5, h6⟩ := bind_eq_ok.1 h3
  cases h5
  have hk := d.randNum_mem s.pos 0 2 (by omega)
  -- the survivor is position 0 (the node itself) or position 1 (its conflict)
  obtain hk | hk : d.randNum s.pos 0 2 = 0 ∨ d.randNum s.pos 0 2 = 1 := by omega
  · rw [hk] at h4 h6
    refine .inl ⟨hk, ?_⟩
    rw [enableOf_setEnable (show setEnable ir1 b 2 = .ok ir from h4),
      enableOf_setEnable (show setEnable s.ir i 1 = .ok ir1 from h6)]
  · rw [hk] at h4 h6
    refine .inr ⟨hk, ?_⟩
    rw [enableOf_setEnable (show setEnable ir1 b 1 = .ok ir from h4),
      enableOf_setEnable (show setEnable s.ir i 2 = .ok ir1 from h6)]

theorem firstStep_cases {j : Nat} {s s' : Run} (h : firstStep d t j s = .ok s') :
    (enableOf s.ir j = some 0 ∧ (graphOf t).mustHave j = true ∧
      enableOf s'.ir = Function.update (enableOf s.ir) j (some 1)) ∨
    (s' = s ∧ (enableOf s.ir j = some 0 → (graphOf t).mustHave j = false) ∧
      (On s.ir j → (graphOf t).mutex j = [])) ∨
    (On s.ir j ∧ pruneMutex d ((graphOf t).mutex j) j s = .ok s') := by
  obtain ⟨cell, hc, h⟩ := bind_eq_ok.1 h
  rw [rd_eq_ok] at hc
  have he : enableOf s.ir j = some cell.enable := enableOf_eq_some.2 ⟨cell, hc, rfl⟩
  split at h
  · rename_i h0
    obtain ⟨node, hn, h⟩ := bind_eq_ok.1 h
    rw [rd_eq_ok] at hn
    rw [h0] at he
    split at h
    · rename_i hm
      obtain ⟨ir, h1, h⟩ := bind_eq_ok.1 h
      cases h
      exact .inl ⟨he, by rw [graphOf_mustHave hn]; exact hm, enableOf_setEnable h1⟩
    · rename_i hm
      cases h
      refine .inr (.inl ⟨rfl, fun _ => ?_, fun hon => ?_⟩)
      · rw [graphOf_mustHave hn]; simpa using hm
      · rw [On, he] at hon; cases hon
  · rename_i h1
    obtain ⟨node, hn, h⟩ := bind_eq_ok.1 h
    rw [rd_eq_ok] at hn
    rw [h1] at he
    split at h
    · rename_i l hl
      exact .inr (.inr ⟨he, by rw [graphOf_mutex hn, hl]; exact h⟩)
    · rename_i hl
      cases h
      refine .inr (.inl ⟨rfl, fun h0 => ?_, fun _ => ?_⟩)
      · rw [he] at h0; cases h0
      · rw [graphOf_mutex hn, hl]; rfl
  · rename_i h0 h1
    cases h
    refine .inr (.inl ⟨rfl, fun h => ?_, fun h => ?_⟩)
    · rw [he] at h; exact absurd (Option.some.inj h) h0
    · rw [On, he] at h; exact absurd (Option.some.inj h) h1

/-- With at most one conflict a turn of the first iteration is a `PruneMove`. -/
theorem firstStep_move {j : Nat} {s s' : Run} (hle : ((graphOf t).mutex j).length ≤ 1)
    (h : firstStep d t j s = .ok s') :
    PruneMove (graphOf t) (j : Int) (enableOf s.ir) (enableOf s'.ir) := by
  rcases firstStep_cases h with ⟨h0, hm, he⟩ | ⟨rfl, hm, hx⟩ | ⟨hon, hp⟩
  · rw [he]; exact .must h0 hm
  · exact .keep hm fun hon b hb => by rw [hx hon] at hb; cases hb
  · by_cases hno : ∀ m ∈ (graphOf t).mutex j, ¬ On s.ir m
    · rw [pruneMutex_none hon hno hp]
      exact .keep (fun h0 => by rw [hon] at h0; cases h0) fun _ b hb => hno b hb
    · push Not at hno
      obtain ⟨b, hb, hbon⟩ := hno
      have hl : (graphOf t).mutex j = [b] := eq_singleton_of_mem hle hb
      rw [hl] at hp
      rcases pruneMutex_pair hbon hp with ⟨-, he⟩ | ⟨-, he⟩
      · rw [he]; exact .pruneOther hl hon hbon
      · rw [he]; exact .pruneSelf hl hon hbon

theorem firstStep_pair {j : Nat} {b : Int} {s s' : Run} (hl : (graphOf t).mutex j = [b])
    (hj : On s.ir j) (hb : On s.ir b) (h : firstStep d t j s = .ok s') :
    (d.randNum s.pos 0 2 = 0 ∧
      enableOf s'.ir = Function.update (Function.update (enableOf s.ir) j (some 1)) b (some 2)) ∨
    (d.randNum s.pos 0 2 = 1 ∧
      enableOf s'.ir =
        Function.update (Function.update (enableOf s.ir) j (some 2)) b (some 1)) := by
  rcases firstStep_cases h with ⟨h0, -, -⟩ | ⟨-, -, hx⟩ | ⟨-, hp⟩
  · rw [On, h0] at hj; cases hj
  · rw [hx hj] at hl; cases hl
  · rw [hl] at hp
    exact pruneMutex_pair hb hp

end

end ConFuzz
