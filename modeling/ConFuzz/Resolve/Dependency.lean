import ConFuzz.Config.Chain
import ConFuzz.Resolve.Total

/-!
# What one call of `enable_dependency` reaches

The loop over the dependencies returns after the first one it has turned on, so
a call follows a chain of missing dependencies (`enableDependency_chain`) and
leaves the others of every list as they are. It turns on all that is missing
exactly when what is missing is one chain.
-/

namespace ConFuzz

open ConFuzz.CLib ConFuzz.Config

section

variable {t : List ArgNode}

theorem firstWith_eq {ir : List Ir} {v : Int} {r : Option Int} : ∀ {l : List Int},
    firstWith ir v l = .ok r → r = l.find? fun m => enableOf ir m = some v
  | [], h => by
    cases h
    rfl
  | a :: l, h => by
    obtain ⟨cell, hc, h⟩ := bind_eq_ok.1 h
    rw [rd_eq_ok] at hc
    have he : enableOf ir a = some cell.enable := enableOf_eq_some.2 ⟨cell, hc, rfl⟩
    split at h
    · rename_i hv
      cases h
      rw [List.find?_cons_of_pos (by simp [he, hv])]
    · rename_i hv
      rw [List.find?_cons_of_neg (by simp [he, hv])]
      exact firstWith_eq h

theorem enableDependency_turn {fuel : Nat} {ir ir' : List Ir} {id : Int}
    (h : enableDependency t (fuel + 1) ir id = .ok ir') :
    (ir' = ir ∧ (On ir id → firstMissing (graphOf t) (enableOf ir) [] id = none)) ∨
    ∃ p ir1, On ir id ∧ firstMissing (graphOf t) (enableOf ir) [] id = some p ∧
      setEnable ir p 1 = .ok ir1 ∧ enableDependency t fuel ir1 p = .ok ir' := by
  obtain ⟨node, hn, h⟩ := bind_eq_ok.1 h
  obtain ⟨cell, hc, h⟩ := bind_eq_ok.1 h
  rw [rd_eq_ok] at hn hc
  have hfirst : ∀ r, firstWith ir 0 node.dependencyId = .ok r →
      firstMissing (graphOf t) (enableOf ir) [] id = r := by
    intro r hr
    rw [firstWith_eq hr, ← firstMissing_turnOn, graphOf_dep hn, turnOn_nil]
  split at h
  · rename_i hcond
    obtain ⟨r, hr, h⟩ := bind_eq_ok.1 h
    split at h
    · rename_i p
      obtain ⟨ir1, hset, h⟩ := bind_eq_ok.1 h
      exact .inr ⟨p, ir1, enableOf_eq_some.2 ⟨cell, hc, hcond.1⟩, hfirst _ hr, hset, h⟩
    · cases h
      exact .inl ⟨rfl, fun _ => hfirst _ hr⟩
  · rename_i hcond
    cases h
    refine .inl ⟨rfl, fun hon => ?_⟩
    have h1 : cell.enable = 1 := by simpa [On, enableOf, hc] using hon
    have hnil : node.dependencyId = [] := by
      by_contra hne
      exact hcond ⟨h1, hne⟩
    rw [firstMissing, graphOf_dep hn, hnil]
    rfl

/-- A call on a node that is on turns on the full chain of missing dependencies. -/
theorem enableDependency_chain {e : Marks Int} : ∀ {fuel : Nat} {ir ir' : List Ir} {id : Int}
    {seen : List Int}, enableDependency t fuel ir id = .ok ir' → On ir id →
    enableOf ir = turnOn e seen →
    ∃ l, FullChain (graphOf t) e seen id l ∧ enableOf ir' = turnOn e (l.reverse ++ seen)
  | 0, _, _, _, _, h, _, _ => by cases h
  | fuel + 1, ir, ir', id, seen, h, hon, he => by
    have hseen : firstMissing (graphOf t) (enableOf ir) [] id =
        firstMissing (graphOf t) e seen id := by
      rw [← firstMissing_turnOn, turnOn_nil, he, firstMissing_turnOn]
    rcases enableDependency_turn h with ⟨rfl, hnone⟩ | ⟨p, ir1, -, hp, hset, h⟩
    · exact ⟨[], hseen.symm.trans (hnone hon), he⟩
    · have he1 : enableOf ir1 = turnOn e (p :: seen) := by
        rw [enableOf_setEnable hset, he, update_turnOn]
      have hpon : On ir1 p := by
        rw [On, he1, turnOn, if_pos List.mem_cons_self]
      obtain ⟨l, hl, hl'⟩ := enableDependency_chain h hpon he1
      refine ⟨p :: l, ⟨hseen.symm.trans hp, hl⟩, ?_⟩
      rw [hl', List.reverse_cons, List.append_assoc]
      rfl

end

/-- A call of `enable_dependency` on `id` ends, it and every node that it turned on has its
dependencies on, and nothing but transitive dependencies of `id` has changed. -/
def EnablesAll (t : List ArgNode) (ir : List Ir) (id : Int) : Prop :=
  ∃ ir', enableDependency t (ir.length + 1) ir id = .ok ir' ∧
    (∀ p ∈ (graphOf t).dep id, On ir' p) ∧
    (∀ j, enableOf ir j = some 0 → On ir' j → ∀ p ∈ (graphOf t).dep j, On ir' p) ∧
    ∀ m, ¬ Relation.TransGen (fun j p => p ∈ (graphOf t).dep j) id m →
      enableOf ir' m = enableOf ir m

/-- **When `enable_dependency` enables every missing dependency**: exactly when the missing
ones are a chain, each the first of its list that is off and not met yet. -/
theorem enableDependency_enablesAll (t : List ArgNode)
    (ht : ∀ node ∈ t, ∀ m ∈ node.dependencyId, InTable t m) (ir : List Ir)
    (hl : ir.length = t.length) (h01 : ∀ cell ∈ ir, cell.enable = 0 ∨ cell.enable = 1)
    (id : Int) (hon : On ir id) :
    EnablesAll t ir id ↔ ∃ l, FirstChain (graphOf t) (enableOf ir) [] id l ∧
      ∀ m, Missing (graphOf t) (enableOf ir) id m → m ∈ l := by
  have hin : InTable t id := by
    have := range_of_enableOf hon
    unfold InTable
    omega
  obtain ⟨ir', hrun, hl'⟩ := enableDependency_total ht hl hin
    (Nat.lt_succ_of_le (offCount_le ir))
  obtain ⟨l, hfull, he⟩ := enableDependency_chain hrun hon (turnOn_nil _).symm
  have hmarks : enableOf ir' = turnOn (enableOf ir) l := by
    rw [he]
    funext i
    simp [turnOn]
  have hdep : ∀ i p, p ∈ (graphOf t).dep i → enableOf ir p = some 0 ∨ enableOf ir p = some 1 := by
    intro i p hp
    obtain ⟨node, hn⟩ := at?_of_inTable (inTable_of_mem_dep hp) rfl
    rw [graphOf_dep hn] at hp
    obtain ⟨cell, hc⟩ := at?_of_inTable (ht node (mem_of_at? hn) p hp) hl
    rcases h01 cell (mem_of_at? hc) with h | h
    · exact .inl (enableOf_eq_some.2 ⟨cell, hc, h⟩)
    · exact .inr (enableOf_eq_some.2 ⟨cell, hc, h⟩)
  have hframe : ∀ m, ¬ Relation.TransGen (fun j p => p ∈ (graphOf t).dep j) id m →
      enableOf ir' m = enableOf ir m := by
    intro m hm
    rw [hmarks, turnOn, if_neg fun hml => hm ?_]
    exact Relation.TransGen.mono (fun _ _ h => h.1) _ _ (hfull.chain.missing m hml)
  rw [← hfull.complete_iff hdep]
  constructor
  · rintro ⟨ir'', h, hd, hnew, -⟩
    rw [hrun] at h
    cases h
    simp only [On, hmarks] at hd hnew
    exact ⟨hd, hnew⟩
  · rintro ⟨hd, hnew⟩
    refine ⟨ir', hrun, ?_, ?_, hframe⟩
    · simp only [On, hmarks]
      exact hd
    · simp only [On, hmarks]
      exact hnew

/-- `-a` needs `-b` and `-c`, and `-b` needs `-c`. -/
def needsTable : List ArgNode :=
  [{ plainNode "-a" with dependencyId := [1, 2] }, { plainNode "-b" with dependencyId := [2] },
   plainNode "-c"]

/-- From `-a` the chain goes over `-b` to `-c`. -/
theorem needs_enablesAll : EnablesAll needsTable [⟨1, 0, ""⟩, ⟨0, 0, ""⟩, ⟨0, 0, ""⟩] 0 := by
  refine (enableDependency_enablesAll needsTable (by decide)
    [⟨1, 0, ""⟩, ⟨0, 0, ""⟩, ⟨0, 0, ""⟩] rfl (by decide) 0 rfl).2
    ⟨[1, 2], ⟨rfl, rfl, trivial⟩, fun m hm => ?_⟩
  have hoff : enableOf [⟨1, 0, ""⟩, ⟨0, 0, ""⟩, ⟨0, 0, ""⟩] m = some 0 := by
    cases hm with
    | single h => exact h.2
    | tail _ h => exact h.2
  obtain ⟨h0, h1⟩ := range_of_enableOf hoff
  have hne : m ≠ 0 := by
    rintro rfl
    cases hoff
  simp only [List.length_cons, List.length_nil] at h1
  simp only [List.mem_cons, List.not_mem_nil, or_false]
  omega

/-- `-a` needs `-b` and `-c`. -/
def twoNeedsTable : List ArgNode :=
  [{ plainNode "-a" with dependencyId := [1, 2] }, plainNode "-b", plainNode "-c"]

/-- Of two missing dependencies the second stays off. -/
theorem twoNeeds_not_enablesAll :
    ¬ EnablesAll twoNeedsTable [⟨1, 0, ""⟩, ⟨0, 0, ""⟩, ⟨0, 0, ""⟩] 0 := by
  rintro ⟨ir', h, hd, -⟩
  cases h
  exact absurd (hd 2 (by decide)) (by decide)

end ConFuzz
