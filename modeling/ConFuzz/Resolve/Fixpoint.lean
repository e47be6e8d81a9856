import ConFuzz.Config.Late
import ConFuzz.Resolve.Closure

/-!
# A second sweep

A second sweep finds nothing to do when the first one has left every node that is
on with no dependency off and with the child it must have. Nodes ahead of the sweep
are seen to at their turn; a node that a turn turns on behind itself has to have
what it needs by then (`LateSettled`).
-/

namespace ConFuzz

open ConFuzz.CLib ConFuzz.Config

section

variable {d : Draws} {t : List ArgNode}

theorem secondStep_off {k : Nat} {s s' : Run} (hk : ¬ On s.ir k)
    (h : secondStep d t k s = .ok s') : enableOf s'.ir = enableOf s.ir := by
  obtain ⟨e, hdep, hchild⟩ := secondStep_runs h
  have he : e = enableOf s.ir := hdep.eq_of_done fun hon => absurd hon hk
  rw [he] at hchild
  exact hchild.eq_of_closed fun hon => absurd hon hk

/-- What one turn of the sweep closes. -/
theorem secondStep_closes (hle : ∀ j, ((graphOf t).dep j).length ≤ 1) {k : Nat} {s s' : Run}
    (hmark : ∀ j p, p ∈ (graphOf t).dep j → ∃ w, enableOf s.ir p = some w)
    (hlate : On s.ir k → LateSettled (graphOf t) (enableOf s.ir) k)
    (h : secondStep d t k s = .ok s') :
    (On s'.ir k → DepDoneAt (graphOf t) (enableOf s'.ir) k ∧
      ChildClosedAt (graphOf t) (enableOf s'.ir) k) ∧
    ∀ i, On s'.ir i → On s.ir i ∨ (DepDoneAt (graphOf t) (enableOf s'.ir) i ∧
      ChildClosedAt (graphOf t) (enableOf s'.ir) i) ∨ (k : Int) < i := by
  by_cases hk : On s.ir k
  · obtain ⟨e, hdep, hchild⟩ := secondStep_runs h
    have hturn := (hlate hk).turn hle hk hmark hdep hchild
    refine ⟨fun _ => ⟨?_, ?_⟩, fun i hi => ?_⟩
    · exact hchild.moves.depDoneAt ((hdep.done hle).1 hk)
    · exact hchild.closed.1 (hdep.moves.on hk)
    · rcases Int.lt_trichotomy i k with hlt | rfl | hgt
      · exact (hturn i hlt hi).imp id .inl
      · exact .inl hk
      · exact .inr (.inr hgt)
  · have he := secondStep_off hk h
    refine ⟨fun hon => ?_, fun i hi => .inl ?_⟩
    · rw [On, he] at hon
      exact absurd hon hk
    · rw [On, he] at hi
      exact hi

end

/-- A sweep ends, and a second one with any draws ends and changes no `enable` field. -/
def SweepSettles (d : Draws) (t : List ArgNode) (s : Run) : Prop :=
  ∃ s', secondPass d t t.length s = .ok s' ∧ ∀ d' pos, ∃ s'',
    secondPass d' t t.length ⟨s'.ir, pos⟩ = .ok s'' ∧ enableOf s''.ir = enableOf s'.ir

/-- **One sweep is a fixpoint** when every turn of it at a node that is on is settled. -/
theorem secondPass_settles (d : Draws) (t : List ArgNode) (ht : LinksOK t)
    (hle : ∀ j, ((graphOf t).dep j).length ≤ 1) (s : Run) (hl : s.ir.length = t.length)
    (hlate : ∀ k s1, k < t.length → secondPass d t k s = .ok s1 → On s1.ir k →
      LateSettled (graphOf t) (enableOf s1.ir) k) : SweepSettles d t s := by
  obtain ⟨s', hs, hl'⟩ := secondPass_total (d := d) ht hl
  have hmark : ∀ e, Moves (graphOf t) (enableOf s.ir) e → ∀ j p, p ∈ (graphOf t).dep j →
      ∃ w, e p = some w := by
    intro e hm j p hp
    obtain ⟨node, hn⟩ := at?_of_inTable (inTable_of_mem_dep hp) rfl
    rw [graphOf_dep hn] at hp
    obtain ⟨h0, h1⟩ := ht.dep node (mem_of_at? hn) p hp
    obtain ⟨w, hw⟩ := enableOf_of_range h0 (show p < s.ir.length by omega)
    rcases hm.same_or_on p with h | h
    · exact ⟨w, h.trans hw⟩
    · exact ⟨1, h⟩
  have hclosed := secondPass_closes (d := d) (t := t)
    (C := fun e i => DepDoneAt (graphOf t) e i ∧ ChildClosedAt (graphOf t) e i)
    (fun hm hc => ⟨hm.depDoneAt hc.1, hm.childClosedAt hc.2⟩)
    (fun k s1 s2 hk hs1 hb =>
      secondStep_closes hle (hmark _ (secondPass_moves hs1)) (hlate k s1 hk hs1) hb) hs
  refine ⟨s', hs, fun d' pos => ?_⟩
  obtain ⟨s'', hs'', -⟩ := secondPass_total (d := d') (s := ⟨s'.ir, pos⟩) ht hl'
  refine ⟨s'', hs'', secondPass_settled (s := ⟨s'.ir, pos⟩) (fun i hi => ?_) hs''⟩
  rcases hclosed i hi with h | h
  · exact h
  · have := (range_of_enableOf hi).2
    simp only at this
    omega

/-- The children of `-J` depend on `-J` alone. -/
theorem journal_settles :
    SweepSettles .least journalTable ⟨[⟨0, 0, ""⟩, ⟨2, 0, ""⟩, ⟨1, 0, ""⟩], 0⟩ := by
  have hdep : ∀ j ∈ ids journalTable, ∀ p ∈ (graphOf journalTable).dep j,
      (graphOf journalTable).mustChild p = true → (graphOf journalTable).child p ≠ [] →
      j ∈ (graphOf journalTable).child p := by decide
  have hchild : ∀ p ∈ ids journalTable, ∀ c ∈ (graphOf journalTable).child p,
      ∀ q ∈ (graphOf journalTable).dep c, q = p := by decide
  have hle : ∀ j ∈ ids journalTable, ((graphOf journalTable).dep j).length ≤ 1 := by decide
  refine secondPass_settles .least journalTable ⟨by decide, by decide⟩ (fun j => ?_)
    ⟨[⟨0, 0, ""⟩, ⟨2, 0, ""⟩, ⟨1, 0, ""⟩], 0⟩ rfl (fun k s1 _ _ hk => ?_)
  · by_cases hj : InTable journalTable j
    · exact hle j (mem_ids.2 hj)
    · rw [dep_eq_nil hj]
      exact Nat.zero_le 1
  · exact .of_links (fun j p hp => hdep j (mem_ids.2 (inTable_of_mem_dep hp)) p hp)
      (fun p c _ hc => hchild p (mem_ids.2 (inTable_of_mem_child hc)) c hc) hk

/-- `-c` needs `-p`, and `-p` must have the child `-a`. -/
def lateTable : List ArgNode :=
  [{ plainNode "-p" with mustChild := true, childId := [1] }, plainNode "-a",
   { plainNode "-c" with dependencyId := [0] }]

/-- The turn of `-c` turns on `-p` behind itself; only the next sweep gives `-p` its child. -/
theorem late_not_settles : (∀ node ∈ lateTable, node.dependencyId.length ≤ 1) ∧
    ¬ SweepSettles .least lateTable ⟨[⟨0, 0, ""⟩, ⟨0, 0, ""⟩, ⟨1, 0, ""⟩], 0⟩ := by
  refine ⟨by decide, ?_⟩
  rintro ⟨s', h, hrest⟩
  cases h
  obtain ⟨s'', h, he⟩ := hrest .least 0
  cases h
  have h1 := congrFun he 1
  revert h1
  decide

end ConFuzz
