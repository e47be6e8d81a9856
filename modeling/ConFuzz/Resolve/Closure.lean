import ConFuzz.Resolve.Total

/-!
# One sweep is enough

The second iteration visits every node once, while its recursions turn nodes on
behind and ahead of it. The invariant of the sweep at `k` is that a node which
is on and not yet closed has an id of at least `k`: a recursion closes what it
turns on, so only nodes that were on before and wait for their turn are open.
-/

namespace ConFuzz

open ConFuzz.CLib ConFuzz.Config

section

variable {d : Draws} {t : List ArgNode}

/-- A sweep that closes its node, closes what it turns on behind it and never opens a closed
node closes the table. `C e i` says that `i` is closed under the marks `e`. -/
theorem secondPass_closes {C : Marks Int → Int → Prop} {n : Nat} {s s' : Run}
    (hmono : ∀ {e e' : Marks Int} {i : Int}, Moves (graphOf t) e e' → C e i → C e' i)
    (hstep : ∀ (k : Nat) (s1 s2 : Run), k < n → secondPass d t k s = .ok s1 →
      secondStep d t k s1 = .ok s2 →
      (On s2.ir k → C (enableOf s2.ir) k) ∧
        ∀ i, On s2.ir i → On s1.ir i ∨ C (enableOf s2.ir) i ∨ (k : Int) < i)
    (h : secondPass d t n s = .ok s') :
    ∀ i, On s'.ir i → C (enableOf s'.ir) i ∨ (n : Int) ≤ i := by
  have hI := forUpto_inv (fun k s1 => secondPass d t k s = .ok s1 ∧
      ∀ i, On s1.ir i → C (enableOf s1.ir) i ∨ (k : Int) ≤ i)
    ⟨rfl, fun i hi => .inr (range_of_enableOf hi).1⟩ ?_ h
  · exact hI.2
  · rintro k s1 s2 hkn ⟨hs, hI⟩ hb
    have hmv := secondStep_moves hb
    obtain ⟨hk, hnew⟩ := hstep k s1 s2 hkn hs hb
    refine ⟨bind_eq_ok.2 ⟨s1, hs, hb⟩, fun i hi => ?_⟩
    by_cases hik : i = k
    · subst hik; exact .inl (hk hi)
    · rcases hnew i hi with hold | hc | hlt
      · rcases hI i hold with hc | hle
        · exact .inl (hmono hmv hc)
        · exact .inr (by omega)
      · exact .inl hc
      · exact .inr (by omega)

/-! ## Dependencies -/

/-- Single dependencies that follow the children, and conflicts that nothing depends on. -/
structure SingleDeps (G : OptGraph Int) : Prop where
  dep_le_one : ∀ j, (G.dep j).length ≤ 1
  child_dep : ∀ p c, c ∈ G.child p → G.dep c = [p]
  mutex_le_one : ∀ a, (G.mutex a).length ≤ 1
  mutex_not_dep : ∀ a b j, b ∈ G.mutex a → a ∉ G.dep j ∧ b ∉ G.dep j

theorem singleDeps_iff : SingleDeps (graphOf t) ↔
    (∀ j ∈ ids t, ((graphOf t).dep j).length ≤ 1) ∧
    (∀ p ∈ ids t, ∀ c ∈ (graphOf t).child p, (graphOf t).dep c = [p]) ∧
    (∀ a ∈ ids t, ((graphOf t).mutex a).length ≤ 1) ∧
    ∀ a ∈ ids t, ∀ b ∈ (graphOf t).mutex a, ∀ j ∈ ids t,
      a ∉ (graphOf t).dep j ∧ b ∉ (graphOf t).dep j := by
  constructor
  · intro h
    exact ⟨fun j _ => h.dep_le_one j, fun p _ c => h.child_dep p c, fun a _ => h.mutex_le_one a,
      fun a _ b hb j _ => h.mutex_not_dep a b j hb⟩
  · rintro ⟨hd, hc, hm, hn⟩
    refine ⟨fun j => ?_, fun p c h => hc p (mem_ids.2 (inTable_of_mem_child h)) c h,
      mutex_le_one_iff.2 hm, fun a b j hab => ?_⟩
    · by_cases hj : InTable t j
      · exact hd j (mem_ids.2 hj)
      · rw [dep_eq_nil hj]; exact Nat.zero_le 1
    · by_cases hj : InTable t j
      · exact hn a (mem_ids.2 (inTable_of_mem_mutex hab)) b hab j (mem_ids.2 hj)
      · rw [dep_eq_nil hj]; exact ⟨List.not_mem_nil, List.not_mem_nil⟩

instance : Decidable (SingleDeps (graphOf t)) := decidable_of_iff _ singleDeps_iff.symm

theorem firstPass_noPrunedDep (hG : SingleDeps (graphOf t)) {n : Nat} {s s' : Run}
    (h0 : NoPrunedDep (graphOf t) (enableOf s.ir)) (h : forUpto n (firstStep d t) s = .ok s') :
    NoPrunedDep (graphOf t) (enableOf s'.ir) := by
  refine forUpto_inv (fun _ s => NoPrunedDep (graphOf t) (enableOf s.ir)) h0 ?_ h
  intro k s1 s2 _ hI hb j p hp
  have hno : (graphOf t).mutex p = [] := by
    match hm : (graphOf t).mutex p with
    | [] => rfl
    | b :: l => exact absurd hp (hG.mutex_not_dep p b j (by rw [hm]; exact List.mem_cons_self)).1
  have hnot : ∀ a, p ∉ (graphOf t).mutex a := fun a ha => (hG.mutex_not_dep a p j ha).2 hp
  exact (firstStep_move (hG.mutex_le_one k) hb).zero_or_one hno hnot (hI j p hp)

theorem secondPass_depClosed (hG : SingleDeps (graphOf t)) {n : Nat} {s s' : Run}
    (hnp : NoPrunedDep (graphOf t) (enableOf s.ir)) (h : secondPass d t n s = .ok s') :
    ∀ i, On s'.ir i → DepClosedAt (graphOf t) (enableOf s'.ir) i ∨ (n : Int) ≤ i := by
  refine secondPass_closes (fun hm hc => hm.depClosedAt hc) ?_ h
  intro k s1 s2 _ hs hb
  obtain ⟨e, hdep, hchild⟩ := secondStep_runs hb
  obtain ⟨hk, hnew⟩ := hdep.closed hG.dep_le_one (hnp.moves (secondPass_moves hs))
  have hcnew := hchild.depClosed hG.child_dep
  have hall : ∀ i, On s2.ir i → On s1.ir i ∨ DepClosedAt (graphOf t) (enableOf s2.ir) i := by
    intro i hi
    rcases hcnew i hi with h | h
    · rcases hnew i h with h | h
      · exact .inl h
      · exact .inr (hchild.moves.depClosedAt h)
    · exact .inr h
  refine ⟨fun hon => ?_, fun i hi => (hall i hi).imp id .inl⟩
  rcases hall k hon with h | h
  · exact hchild.moves.depClosedAt (hk h)
  · exact h

/-- **Dependency closure of a level-0 run.** -/
theorem atEmission_depClosed (d : Draws) (t : List ArgNode) (hG : SingleDeps (graphOf t))
    (bitmap : List Nat) (ir : List Ir) (h0 : AllOff ir) :
    (∀ s, atEmission d t t.length bitmap 0 ir = .ok s →
      ∀ j, On s.ir j → ∀ p ∈ (graphOf t).dep j, On s.ir p) ∧
    (TableOK t → ir.length = t.length → t.length ≤ bitmap.length →
      ∃ s, atEmission d t t.length bitmap 0 ir = .ok s) := by
  constructor
  · intro s hs j hj p hp
    obtain ⟨s1, s2, h1, h2, h3⟩ := atEmission_cases hs
    have hnp : NoPrunedDep (graphOf t) (enableOf s1.ir) := by
      intro j p _ v hv
      rw [(select_marks h1).1 p] at hv
      split at hv
      · exact .inr (Option.some.inj hv).symm
      · exact .inl (h0.eq_zero hv)
    rcases secondPass_depClosed hG (firstPass_noPrunedDep hG hnp h2) h3 j hj with h | h
    · exact h p hp
    · have := inTable_of_mem_dep hp
      unfold InTable at this
      omega
  · intro ht hl hb
    obtain ⟨s, hs, _⟩ := atEmission_total (d := d) ht hG.mutex_le_one hl hb
    exact ⟨s, hs⟩

/-- A child of `-J` brings `-J` along. -/
theorem journal_depClosed : SingleDeps (graphOf journalTable) ∧
    ∃ s, atEmission .least journalTable 3 [1, 1, 2] 0 (zeroIr 3) = .ok s ∧
      (On s.ir 2 → On s.ir 0) := by
  have hG : SingleDeps (graphOf journalTable) := by decide
  obtain ⟨hx, ht⟩ := atEmission_depClosed .least journalTable hG [1, 1, 2] (zeroIr 3) (by decide)
  obtain ⟨s, hs⟩ := ht (by decide) rfl (by decide)
  exact ⟨hG, s, hs, fun h2 => hx s hs 2 h2 0 (by decide)⟩

/-! ## Children -/

/-- **Every node has the child it must have** after the second iteration, when a node
that must have a child has its dependants among its children. -/
theorem secondPass_childClosed (d : Draws) (t : List ArgNode)
    (hdc : ∀ j p, p ∈ (graphOf t).dep j → (graphOf t).mustChild p = true →
      (graphOf t).child p ≠ [] → j ∈ (graphOf t).child p) (s : Run) :
    (∀ s', secondPass d t t.length s = .ok s' →
      ∀ p, On s'.ir p → (graphOf t).mustChild p = true → (graphOf t).child p ≠ [] →
        ∃ c ∈ (graphOf t).child p, On s'.ir c) ∧
    (TableOK t → s.ir.length = t.length → ∃ s', secondPass d t t.length s = .ok s') := by
  constructor
  · intro s' hs p hp hm hne
    have hcl := secondPass_closes (d := d) (t := t) (C := ChildClosedAt (graphOf t))
      (fun hm hc => hm.childClosedAt hc) ?_ hs p hp
    · rcases hcl with h | h
      · exact h hm hne
      · obtain ⟨c, hc⟩ := List.exists_mem_of_ne_nil _ hne
        have := inTable_of_mem_child hc
        unfold InTable at this
        omega
    · intro k s1 s2 _ _ hb
      obtain ⟨e, hdep, hchild⟩ := secondStep_runs hb
      have hnew := hdep.childClosed hdc
      obtain ⟨hk, hcnew⟩ := hchild.closed
      have hall : ∀ i, On s2.ir i → On s1.ir i ∨ ChildClosedAt (graphOf t) (enableOf s2.ir) i := by
        intro i hi
        rcases hcnew i hi with h | h
        · rcases hnew i h with h | h
          · exact .inl h
          · exact .inr (hchild.moves.childClosedAt h)
        · exact .inr h
      refine ⟨fun hon => ?_, fun i hi => (hall i hi).imp id .inl⟩
      rcases hcnew k hon with h | h
      · exact hk h
      · exact h
  · intro ht hl
    obtain ⟨s', hs, _⟩ := secondPass_total (d := d) ht.links hl
    exact ⟨s', hs⟩

/-- `-J` gets a child, also where one of the two was pruned. -/
theorem journal_childClosed :
    ∃ s', secondPass .least journalTable 3 ⟨[⟨1, 0, ""⟩, ⟨2, 0, ""⟩, ⟨0, 0, ""⟩], 0⟩ = .ok s' ∧
      (On s'.ir 0 → ∃ c ∈ [1, 2], On s'.ir c) := by
  have hdc : ∀ j ∈ ids journalTable, ∀ p ∈ (graphOf journalTable).dep j,
      (graphOf journalTable).mustChild p = true → (graphOf journalTable).child p ≠ [] →
      j ∈ (graphOf journalTable).child p := by decide
  obtain ⟨hx, ht⟩ := secondPass_childClosed .least journalTable
    (fun j p hp => hdc j (mem_ids.2 (inTable_of_mem_dep hp)) p hp)
    ⟨[⟨1, 0, ""⟩, ⟨2, 0, ""⟩, ⟨0, 0, ""⟩], 0⟩
  obtain ⟨s', hs⟩ := ht (by decide) rfl
  exact ⟨s', hs, fun h0 => hx s' hs 0 h0 rfl (by decide)⟩

end

end ConFuzz
