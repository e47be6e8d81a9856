import ConFuzz.Resolve.Total

/-!
# Conflicting options are never on together

When conflicts come in pairs as in the shipped tables, the first iteration
leaves no pair with both members on (`firstPass_exclusive`), and the moves of the
second one keep it so.
-/

namespace ConFuzz

open ConFuzz.CLib ConFuzz.Config

section

variable {d : Draws} {t : List ArgNode}

theorem pairedConflicts_iff : PairedConflicts (graphOf t) ↔
    (∀ a ∈ ids t, ((graphOf t).mutex a).length ≤ 1) ∧
    ∀ a ∈ ids t, ∀ b ∈ (graphOf t).mutex a, a ∈ (graphOf t).mutex b ∧ a ≠ b ∧
      (graphOf t).mustHave a = false ∧ (∀ j ∈ ids t, a ∉ (graphOf t).dep j) ∧
      ∀ p ∈ ids t, (a ∈ (graphOf t).child p ↔ b ∈ (graphOf t).child p) := by
  constructor
  · intro h
    refine ⟨fun a _ => h.le_one a, fun a _ b hb => ⟨(h.symm a b).1 hb, ?_, h.not_mustHave a b hb,
      fun j _ => h.not_dep a b j hb, fun p _ => h.same_parents a b p hb⟩⟩
    rintro rfl
    exact h.irrefl a hb
  · rintro ⟨hle, h⟩
    have hin : ∀ a b, b ∈ (graphOf t).mutex a → a ∈ ids t :=
      fun a b hb => mem_ids.2 (inTable_of_mem_mutex hb)
    refine ⟨fun a b => ⟨fun hb => (h a (hin a b hb) b hb).1, fun ha => (h b (hin b a ha) a ha).1⟩,
      mutex_le_one_iff.2 hle, fun a ha => (h a (hin a a ha) a ha).2.1 rfl,
      fun a b hb => (h a (hin a b hb) b hb).2.2.1, fun a b j hb hj => ?_, fun a b p hb => ?_⟩
    · exact (h a (hin a b hb) b hb).2.2.2.1 j (mem_ids.2 (inTable_of_mem_dep hj)) hj
    · have hp := (h a (hin a b hb) b hb).2.2.2.2 p
      constructor
      · intro ha; exact (hp (mem_ids.2 (inTable_of_mem_child ha))).1 ha
      · intro hb'; exact (hp (mem_ids.2 (inTable_of_mem_child hb'))).2 hb'

instance : Decidable (PairedConflicts (graphOf t)) := decidable_of_iff _ pairedConflicts_iff.symm

/-- After the first iteration no two conflicting options are on. -/
theorem firstPass_exclusive (hG : PairedConflicts (graphOf t)) {s s' : Run}
    (h : forUpto t.length (firstStep d t) s = .ok s') :
    Exclusive (graphOf t) (enableOf s'.ir) := by
  -- two conflicting options that are both on have not been looked at yet
  have hI := forUpto_inv (fun k s => ∀ a b, b ∈ (graphOf t).mutex a →
      enableOf s.ir a = some 1 → enableOf s.ir b = some 1 → (k : Int) ≤ a ∧ (k : Int) ≤ b)
    (fun a b _ ha hb => ⟨(range_of_enableOf ha).1, (range_of_enableOf hb).1⟩) ?_ h
  · rintro a b hab ⟨ha, hb⟩
    have h1 := hI a b hab ha hb
    have h2 := inTable_of_mem_mutex hab
    unfold InTable at h2
    omega
  · intro k s1 s2 _ hI hb a b hab ha hb'
    obtain ⟨ha1, hb1, hak, hbk⟩ := hG.prune (firstStep_move (hG.le_one k) hb) hab ha hb'
    have := hI a b hab ha1 hb1
    omega

/-- **Mutual exclusion of a level-0 run.** On a table with paired conflicts, no run that
reaches the emission loop has two conflicting options on there; and the run does
reach it when the ids and values of the table are in order. -/
theorem atEmission_exclusive (d : Draws) (t : List ArgNode) (hG : PairedConflicts (graphOf t))
    (bitmap : List Nat) (ir : List Ir) :
    (∀ s, atEmission d t t.length bitmap 0 ir = .ok s →
      ∀ a b, b ∈ (graphOf t).mutex a → ¬ (On s.ir a ∧ On s.ir b)) ∧
    (TableOK t → ir.length = t.length → t.length ≤ bitmap.length →
      ∃ s, atEmission d t t.length bitmap 0 ir = .ok s) := by
  constructor
  · intro s hs
    obtain ⟨s1, s2, _, h2, h3⟩ := atEmission_cases hs
    exact hG.moves (firstPass_exclusive hG h2) (secondPass_moves h3)
  · intro ht hl hb
    obtain ⟨s, hs, _⟩ := atEmission_total (d := d) ht hG.le_one hl hb
    exact ⟨s, hs⟩

/-- The pair of `-J` is never on together. -/
theorem journal_exclusive : PairedConflicts (graphOf journalTable) ∧
    ∃ s, atEmission .least journalTable 3 [1, 2, 2] 0 (zeroIr 3) = .ok s ∧
      ¬ (On s.ir 1 ∧ On s.ir 2) := by
  have hG : PairedConflicts (graphOf journalTable) := by decide
  obtain ⟨hx, ht⟩ := atEmission_exclusive .least journalTable hG [1, 2, 2] (zeroIr 3)
  obtain ⟨s, hs⟩ := ht (by decide) rfl (by decide)
  exact ⟨hG, s, hs, hx s hs 1 2 (by decide)⟩

end

end ConFuzz
