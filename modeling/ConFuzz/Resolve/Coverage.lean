import ConFuzz.Resolve.Total

/-!
# What level 0 can and cannot generate

Nothing is on at the emission loop that the bitmap, the must-haves and the needs
of what is on do not ask for (`atEmission_justified`), and every valid
configuration is generated by some draws (`atEmission_complete`): the bitmap that
chooses it passes all three loops unchanged.
-/

namespace ConFuzz

open ConFuzz.CLib ConFuzz.Config

section

variable {d : Draws} {t : List ArgNode}

/-! ## Justification -/

theorem firstPass_justified {chosen : Int → Prop} (hle : ∀ i, ((graphOf t).mutex i).length ≤ 1)
    {n : Nat} {s s' : Run} (hJ : ∀ i, On s.ir i → Justified (graphOf t) chosen i)
    (h : forUpto n (firstStep d t) s = .ok s') :
    ∀ i, On s'.ir i → Justified (graphOf t) chosen i := by
  refine forUpto_inv (fun _ s => ∀ i, On s.ir i → Justified (graphOf t) chosen i) hJ ?_ h
  intro k s1 s2 _ hI hb i hi
  rcases (firstStep_move (hle k) hb).on_before hi with h | ⟨rfl, hm⟩
  · exact hI i h
  · exact .mustHave hm

/-- **No unjustified option at level 0.** -/
theorem atEmission_justified (d : Draws) (t : List ArgNode)
    (hle : ∀ i, ((graphOf t).mutex i).length ≤ 1) (bitmap : List Nat) (ir : List Ir)
    (h0 : AllOff ir) :
    (∀ s, atEmission d t t.length bitmap 0 ir = .ok s →
      ∀ i, On s.ir i → Justified (graphOf t) (fun j => chosen bitmap j = true) i) ∧
    (TableOK t → ir.length = t.length → t.length ≤ bitmap.length →
      ∃ s, atEmission d t t.length bitmap 0 ir = .ok s) := by
  constructor
  · intro s hs
    obtain ⟨s1, s2, h1, h2, h3⟩ := atEmission_cases hs
    have hJ : ∀ i, On s1.ir i → Justified (graphOf t) (fun j => chosen bitmap j = true) i := by
      intro i hi
      rw [On, (select_marks h1).1 i] at hi
      split at hi
      · rename_i hc
        exact .chosen hc.2.2
      · exact absurd (h0.eq_zero hi) (by decide)
    exact (secondPass_moves h3).justified (firstPass_justified hle hJ h2)
  · intro ht hl hb
    obtain ⟨s, hs, _⟩ := atEmission_total (d := d) ht hle hl hb
    exact ⟨s, hs⟩

theorem journal_justified :
    ∃ s, atEmission .least journalTable 3 [1, 2, 1] 0 (zeroIr 3) = .ok s ∧
      (On s.ir 0 → Justified (graphOf journalTable) (fun j => chosen [1, 2, 1] j = true) 0) := by
  obtain ⟨hx, ht⟩ := atEmission_justified .least journalTable (mutex_le_one_iff.2 (by decide))
    [1, 2, 1] (zeroIr 3) (by decide)
  obtain ⟨s, hs⟩ := ht (by decide) rfl (by decide)
  exact ⟨s, hs, hx s hs 0⟩

/-! ## Completeness -/

theorem bitmapFuzz_spec {argBitmap : List Nat} {n : Nat} (hn : n ≤ argBitmap.length) :
    ∃ bitmap, bitmapFuzz d argBitmap n = .ok bitmap ∧ bitmap.length = argBitmap.length ∧
      ∀ j : Nat, j < n → at? bitmap j = some (d.rand j % 255 + 1) := by
  refine forUpto_total (fun k bitmap => bitmap.length = argBitmap.length ∧
    ∀ j : Nat, j < k → at? bitmap j = some (d.rand j % 255 + 1))
    ⟨rfl, fun j hj => absurd hj (Nat.not_lt_zero j)⟩ ?_
  rintro k bitmap hk ⟨hl, hI⟩
  obtain ⟨b, hb⟩ := at?_of_mem_range (l := bitmap) (i := k) (by omega) (by omega)
  refine ⟨_, wr_eq_ok.2 ⟨⟨b, hb⟩, rfl⟩, by rw [length_put, hl], fun j hj => ?_⟩
  rw [at?_put _ hb]
  by_cases hjk : j = k
  · subst hjk; rw [if_pos rfl]
  · rw [if_neg (by omega)]
    exact hI j (by omega)

variable {S : Int → Prop}

/-- A valid configuration passes the first iteration unchanged. -/
theorem firstPass_valid (ht : TableOK t) (hS : Valid (graphOf t) (InTable t) S) {s : Run}
    (hl : s.ir.length = t.length) (hon : ∀ i, On s.ir i ↔ S i) :
    ∃ s', forUpto t.length (firstStep d t) s = .ok s' ∧ s'.ir = s.ir := by
  refine forUpto_total (fun _ (s' : Run) => s'.ir = s.ir) rfl ?_
  intro k s1 hk hI
  have hno : On s1.ir k → ∀ m ∈ (graphOf t).mutex k, ¬ On s1.ir m := by
    intro hk m hm hmon
    rw [hI] at hk hmon
    exact hS.mutex k m ((hon k).1 hk) ((hon m).1 hmon) hm
  obtain ⟨s2, h2, _⟩ := firstStep_total (d := d) ht (by rw [hI]; exact hl) hk (.inr hno)
  refine ⟨s2, h2, ?_⟩
  rcases firstStep_cases h2 with ⟨he, hm, _⟩ | ⟨rfl, _, _⟩ | ⟨hkon, hp⟩
  · have hk1 := (hon k).2 (hS.mustHave k (inTable_of_mustHave hm) hm)
    rw [hI] at he
    rw [On, he] at hk1
    cases hk1
  · exact hI
  · rw [pruneMutex_none hkon (hno hkon) hp]
    exact hI

/-- A valid configuration passes the second iteration unchanged. -/
theorem secondPass_valid (ht : TableOK t) (hS : Valid (graphOf t) (InTable t) S) {s : Run}
    (hl : s.ir.length = t.length) (hon : ∀ i, On s.ir i ↔ S i) :
    ∃ s', secondPass d t t.length s = .ok s' ∧ enableOf s'.ir = enableOf s.ir := by
  obtain ⟨s', h, _⟩ := secondPass_total (d := d) ht.links hl
  refine ⟨s', h, secondPass_settled (fun i hi => ⟨fun p hp => ?_, fun hm hne => ?_⟩) h⟩
  · exact ⟨1, (hon p).2 (hS.dep i ((hon i).1 hi) p hp), by decide⟩
  · obtain ⟨c, hc, hcS⟩ := hS.child i ((hon i).1 hi) hm hne
    exact ⟨c, hc, (hon c).2 hcS⟩

open Classical in
/-- The draws whose bitmap chooses exactly `S`. -/
noncomputable def drawsFor (S : Int → Prop) : Draws :=
  { Draws.least with rand := fun k => if S k then 1 else 0 }

/-- **Completeness of level 0.** Every valid configuration of a table whose ids and
values are in order is what some draws leave on at the emission loop. -/
theorem atEmission_complete (t : List ArgNode) (ht : TableOK t) (S : Int → Prop)
    (hS : Valid (graphOf t) (InTable t) S) (argBitmap : List Nat)
    (hb : t.length ≤ argBitmap.length) (ir : List Ir) (hl : ir.length = t.length)
    (h0 : AllOff ir) :
    ∃ d bitmap s, bitmapFuzz d argBitmap t.length = .ok bitmap ∧
      atEmission d t t.length bitmap 0 ir = .ok s ∧ ∀ i, On s.ir i ↔ S i := by
  obtain ⟨bitmap, hbm, hbl, hbytes⟩ := bitmapFuzz_spec (d := drawsFor S) hb
  obtain ⟨s1, h1, hl1⟩ := select_total (d := drawsFor S) ht hl
    (show t.length ≤ bitmap.length by omega)
  have hchosen : ∀ i, InTable t i → (chosen bitmap i = true ↔ S i) := by
    rintro i ⟨hi0, hi1⟩
    obtain ⟨k, rfl⟩ := Int.eq_ofNat_of_zero_le hi0
    unfold chosen
    rw [hbytes k (by omega)]
    by_cases hk : S k <;> simp [drawsFor, hk]
  have hon : ∀ i, On s1.ir i ↔ S i := by
    intro i
    unfold On
    rw [(select_marks h1).1 i]
    constructor
    · intro h
      split at h
      · rename_i hc
        exact (hchosen i ⟨hc.1, hc.2.1⟩).1 hc.2.2
      · exact absurd (h0.eq_zero h) (by decide)
    · intro hi
      have hin := hS.node i hi
      rw [if_pos ⟨hin.1, hin.2, (hchosen i hin).2 hi⟩]
  obtain ⟨s2, h2, he2⟩ := firstPass_valid (d := drawsFor S) ht hS hl1 hon
  have hon2 : ∀ i, On s2.ir i ↔ S i := by rw [he2]; exact hon
  obtain ⟨s3, h3, he3⟩ := secondPass_valid (d := drawsFor S) ht hS (by rw [he2]; exact hl1) hon2
  refine ⟨drawsFor S, bitmap, s3, hbm, bind_eq_ok.2 ⟨s1, h1, ?_⟩, fun i => ?_⟩
  · rw [if_pos rfl]
    exact bind_eq_ok.2 ⟨s2, h2, h3⟩
  · unfold On
    rw [he3]
    exact hon2 i

/-- `-J` with a journal device is generated. -/
theorem journal_complete :
    ∃ d bitmap s, bitmapFuzz d [0, 0, 0] 3 = .ok bitmap ∧
      atEmission d journalTable 3 bitmap 0 (zeroIr 3) = .ok s ∧
      ∀ i, On s.ir i ↔ i = 0 ∨ i = 2 := by
  have hS : Valid (graphOf journalTable) (InTable journalTable) (fun i => i = 0 ∨ i = 2) := by
    have hids : ∀ i, InTable journalTable i → i = 0 ∨ i = 1 ∨ i = 2 := by
      rintro i ⟨h0, h1⟩
      have h1 : i < 3 := h1
      omega
    refine ⟨?_, ?_, ?_, ?_, ?_⟩
    · rintro i (rfl | rfl) <;> decide
    · intro i hi
      rcases hids i hi with rfl | rfl | rfl <;> decide
    · rintro i (rfl | rfl) <;> decide
    · rintro i j (rfl | rfl) (rfl | rfl) <;> decide
    · rintro i (rfl | rfl) <;> decide
  exact atEmission_complete journalTable (by decide) _ hS [0, 0, 0] (by decide) (zeroIr 3) rfl
    (by decide)

end

end ConFuzz
