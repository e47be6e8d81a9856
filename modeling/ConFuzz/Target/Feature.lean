import ConFuzz.Model.Feature

/-!
# Lists of features

A list of names sets exactly the bits of its names (`editWords_names`). The names
that `e2p_feature2string` gives are read back, for every bit of the three words,
so the line that `dumpe2fs` prints for a file system is a list of features that
gives another one the same features (`editFeature_printFeatures`). Only the line
of a file system without features is refused.
-/

namespace ConFuzz.E2p

open ConFuzz.CLib

namespace Features

def union (F G : Features) : Features where
  compat := F.compat ||| G.compat
  incompat := F.incompat ||| G.incompat
  roCompat := F.roCompat ||| G.roCompat

theorem get_union (F G : Features) (k : Compat) : (F.union G).get k = F.get k ||| G.get k := by
  cases k <;> rfl

theorem ext_get {F G : Features} (h : ∀ k, F.get k = G.get k) : F = G := by
  have h0 := h .compat
  have h1 := h .incompat
  have h2 := h .roIncompat
  cases F
  cases G
  simp only [get] at h0 h1 h2
  rw [h0, h1, h2]

theorem get_set (F : Features) (word : BitVec 32) (k k' : Compat) :
    (F.set word k).get k' = if k' = k then word else F.get k' := by
  cases k <;> cases k' <;> rfl

end Features

/-! ## Names -/

structure Names (ok : Option Features) (w : Word) (k : Compat) (m : BitVec 32) : Prop where
  plain : ¬ (sameIgnoringCase w "none".toList ∨ sameIgnoringCase w "clear".toList)
  sign : featureSign w = (false, w)
  feature : string2feature w = some (k, m)
  allowed : refuses ok k m = false

instance (ok : Option Features) (w : Word) (k : Compat) (m : BitVec 32) :
    Decidable (Names ok w k m) :=
  decidable_of_iff (¬ (sameIgnoringCase w "none".toList ∨ sameIgnoringCase w "clear".toList) ∧
    featureSign w = (false, w) ∧ string2feature w = some (k, m) ∧ refuses ok k m = false)
    ⟨fun h => ⟨h.1, h.2.1, h.2.2.1, h.2.2.2⟩, fun h => ⟨h.plain, h.sign, h.feature, h.allowed⟩⟩

section

variable {ok clearOk : Option Features} {F : Features} {w : Word} {k : Compat} {m : BitVec 32}

theorem editWord_names (h : Names ok w k m) :
    editWord ok clearOk F w = { features := F.set (F.get k ||| m) k } := by
  rw [editWord, if_neg h.plain, h.sign]
  simp only [h.feature, h.allowed, Bool.false_eq_true, if_false]

/-- **A list of names sets the bits of its names**, and no others. -/
theorem editWords_names : ∀ {ws : List Word} {F : Features}, (∀ w ∈ ws, ∃ k m, Names ok w k m) →
    ∃ G, editWords ok clearOk F ws = { features := G } ∧ ∀ k j, (G.get k).getLsbD j = true ↔
      (F.get k).getLsbD j = true ∨
        ∃ w ∈ ws, ∃ m, string2feature w = some (k, m) ∧ m.getLsbD j = true
  | [], F, _ => ⟨F, rfl, fun k j => by simp⟩
  | w :: ws, F, h => by
    obtain ⟨kw, mw, hw⟩ := h w List.mem_cons_self
    obtain ⟨G, hG, hbits⟩ := @editWords_names ws (F.set (F.get kw ||| mw) kw)
      fun v hv => h v (List.mem_cons_of_mem w hv)
    refine ⟨G, ?_, fun k j => ?_⟩
    · rw [editWords, editWord_names hw]
      exact hG
    rw [hbits, Features.get_set, List.exists_mem_cons_iff, hw.feature]
    by_cases hk : k = kw
    · subst hk
      simp only [if_true, BitVec.getLsbD_or, Bool.or_eq_true, Option.some.injEq, Prod.mk.injEq,
        true_and, exists_eq_left', or_assoc]
    · have hne : ∀ m, ¬ (some (kw, mw) = some (k, m)) := fun m he => by
        cases he
        exact hk rfl
      simp only [hk, if_false, hne, false_and, exists_const, false_or]

end

/-! ## The line of `dumpe2fs` -/

/-- The name of every bit is a word that sets the bit. -/
theorem names_feature2string : ∀ k : Compat, ∀ j < 32,
    Names none (feature2string k (1#32 <<< j)) k (1#32 <<< j) ∧
      IsToken isSpace endsFeature (feature2string k (1#32 <<< j)) := by
  intro k
  cases k with
  | compat => decide +kernel
  | incompat => decide +kernel
  | roIncompat => decide +kernel

theorem mem_printWord {k : Compat} {word : BitVec 32} {w : Word} :
    w ∈ printWord k word ↔ ∃ j < 32, word.getLsbD j = true ∧ w = feature2string k (1#32 <<< j) := by
  have hbit : ∀ j < 32, word &&& 1#32 <<< j ≠ 0 ↔ word.getLsbD j = true := by
    intro j hj
    rw [← BitVec.twoPow_eq, BitVec.and_twoPow]
    by_cases hset : word.getLsbD j = true
    · rw [if_pos hset]
      refine iff_of_true (fun h => ?_) hset
      have hbit := congrArg (·.getLsbD j) h
      simp [hj] at hbit
    · rw [if_neg hset]
      exact iff_of_false (fun h => h rfl) hset
  unfold printWord
  simp only [List.mem_map, List.mem_filter, List.mem_range, decide_eq_true_eq]
  constructor
  · rintro ⟨j, ⟨hj, hne⟩, rfl⟩
    exact ⟨j, hj, (hbit j hj).1 hne, rfl⟩
  · rintro ⟨j, hj, hset, rfl⟩
    exact ⟨j, ⟨hj, (hbit j hj).2 hset⟩, rfl⟩

theorem mem_printed {F : Features} {w : Word} :
    w ∈ printed F ↔
      ∃ k, ∃ j < 32, (F.get k).getLsbD j = true ∧ w = feature2string k (1#32 <<< j) := by
  unfold printed
  rw [List.mem_append, List.mem_append, mem_printWord, mem_printWord, mem_printWord]
  constructor
  · rintro ((h | h) | h)
    · exact ⟨.compat, h⟩
    · exact ⟨.incompat, h⟩
    · exact ⟨.roIncompat, h⟩
  · rintro ⟨k, h⟩
    cases k with
    | compat => exact .inl (.inl h)
    | incompat => exact .inl (.inr h)
    | roIncompat => exact .inr h

theorem printed_eq_nil_iff {F : Features} : printed F = [] ↔ F = {} := by
  constructor
  · intro h
    refine Features.ext_get fun k => BitVec.eq_of_getLsbD_eq fun j hj => ?_
    have hzero : ((({} : Features)).get k).getLsbD j = false := by
      cases k <;> exact BitVec.getLsbD_zero
    rw [hzero, Bool.eq_false_iff]
    intro hset
    have hmem := mem_printed.2 ⟨k, j, hj, hset, rfl⟩
    rw [h] at hmem
    exact List.not_mem_nil hmem
  · rintro rfl
    decide +kernel

/-- **The features of a file system survive printing and reading.** -/
theorem editFeature_printFeatures (F S : Features) :
    editFeature (printFeatures F) S none =
      if F = {} then { features := S, rc := 1 } else { features := S.union F } := by
  unfold printFeatures
  by_cases hF : F = {}
  · have htokens : tokens isSpace endsFeature " (none)\n".toList = ["(none)".toList] := by
      decide +kernel
    have hplain : ¬ (sameIgnoringCase "(none)".toList "none".toList ∨
        sameIgnoringCase "(none)".toList "clear".toList) := by decide +kernel
    have hunknown : string2feature (featureSign "(none)".toList).2 = none := by decide +kernel
    rw [if_pos (printed_eq_nil_iff.2 hF), if_pos hF, editFeature, editFeature2, htokens, editWords,
      editWord, if_neg hplain]
    simp only [hunknown]
    rfl
  rw [if_neg fun h => hF (printed_eq_nil_iff.1 h), if_neg hF, editFeature, editFeature2,
    tokens_line rfl rfl rfl (fun h => hF (printed_eq_nil_iff.1 h))]
  · obtain ⟨G, hG, hbits⟩ := @editWords_names none ((none : Option Features).or none) (printed F) S
      fun w hw => by
        obtain ⟨k, j, hj, -, rfl⟩ := mem_printed.1 hw
        exact ⟨k, _, (names_feature2string k j hj).1⟩
    rw [hG]
    congr 1
    refine Features.ext_get fun k => BitVec.eq_of_getLsbD_eq fun j hj => ?_
    rw [Features.get_union, BitVec.getLsbD_or, Bool.eq_iff_iff, hbits, Bool.or_eq_true]
    refine or_congr_right ⟨?_, fun h => ?_⟩
    · rintro ⟨w, hw, m, hm, hbit⟩
      obtain ⟨k', j', hj', hset, rfl⟩ := mem_printed.1 hw
      rw [(names_feature2string k' j' hj').1.feature] at hm
      cases hm
      rw [← BitVec.twoPow_eq, BitVec.getLsbD_twoPow, Bool.and_eq_true, decide_eq_true_eq,
        decide_eq_true_eq] at hbit
      rw [← hbit.2]
      exact hset
    · refine ⟨_, mem_printed.2 ⟨k, j, hj, h, rfl⟩, _, (names_feature2string k j hj).1.feature, ?_⟩
      rw [← BitVec.twoPow_eq, BitVec.getLsbD_twoPow]
      simp [hj]
  · intro w hw
    obtain ⟨k, j, hj, -, rfl⟩ := mem_printed.1 hw
    exact (names_feature2string k j hj).2

end ConFuzz.E2p
