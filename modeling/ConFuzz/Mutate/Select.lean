import ConFuzz.CLib.Loop
import ConFuzz.Mutate.Descriptors

/-!
# The place of a mutation

`drawnKey` is the key that a result of `rand()` selects. The range of the
selector is closed, so that it ends at the field count, which is no key. The
search goes on while the key is `Absent`, that is, filed with a negative offset;
a key that is not filed reads as an entry at 0 and stops it.

The place inside the entry is drawn so that four bytes fit when the length is at
least four (`corruptStructure_inside`). A length of zero wraps.
-/

namespace ConFuzz

open ConFuzz.CLib LevelOneStructure

/-! ## One draw -/

theorem tmod_natCast (r : Nat) (m : Int) : Int.tmod r m = (r % m.natAbs : Nat) := by
  cases m <;> rfl

theorem random_zero (r : Fin (2 ^ 31)) (hi : Int) :
    random r 0 hi =
      if toInt32 (hi + 1) = 0 then .error .divByZero
      else .ok (r.val % (toInt32 (hi + 1)).natAbs : Nat) := by
  simp only [random, Int.sub_zero, Int.add_zero]
  rw [← tmod_natCast]

theorem random_length (r : Fin (2 ^ 31)) {length : Nat} (h4 : 4 ≤ length)
    (hlt : length < 2 ^ 32) :
    ∃ a : Nat, random r 0 (toInt32 (toU32 (length - 4))) = .ok (a : Int) ∧ a + 4 ≤ length := by
  have hm : toInt32 (toInt32 (toU32 ((length : Int) - 4)) + 1) = toInt32 ((length : Int) - 3) := by
    unfold toInt32 toU32
    omega
  have hne : toInt32 ((length : Int) - 3) ≠ 0 := by
    unfold toInt32
    omega
  refine ⟨_, by rw [random_zero, hm, if_neg hne], ?_⟩
  have hmod : r.val % (toInt32 ((length : Int) - 3)).natAbs <
      (toInt32 ((length : Int) - 3)).natAbs := Nat.mod_lt _ (by omega)
  have hle := Nat.mod_le r.val (toInt32 ((length : Int) - 3)).natAbs
  have hr := r.isLt
  unfold toInt32 at *
  omega

theorem random_nonneg {r : Fin (2 ^ 31)} {hi a : Int} (h : random r 0 hi = .ok a) : 0 ≤ a := by
  rw [random_zero] at h
  split at h
  · cases h
  · cases h
    omega

/-! ## The selector -/

section Selector

variable {fieldCount : Nat} (hlt : fieldCount < 2 ^ 32)
include hlt

theorem selector_modulus : toInt32 ((fieldCount : Int) + 1) = 0 ↔ fieldCount = 2 ^ 32 - 1 := by
  unfold toInt32
  omega

theorem selector_divByZero (h : fieldCount = 2 ^ 32 - 1) (r : Fin (2 ^ 31)) :
    levelOneStructureSelector fieldCount r = .error .divByZero := by
  rw [levelOneStructureSelector, random_zero, toInt32_add]
  exact if_pos ((selector_modulus hlt).2 h)

end Selector

def drawnKey (fieldCount : Nat) (r : Fin (2 ^ 31)) : Nat :=
  r.val % (toInt32 (fieldCount + 1)).natAbs

section Drawn

variable {fieldCount : Nat} (hlt : fieldCount < 2 ^ 32) (hne : fieldCount ≠ 2 ^ 32 - 1)
include hlt hne

theorem selector_eq (r : Fin (2 ^ 31)) :
    levelOneStructureSelector fieldCount r = .ok (drawnKey fieldCount r : Int) := by
  rw [levelOneStructureSelector, random_zero, toInt32_add]
  exact if_neg fun h => hne ((selector_modulus hlt).1 h)

theorem drawnKey_le (r : Fin (2 ^ 31)) : drawnKey fieldCount r ≤ fieldCount := by
  have hm := (selector_modulus hlt).not.2 hne
  have hmod : r.val % (toInt32 ((fieldCount : Int) + 1)).natAbs <
      (toInt32 ((fieldCount : Int) + 1)).natAbs := Nat.mod_lt _ (by omega)
  have hle := Nat.mod_le r.val (toInt32 ((fieldCount : Int) + 1)).natAbs
  have hr := r.isLt
  unfold drawnKey
  unfold toInt32 at *
  omega

end Drawn

theorem toU64_drawnKey (fieldCount : Nat) (r : Fin (2 ^ 31)) :
    toU64 (drawnKey fieldCount r : Int) = drawnKey fieldCount r := by
  have hle : drawnKey fieldCount r ≤ r.val := Nat.mod_le ..
  have hr := r.isLt
  unfold toU64
  omega

/-- The search for a structure is a search over the draws. -/
theorem selectStructure_eq {fieldCount : Nat} (hlt : fieldCount < 2 ^ 32)
    (hne : fieldCount ≠ 2 ^ 32 - 1) (dict : MetaDict) (rand : RandSeq) :
    ∀ fuel pos : Nat, selectStructure dict fieldCount rand fuel pos =
      match searchFrom (fun j => 0 ≤ (dict.get (drawnKey fieldCount (rand j))).offset) fuel pos with
      | some j => .ok ((drawnKey fieldCount (rand j) : Int), j + 1)
      | none => .error .outOfFuel := by
  intro fuel
  induction fuel with
  | zero =>
    intro pos
    rfl
  | succ fuel ih =>
    intro pos
    rw [selectStructure, selector_eq hlt hne, ok_bind, toU64_drawnKey, searchFrom]
    by_cases h : 0 ≤ (dict.get (drawnKey fieldCount (rand pos))).offset
    · simp [h]
    · simp only [h, if_false, decide_false, Bool.false_eq_true]
      exact ih (pos + 1)

/-! ## The corruption -/

theorem corruptStructure_ok {dict : MetaDict} {rand : RandSeq} {key : Int} {pos : Nat}
    {m : Mutation} (h : corruptStructure dict rand key pos = .ok m) :
    m.key = key ∧ (dict.get (toU64 key)).offset ≤ m.location ∧ m.bytes.length = 4 := by
  obtain ⟨a, ha, h⟩ := bind_eq_ok.1 h
  obtain ⟨b, -, h⟩ := bind_eq_ok.1 h
  cases h
  have := random_nonneg ha
  exact ⟨rfl, by simp only; omega, rfl⟩

theorem random_ne_outOfFuel (r : Fin (2 ^ 31)) (hi : Int) : random r 0 hi ≠ .error .outOfFuel := by
  rw [random_zero]
  split
  · intro h; cases h
  · intro h; cases h

theorem corruptStructure_ne_outOfFuel (dict : MetaDict) (rand : RandSeq) (key : Int) (pos : Nat) :
    corruptStructure dict rand key pos ≠ .error .outOfFuel := by
  intro h
  rcases bind_eq_error.1 h with h | ⟨a, -, h⟩
  · exact random_ne_outOfFuel _ _ h
  · rcases bind_eq_error.1 h with h | ⟨b, -, h⟩
    · exact random_ne_outOfFuel _ _ h
    · cases h

theorem corruptStructure_inside (dict : MetaDict) (rand : RandSeq) (key : Int) (pos : Nat)
    (h4 : 4 ≤ (dict.get (toU64 key)).length) (hlt : (dict.get (toU64 key)).length < 2 ^ 32) :
    ∃ m, corruptStructure dict rand key pos = .ok m ∧
      m.location + 4 ≤ (dict.get (toU64 key)).offset + (dict.get (toU64 key)).length := by
  obtain ⟨a, ha, hle⟩ := random_length (rand pos) h4 hlt
  have hb : random (rand (pos + 1)) 0 0x7FFFFFF =
      .ok ((rand (pos + 1)).val % (toInt32 (0x7FFFFFF + 1)).natAbs : Nat) := by
    rw [random_zero, if_neg (by decide)]
  simp only [corruptStructure, ha, hb, ok_bind]
  exact ⟨_, rfl, by simp only; omega⟩

theorem levelOneImageMutation_of_select {dict : MetaDict} {fieldCount fuel pos : Nat}
    {rand : RandSeq} {key : Int}
    (h : selectStructure dict fieldCount rand fuel 0 = .ok (key, pos)) :
    levelOneImageMutation dict fieldCount rand fuel = corruptStructure dict rand key pos := by
  rw [levelOneImageMutation, h, ok_bind]

theorem levelOneImageMutation_of_error {dict : MetaDict} {fieldCount fuel : Nat} {rand : RandSeq}
    {e : Fault} (h : selectStructure dict fieldCount rand fuel 0 = .error e) :
    levelOneImageMutation dict fieldCount rand fuel = .error e := by
  rw [levelOneImageMutation, h]
  rfl

namespace Filsys

variable (fs : Filsys)

/-! ## Lengths -/

theorem fieldCount_lt : fs.fieldCount < 2 ^ 32 := Nat.mod_lt _ (by decide)

theorem blocksize_ge : 1024 ≤ fs.blocksize :=
  Nat.le_mul_of_pos_right 1024 (Nat.two_pow_pos _)

theorem extDescSize_ge : 32 ≤ fs.extDescSize := by
  unfold Super.extDescSize
  cases h : fs.bit64 with
  | false => simp
  | true =>
    have := fs.opens.descSize_ge h
    simp only [if_true]
    omega

/-- The filed length of a structure is zero: a reserved GDT range whose bytes are
a multiple of `2 ^ 32`, or an inode table without blocks. -/
def Hollow (s : LevelOneStructure) (g : Nat) : Prop :=
  match s with
  | gdt => fs.gdtBlocks g = 0
  | blockBitmap | inodeTable => fs.inodeBlocksPerGroup.toNat = 0
  | _ => False

theorem inodeTable_length :
    toU32 (fs.blocksize * fs.inodeBlocksPerGroup.toNat : Nat) =
      fs.inodeBlocksPerGroup.toNat * fs.blocksize := by
  have hmul : fs.blocksize * fs.inodeBlocksPerGroup.toNat < 2 ^ 32 :=
    Nat.mul_lt_mul_of_le_of_lt (c := 2 ^ 16) (d := 2 ^ 16) fs.blocksize_le fs.opens.inodeBlocks_lt
      (by decide)
  rw [toU32_natCast, Nat.mod_eq_of_lt hmul, Nat.mul_comm]

variable {fs} {s : LevelOneStructure} {g : Nat}

theorem record_hollow (h0 : 0 ≤ (fs.record s g).offset) (h : fs.Hollow s g) :
    (fs.record s g).length = 0 := by
  cases s with
  | gdt =>
    by_cases hold : (fs.superAndBgdLoc2 g).oldDescBlk = 0
    · simp [record, hold] at h0
    · simp only [record, ne_eq, hold, not_false_eq_true, if_true]
      rw [gdt_length]
      exact Nat.mul_eq_zero.2 (.inl h)
  | blockBitmap =>
    simp only [record]
    rw [inodeTable_length]
    exact Nat.mul_eq_zero.2 (.inl h)
  | inodeTable =>
    simp only [record]
    rw [inodeTable_length]
    exact Nat.mul_eq_zero.2 (.inl h)
  | superblock | bgd | metaBg | inodeBitmap => exact h.elim

theorem record_length (h0 : 0 ≤ (fs.record s g).offset) (h : ¬fs.Hollow s g) :
    4 ≤ (fs.record s g).length ∧ (fs.record s g).length < 2 ^ 32 := by
  have hbs := fs.blocksize_ge
  have hle := fs.blocksize_le
  have hdesc := fs.extDescSize_ge
  have hblocks : ∀ n : Nat, n ≠ 0 → 4 ≤ n * fs.blocksize := by
    intro n hn
    have := Nat.le_mul_of_pos_left fs.blocksize (Nat.pos_of_ne_zero hn)
    omega
  cases s with
  | superblock | inodeBitmap =>
    simp only [record]
    omega
  | bgd =>
    have := fs.extDescSize_bounds
    simp only [record]
    omega
  | metaBg =>
    have := fs.descBytes_bounds
    have := Nat.le_mul_of_pos_left fs.extDescSize fs.opens.descPerBlock_pos
    simp only [record]
    omega
  | gdt =>
    by_cases hold : (fs.superAndBgdLoc2 g).oldDescBlk = 0
    · simp [record, hold] at h0
    · simp only [record, ne_eq, hold, not_false_eq_true, if_true]
      refine ⟨?_, toU32_lt _⟩
      rw [gdt_length]
      exact hblocks _ h
  | blockBitmap | inodeTable =>
    simp only [record]
    refine ⟨?_, toU32_lt _⟩
    rw [inodeTable_length]
    exact hblocks _ h

/-! ## The search -/

variable (fs) in
/-- The key is filed for a structure that is not there. -/
def Absent (K : Nat) : Prop :=
  ∃ s g, owner fs.groupDescCount K = some (s, g) ∧ (fs.record s g).offset < 0

theorem get_of_owner {K : Nat} (h : owner fs.groupDescCount K = some (s, g)) :
    fs.findMetadataBlocks.get K = fs.record s g := by
  rw [MetaDict.get, findMetadataBlocks_apply, h]
  rfl

theorem get_of_owner_none {K : Nat} (h : owner fs.groupDescCount K = none) :
    fs.findMetadataBlocks.get K = ⟨0, 0⟩ := by
  rw [MetaDict.get, findMetadataBlocks_apply, h]
  rfl

theorem get_offset_nonneg {K : Nat} :
    0 ≤ (fs.findMetadataBlocks.get K).offset ↔ ¬fs.Absent K := by
  cases h : owner fs.groupDescCount K with
  | none =>
    rw [get_of_owner_none h]
    simp [Absent, h]
  | some o =>
    obtain ⟨s, g⟩ := o
    rw [get_of_owner h]
    simp [Absent, h]

variable (fs)

def Chosen (rand : RandSeq) (j : Nat) : Prop :=
  (∀ i < j, fs.Absent (drawnKey fs.fieldCount (rand i))) ∧
    ¬fs.Absent (drawnKey fs.fieldCount (rand j))

/-- The mutation is four bytes inside an entry that is filed with a location, under
a key below the field count. -/
def Inside (m : Mutation) : Prop :=
  0 ≤ m.key ∧ m.key < fs.fieldCount ∧ m.bytes.length = 4 ∧
    ∃ entry, fs.findMetadataBlocks m.key.toNat = some entry ∧ 0 ≤ entry.offset ∧
      entry.offset ≤ m.location ∧ m.location + m.bytes.length ≤ entry.offset + entry.length

/-- A run is still searching, or mutates inside. -/
def MutatesInside (rand : RandSeq) : Prop :=
  ∀ fuel, processFs fs rand fuel = .error .outOfFuel ∨
    ∃ m, processFs fs rand fuel = .ok m ∧ fs.Inside m

variable {fs} in
/-- The mutation under the key of a draw that ends the search. -/
theorem corruptStructure_inside_iff (hne : fs.fieldCount ≠ 2 ^ 32 - 1) {r : Fin (2 ^ 31)}
    (habs : ¬fs.Absent (drawnKey fs.fieldCount r)) (rand : RandSeq) (pos : Nat) :
    (∃ m, corruptStructure fs.findMetadataBlocks rand (drawnKey fs.fieldCount r) pos = .ok m ∧
        fs.Inside m) ↔
      drawnKey fs.fieldCount r ≠ fs.fieldCount ∧
      ∃ s g, owner fs.groupDescCount (drawnKey fs.fieldCount r) = some (s, g) ∧
        ¬fs.Hollow s g := by
  have hle := drawnKey_le fs.fieldCount_lt hne r
  have hkey := toU64_drawnKey fs.fieldCount r
  have hoff := get_offset_nonneg.2 habs
  constructor
  · rintro ⟨m, hm, -, hlt, hbytes, entry, hentry, h0, hlo, hhi⟩
    obtain ⟨hmkey, -, -⟩ := corruptStructure_ok hm
    rw [hmkey] at hlt hentry
    refine ⟨by omega, ?_⟩
    rw [Int.toNat_natCast, findMetadataBlocks_apply] at hentry
    obtain ⟨o, ho, rfl⟩ := Option.map_eq_some_iff.1 hentry
    refine ⟨o.1, o.2, ho, fun hollow => ?_⟩
    have hlen := record_hollow h0 hollow
    rw [hlen, hbytes] at hhi
    omega
  · rintro ⟨hcount, s, g, ho, hollow⟩
    have hget := get_of_owner ho
    rw [hget] at hoff
    obtain ⟨h4, hlt⟩ := record_length hoff hollow
    obtain ⟨m, hm, hhi⟩ := corruptStructure_inside fs.findMetadataBlocks rand
      (drawnKey fs.fieldCount r) pos (by rwa [hkey, hget]) (by rwa [hkey, hget])
    obtain ⟨hmkey, hlo, hbytes⟩ := corruptStructure_ok hm
    rw [hkey, hget] at hlo hhi
    refine ⟨m, hm, by omega, by omega, hbytes, fs.record s g, ?_, hoff, hlo, by omega⟩
    rw [hmkey, Int.toNat_natCast, findMetadataBlocks_apply, ho]
    rfl

section Search

variable {fs} {rand : RandSeq} (hne : fs.fieldCount ≠ 2 ^ 32 - 1)
include hne

theorem selectStructure_ok {fuel pos : Nat} {key : Int}
    (h : selectStructure fs.findMetadataBlocks fs.fieldCount rand fuel 0 = .ok (key, pos)) :
    ∃ j, fs.Chosen rand j ∧ key = drawnKey fs.fieldCount (rand j) ∧ pos = j + 1 := by
  rw [selectStructure_eq fs.fieldCount_lt hne] at h
  split at h
  · next j hj =>
    cases h
    obtain ⟨-, -, hyes, hno⟩ := searchFrom_eq_some.1 hj
    refine ⟨j, ⟨fun i hi => ?_, ?_⟩, rfl, rfl⟩
    · have hneg := of_decide_eq_false (hno i (Nat.zero_le i) hi)
      exact Classical.not_not.1 (get_offset_nonneg.not.1 hneg)
    · exact get_offset_nonneg.1 (of_decide_eq_true hyes)
  · cases h

theorem selectStructure_chosen {j : Nat} (h : fs.Chosen rand j) :
    selectStructure fs.findMetadataBlocks fs.fieldCount rand (j + 1) 0 =
      .ok ((drawnKey fs.fieldCount (rand j) : Int), j + 1) := by
  have hj : searchFrom
      (fun j => 0 ≤ (fs.findMetadataBlocks.get (drawnKey fs.fieldCount (rand j))).offset)
      (j + 1) 0 = some j := by
    rw [searchFrom_eq_some]
    refine ⟨Nat.zero_le j, by omega, decide_eq_true (get_offset_nonneg.2 h.2), fun i _ hi => ?_⟩
    exact decide_eq_false (get_offset_nonneg.not.2 (Classical.not_not.2 (h.1 i hi)))
  rw [selectStructure_eq fs.fieldCount_lt hne, hj]

theorem selectStructure_error {fuel : Nat} {e : Fault}
    (h : selectStructure fs.findMetadataBlocks fs.fieldCount rand fuel 0 = .error e) :
    e = .outOfFuel := by
  rw [selectStructure_eq fs.fieldCount_lt hne] at h
  split at h
  · cases h
  · cases h
    rfl

end Search

/-- Runs that mutate inside say something about the draw that ends the search. -/
theorem MutatesInside.chosen {fs : Filsys} {rand : RandSeq} (h : fs.MutatesInside rand)
    (hne : fs.fieldCount ≠ 2 ^ 32 - 1) {j : Nat} (hj : fs.Chosen rand j) :
    drawnKey fs.fieldCount (rand j) ≠ fs.fieldCount ∧
      ∃ s g, owner fs.groupDescCount (drawnKey fs.fieldCount (rand j)) = some (s, g) ∧
        ¬fs.Hollow s g := by
  have hrun : processFs fs rand (j + 1) = _ :=
    levelOneImageMutation_of_select (selectStructure_chosen hne hj)
  rcases h (j + 1) with h | h
  · rw [hrun] at h
    exact (corruptStructure_ne_outOfFuel _ _ _ _ h).elim
  · rw [hrun] at h
    exact (corruptStructure_inside_iff hne hj.2 rand (j + 1)).1 h

theorem MutatesInside.fieldCount_ne {fs : Filsys} {rand : RandSeq} (h : fs.MutatesInside rand) :
    fs.fieldCount ≠ 2 ^ 32 - 1 := by
  intro heq
  have hfault : processFs fs rand 1 = .error .divByZero := by
    apply levelOneImageMutation_of_error
    rw [selectStructure, selector_divByZero fs.fieldCount_lt heq]
    rfl
  rcases h 1 with h | ⟨m, h, -⟩
  · rw [hfault] at h
    cases h
  · rw [hfault] at h
    cases h

/-- The mutations of a run are inside exactly if the first draw that does not name
an absent structure is not the field count itself, and names a filed structure
that is not empty. -/
theorem processFs_mutatesInside (rand : RandSeq) :
    fs.MutatesInside rand ↔
      fs.fieldCount ≠ 2 ^ 32 - 1 ∧
      ∀ j, fs.Chosen rand j →
        drawnKey fs.fieldCount (rand j) ≠ fs.fieldCount ∧
        ∃ s g, owner fs.groupDescCount (drawnKey fs.fieldCount (rand j)) = some (s, g) ∧
          ¬fs.Hollow s g := by
  constructor
  · intro h
    exact ⟨h.fieldCount_ne, fun j hj => h.chosen h.fieldCount_ne hj⟩
  · rintro ⟨hne, hall⟩ fuel
    cases hsel : selectStructure fs.findMetadataBlocks fs.fieldCount rand fuel 0 with
    | error e =>
      obtain rfl := selectStructure_error hne hsel
      exact .inl (levelOneImageMutation_of_error hsel)
    | ok kp =>
      obtain ⟨key, pos⟩ := kp
      obtain ⟨j, hj, rfl, rfl⟩ := selectStructure_ok hne hsel
      have hrun : processFs fs rand fuel = _ := levelOneImageMutation_of_select hsel
      rw [hrun]
      exact .inr ((corruptStructure_inside_iff hne hj.2 rand (j + 1)).2 (hall j hj))

/-- On the image with one group the draw 7 selects the field count. -/
theorem oneGroup_not_mutatesInside : ¬oneGroup.MutatesInside fun _ => 7 := by
  intro h
  have howner : owner oneGroup.groupDescCount (drawnKey oneGroup.fieldCount 7) = none := by decide
  have hj : oneGroup.Chosen (fun _ => 7) 0 := by
    refine ⟨fun i hi => by omega, ?_⟩
    rintro ⟨s, g, ho, -⟩
    rw [howner] at ho
    cases ho
  exact (h.chosen (by decide) hj).1 (by decide)

end Filsys

end ConFuzz
