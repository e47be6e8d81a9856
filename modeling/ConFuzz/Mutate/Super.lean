import ConFuzz.Mutate.Entries

/-!
# The superblock copies

Block number 0 says "no superblock" to `find_super_and_bgd`, but it is where the
superblock is when the blocks are larger than 1024 bytes. With blocks of 1024
bytes and bigalloc the entry of group 0 is the boot block's. Everywhere else the
entry is the location of the copy, as long as that fits a `long long`.
-/

namespace ConFuzz

open LevelOneStructure

namespace Filsys

variable (fs : Filsys) (g : Nat)

theorem superAndBgdLoc2_superBlk :
    (fs.superAndBgdLoc2 g).superBlk = if fs.bgHasSuper g then fs.groupBlock g else 0 := by
  simp only [superAndBgdLoc2]
  split
  · split <;> rfl
  · split <;> rfl

theorem groupFirstBlock2_eq_zero :
    fs.groupFirstBlock2 g = 0 ↔ g = 0 ∧ fs.firstDataBlock.toNat = 0 := by
  have hpos := fs.opens.blocksPerGroup_pos
  unfold groupFirstBlock2
  rw [Nat.add_eq_zero_iff, Nat.mul_eq_zero]
  omega

theorem groupBlock_eq_zero :
    fs.groupBlock g = 0 ↔ g = 0 ∧ fs.firstDataBlock.toNat = 0 ∧ fs.blocksize ≠ 1024 := by
  have h0 := fs.groupFirstBlock2_eq_zero g
  simp only [groupBlock]
  split
  · omega
  · omega

/-- The entry of a superblock copy is the copy that the library reports, and is
there exactly if the group has one. -/
def LocatesSuper : Prop :=
  ∀ dict, ∃ entry, fs.findSuperAndBgd g dict (fileKey .superblock g) = some entry ∧
    (0 ≤ entry.offset ↔ fs.bgHasSuper g = true) ∧
    (fs.bgHasSuper g = true →
      entry.offset = ((fs.superAndBgdLoc2 g).superBlk * fs.blocksize : Nat))

theorem locatesSuper_iff_superOffset :
    fs.LocatesSuper g ↔ (0 ≤ fs.superOffset g ↔ fs.bgHasSuper g = true) ∧
      (fs.bgHasSuper g = true →
        fs.superOffset g = ((fs.superAndBgdLoc2 g).superBlk * fs.blocksize : Nat)) := by
  have hkey := fs.findSuperAndBgd_fileKey g (s := superblock)
  constructor
  · intro h
    obtain ⟨entry, he, h⟩ := h fun _ => none
    rw [hkey _ (by decide)] at he
    cases he
    exact h
  · intro h dict
    exact ⟨_, hkey dict (by decide), h⟩

/-- A copy is located unless it is at block 0, or is hidden by the boot block of
a bigalloc image, or is too far away for a `long long`. -/
theorem findSuperAndBgd_locatesSuper :
    fs.LocatesSuper g ↔
      (fs.bgHasSuper g = true →
        ¬(g = 0 ∧ fs.firstDataBlock.toNat = 0 ∧ fs.blocksize ≠ 1024) ∧
        ¬(g = 0 ∧ fs.blocksize = 1024 ∧ 1 < fs.clusterRatio) ∧
        fs.groupBlock g * fs.blocksize < 2 ^ 63) := by
  rw [locatesSuper_iff_superOffset, ← groupBlock_eq_zero]
  have hsuper := fs.superAndBgdLoc2_superBlk g
  cases hs : fs.bgHasSuper g with
  | false =>
    rw [hs, if_neg (by decide)] at hsuper
    simp [superOffset, hsuper]
  | true =>
    rw [hs, if_pos rfl] at hsuper
    rw [hsuper]
    have hbs : 0 < fs.blocksize := Nat.mul_pos (by decide) (Nat.two_pow_pos _)
    simp only [superOffset, hsuper, forall_const, iff_true]
    by_cases h0 : fs.groupBlock g = 0
    · simp [h0]
    · have hne : fs.groupBlock g * fs.blocksize ≠ 0 := Nat.mul_ne_zero h0 (by omega)
      by_cases hboot : g = 0 ∧ fs.blocksize = 1024 ∧ 1 < fs.clusterRatio
      · rw [if_neg h0, if_pos hboot]
        constructor
        · intro h
          omega
        · intro h
          exact (h.2.1 hboot).elim
      · simp only [h0, hboot, if_false, not_false_eq_true, true_and, byteOffset, toInt64_eq_iff]
        constructor
        · exact And.right
        · intro hlt
          rw [toInt64_eq_iff.2 hlt]
          exact ⟨by omega, hlt⟩

/-- The superblock of an image with blocks of 4096 bytes is recorded as absent. -/
theorem oneGroup_not_locatesSuper : ¬oneGroup.LocatesSuper 0 := by
  rw [locatesSuper_iff_superOffset]
  intro h
  have hneg : ¬0 ≤ oneGroup.superOffset 0 := by decide
  exact hneg (h.1.2 rfl)

end Filsys

end ConFuzz
