import ConFuzz.Mutate.Entries

/-!
# The labels of the table

The table should file every structure under its own key. For the bitmaps and the
inode table it does not: the locator files the inode table of a group over its
block bitmap, so that the block bitmap is lost and the key of the inode table is
never filed.
-/

namespace ConFuzz

open ConFuzz.CLib LevelOneStructure

namespace Filsys

/-- The entries of the bitmaps and of the inode table of a group are those of the
structures that their keys name. -/
structure Labelled (fs : Filsys) (g : Nat) : Prop where
  blockBitmap : fs.findMetadataBlocks (fileKey .blockBitmap g) =
    some ⟨(fs.blockBitmapLoc g * fs.blocksize : Nat), fs.blocksize⟩
  inodeBitmap : fs.findMetadataBlocks (fileKey .inodeBitmap g) =
    some ⟨(fs.inodeBitmapLoc g * fs.blocksize : Nat), fs.blocksize⟩
  inodeTable : fs.findMetadataBlocks (fileKey .inodeTable g) =
    some ⟨(fs.inodeTableLoc g * fs.blocksize : Nat),
      fs.blocksize * fs.inodeBlocksPerGroup.toNat⟩

/-- No group is labelled: the key of its inode table is missing. -/
theorem findMetadataBlocks_mislabels (fs : Filsys) (g : Nat)
    (hn : kNum * fs.groupDescCount < 2 ^ 32) (hg : g < fs.groupDescCount) : ¬fs.Labelled g := by
  intro h
  have hnone := fs.findMetadataBlocks_inodeTable hn hg
  rw [h.inodeTable] at hnone
  cases hnone

theorem oneGroup_mislabels : ¬oneGroup.Labelled 0 :=
  findMetadataBlocks_mislabels oneGroup 0 (by decide) (by decide)

/-- The block bitmap of the image is lost, and its key reads as the inode table. -/
theorem oneGroup_not_labelled :
    kNum * oneGroup.groupDescCount < 2 ^ 32 ∧ 0 < oneGroup.groupDescCount ∧
      ¬oneGroup.Labelled 0 := by
  refine ⟨by decide, by decide, fun h => ?_⟩
  have hfile := oneGroup.findMetadataBlocks_fileKey (s := .blockBitmap) (g := 0) (by decide)
    (by decide) (by decide)
  rw [h.blockBitmap] at hfile
  revert hfile
  decide

end Filsys

end ConFuzz
