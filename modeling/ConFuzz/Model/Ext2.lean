import ConFuzz.Model.Table

/-!
# The file system that `process_fs` opens

`Super` holds the fields of `struct ext2_super_block` that the locator reads, and
`Super.Opens` the checks of `ext2fs_open` on them; a `Filsys` is a superblock
that passes. `blk64_t` and `dgrp_t` values are naturals. A group number is below
`2 ^ 32`, so the block number `s_first_data_block + s_blocks_per_group * group`
fits 64 bits.

`ext2fs_reserve_super_and_bgd` is the library's own marking of the blocks of a
group in a block bitmap. `ReservesDesc` is the part of it that marks descriptor
blocks. The bitmap is one with 64-bit block numbers, as `ext2fs_open` makes them
for `EXT2_FLAG_64BITS`; it has a bit for each block, or for each cluster.
-/

namespace ConFuzz

def toU32 (x : Int) : Nat := (x % 2 ^ 32).toNat

def toInt64 (x : Int) : Int := (x + 2 ^ 63) % 2 ^ 64 - 2 ^ 63

theorem toInt64_eq_iff {n : Nat} : toInt64 n = n ↔ n < 2 ^ 63 := by
  unfold toInt64
  omega

theorem toInt64_eq_of_nonneg {n : Nat} (h : 0 ≤ toInt64 n) : toInt64 n = (n % 2 ^ 64 : Nat) := by
  unfold toInt64 at *
  omega

theorem toU32_natCast (n : Nat) : toU32 n = n % 2 ^ 32 := by
  unfold toU32
  omega

theorem toU32_lt (x : Int) : toU32 x < 2 ^ 32 := by
  unfold toU32
  omega

/-- The locations in `struct ext4_group_desc`, with their high halves. -/
structure GroupDesc where
  bgBlockBitmap : UInt32
  bgInodeBitmap : UInt32
  bgInodeTable : UInt32
  bgBlockBitmapHi : UInt32
  bgInodeBitmapHi : UInt32
  bgInodeTableHi : UInt32

structure Super where
  logBlockSize : Nat
  clusterRatioBits : Nat
  firstDataBlock : UInt32
  blocksPerGroup : UInt32
  blocksCount : UInt64
  descSize : UInt16
  reservedGdtBlocks : UInt16
  firstMetaBg : UInt32
  backupBgs : UInt32 × UInt32
  sparseSuper : Bool
  sparseSuper2 : Bool
  metaBg : Bool
  bit64 : Bool
  inodeBlocksPerGroup : UInt32
  groupDesc : Nat → GroupDesc

namespace Super

/-- `EXT2_BLOCK_SIZE`. -/
def blocksize (sb : Super) : Nat := 1024 * 2 ^ sb.logBlockSize

/-- `EXT2FS_CLUSTER_RATIO`. -/
def clusterRatio (sb : Super) : Nat := 2 ^ sb.clusterRatioBits

/-- `EXT2_DESC_SIZE`. -/
def extDescSize (sb : Super) : Nat := if sb.bit64 then sb.descSize.toNat else 32

/-- `EXT2_DESC_PER_BLOCK`. -/
def descPerBlock (sb : Super) : Nat := sb.blocksize / sb.extDescSize

/-- `ext2fs_div_ceil`, and `ext2fs_div64_ceil`. -/
def divCeil (a b : Nat) : Nat := if a = 0 then 0 else (a - 1) / b + 1

/-- `group_desc_count`. -/
def groupDescCount (sb : Super) : Nat :=
  divCeil (sb.blocksCount.toNat - sb.firstDataBlock.toNat) sb.blocksPerGroup.toNat

def descBlocks (sb : Super) : Nat := divCeil sb.groupDescCount sb.descPerBlock

/-- The checks of `ext2fs_open`. A cluster is no smaller than a block and its
size fits 32 bits, or no `s_blocks_per_group` passes. -/
structure Opens (sb : Super) : Prop where
  logBlockSize_le : sb.logBlockSize ≤ 6
  cluster_le : sb.logBlockSize + sb.clusterRatioBits ≤ 21
  descSize_ge : sb.bit64 = true → 64 ≤ sb.descSize.toNat
  descSize_old : sb.bit64 = false → sb.descSize = 0 ∨ sb.descSize = 32
  descPerBlock_pos : 0 < sb.descPerBlock
  blocksPerGroup_pos : 0 < sb.blocksPerGroup.toNat
  blocksPerGroup_le : sb.blocksPerGroup.toNat ≤ (2 ^ 16 - 8) * sb.clusterRatio % 2 ^ 32
  inodeBlocks_lt : sb.inodeBlocksPerGroup.toNat < 2 ^ 16
  firstDataBlock_lt : sb.firstDataBlock.toNat < sb.blocksCount.toNat
  groupDescCount_lt : sb.groupDescCount < 2 ^ 32

end Super

structure Filsys extends Super where
  opens : toSuper.Opens

/-! ## Superblock copies -/

/-- `test_root`: whether `a` is a positive power of `b`. -/
def testRoot (a b : Nat) (hb : 2 ≤ b) : Bool :=
  if a < b then false
  else if a = b then true
  else if a % b ≠ 0 then false
  else testRoot (a / b) b hb
termination_by a
decreasing_by exact Nat.div_lt_self (by omega) hb

namespace Filsys

def bgHasSuper (fs : Filsys) (group : Nat) : Bool :=
  if group = 0 then true
  else if fs.sparseSuper2 then
    group = fs.backupBgs.1.toNat || group = fs.backupBgs.2.toNat
  else if group ≤ 1 || !fs.sparseSuper then true
  else if group % 2 = 0 then false
  else testRoot group 3 (by omega) || testRoot group 5 (by omega) || testRoot group 7 (by omega)

def groupFirstBlock2 (fs : Filsys) (group : Nat) : Nat :=
  fs.firstDataBlock.toNat + fs.blocksPerGroup.toNat * group

/-- The descriptor blocks after a superblock copy, the reserved ones included. -/
def oldDescBlocks (fs : Filsys) : Nat :=
  if fs.metaBg then fs.firstMetaBg.toNat else fs.descBlocks + fs.reservedGdtBlocks.toNat

/-- What `ext2fs_super_and_bgd_loc2` returns. -/
structure SuperAndBgd where
  superBlk : Nat
  oldDescBlk : Nat
  newDescBlk : Nat
  usedBlks : Nat

/-- `group_block` of `ext2fs_super_and_bgd_loc2`. -/
def groupBlock (fs : Filsys) (group : Nat) : Nat :=
  let groupBlock := fs.groupFirstBlock2 group
  -- block 0 of a bigalloc file system with 1024 byte blocks is the boot block
  if groupBlock = 0 ∧ fs.blocksize = 1024 then 1 else groupBlock

def superAndBgdLoc2 (fs : Filsys) (group : Nat) : SuperAndBgd :=
  let groupBlock := fs.groupBlock group
  let hasSuper := fs.bgHasSuper group
  let superBlk := if hasSuper then groupBlock else 0
  let numblocks := if hasSuper then 1 else 0
  let metaBgSize := fs.descPerBlock
  let metaBg := group / metaBgSize
  if !fs.metaBg || metaBg < fs.firstMetaBg.toNat then
    if hasSuper then
      ⟨superBlk, groupBlock + 1, 0, (numblocks + fs.oldDescBlocks) % 2 ^ 32⟩
    else ⟨superBlk, 0, 0, numblocks⟩
  else if group % metaBgSize = 0 ∨ group % metaBgSize = 1 ∨ group % metaBgSize = metaBgSize - 1 then
    ⟨superBlk, 0, groupBlock + (if hasSuper then 1 else 0), numblocks + 1⟩
  else ⟨superBlk, 0, 0, numblocks⟩

/-! ## The blocks of a group -/

/-- A location of a group descriptor; the high half counts with `64bit` only. -/
def loc (fs : Filsys) (lo hi : UInt32) : Nat :=
  lo.toNat ||| (if fs.bit64 then hi.toNat <<< 32 else 0)

def blockBitmapLoc (fs : Filsys) (group : Nat) : Nat :=
  fs.loc (fs.groupDesc group).bgBlockBitmap (fs.groupDesc group).bgBlockBitmapHi

def inodeBitmapLoc (fs : Filsys) (group : Nat) : Nat :=
  fs.loc (fs.groupDesc group).bgInodeBitmap (fs.groupDesc group).bgInodeBitmapHi

def inodeTableLoc (fs : Filsys) (group : Nat) : Nat :=
  fs.loc (fs.groupDesc group).bgInodeTable (fs.groupDesc group).bgInodeTableHi

/-- `num_blocks` of a descriptor copy at `oldDescBlk`, clipped to the block count;
the same in `ext2fs_reserve_super_and_bgd` and in `find_super_and_bgd`. -/
def numBlocks (fs : Filsys) (oldDescBlk : Nat) : Int :=
  let numBlocks := toInt32 fs.oldDescBlocks
  if fs.blocksCount.toNat ≤ toU64 (oldDescBlk + numBlocks) then
    toInt32 (fs.blocksCount.toNat - oldDescBlk)
  else numBlocks

/-- The check of `ext2fs_mark_block_bitmap_range2` on a bitmap with clusters of
`2 ^ clusterBits` blocks: a range that is not inside is not marked at all. -/
def AcceptsRange (fs : Filsys) (clusterBits block num : Nat) : Prop :=
  let first := block >>> clusterBits
  let num := toU32 ((block + num + (2 ^ clusterBits - 1)) >>> clusterBits - first : Nat)
  fs.firstDataBlock.toNat >>> clusterBits ≤ first ∧
    -- at 0 the last cluster of an empty range would be `2 ^ 64 - 1`
    0 < first + num ∧ first + num - 1 ≤ (fs.blocksCount.toNat - 1) >>> clusterBits

instance (fs : Filsys) (clusterBits block num : Nat) :
    Decidable (fs.AcceptsRange clusterBits block num) := inferInstanceAs (Decidable (_ ∧ _))

/-- The check of `ext2fs_mark_block_bitmap2`. -/
def AcceptsBlock (fs : Filsys) (clusterBits block : Nat) : Prop :=
  fs.firstDataBlock.toNat >>> clusterBits ≤ block >>> clusterBits ∧
    block >>> clusterBits ≤ (fs.blocksCount.toNat - 1) >>> clusterBits

instance (fs : Filsys) (clusterBits block : Nat) : Decidable (fs.AcceptsBlock clusterBits block) :=
  inferInstanceAs (Decidable (_ ∧ _))

/-- `ext2fs_reserve_super_and_bgd` marks `blk` as a descriptor block of `group`. The `int`
`num_blocks` is passed on as an `unsigned int`. -/
def ReservesDesc (fs : Filsys) (clusterBits group blk : Nat) : Prop :=
  let loc := fs.superAndBgdLoc2 group
  let num := toU32 (fs.numBlocks loc.oldDescBlk)
  (loc.oldDescBlk ≠ 0 ∧ fs.AcceptsRange clusterBits loc.oldDescBlk num ∧
      loc.oldDescBlk ≤ blk ∧ blk < loc.oldDescBlk + num) ∨
    (loc.newDescBlk ≠ 0 ∧ fs.AcceptsBlock clusterBits loc.newDescBlk ∧ blk = loc.newDescBlk)

instance (fs : Filsys) (clusterBits group blk : Nat) :
    Decidable (fs.ReservesDesc clusterBits group blk) := inferInstanceAs (Decidable (_ ∨ _))

end Filsys

end ConFuzz
