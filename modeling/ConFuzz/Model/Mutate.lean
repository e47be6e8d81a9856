import ConFuzz.Model.Ext2

/-!
# The image mutator

The program of `test.cc`. `findMetadataBlocks` files the location of every
metadata structure of every block group in `meta_dict`, and
`levelOneImageMutation` draws keys until it meets one with a location and
overwrites four bytes there.

A key is computed in 32 bits. Reading a missing key of an `unordered_map` yields
a zero entry (and inserts it, which no later read can tell).
-/

namespace ConFuzz

open ConFuzz.CLib

/-- `struct offset_length`; the offset `-1` says that there is no such structure. -/
structure OffsetLength where
  offset : Int
  length : Nat
  deriving DecidableEq, Repr

abbrev MetaDict := Nat → Option OffsetLength

namespace MetaDict

/-- `meta_dict[key]`, read. -/
def get (dict : MetaDict) (key : Nat) : OffsetLength := (dict key).getD ⟨0, 0⟩

/-- `meta_dict[key] = {offset, length}`. -/
def put (dict : MetaDict) (key : Nat) (offset : Int) (length : Nat) : MetaDict :=
  Function.update dict key (some ⟨offset, length⟩)

end MetaDict

/-- `enum level_one_structures`. -/
inductive LevelOneStructure where
  | superblock
  | bgd
  | gdt
  | metaBg
  | blockBitmap
  | inodeBitmap
  | inodeTable
  deriving DecidableEq, Repr

namespace LevelOneStructure

def num : LevelOneStructure → Nat
  | superblock => 0
  | bgd => 1
  | gdt => 2
  | metaBg => 3
  | blockBitmap => 4
  | inodeBitmap => 5
  | inodeTable => 6

def name : LevelOneStructure → String
  | superblock => "superblock"
  | bgd => "bgd"
  | gdt => "GDT"
  | metaBg => "meta_bg"
  | blockBitmap => "block bitmap"
  | inodeBitmap => "inode bitmap"
  | inodeTable => "inode table"

def all : List LevelOneStructure :=
  [superblock, bgd, gdt, metaBg, blockBitmap, inodeBitmap, inodeTable]

def ofNum (n : Nat) : Option LevelOneStructure := all.find? fun s => s.num = n

end LevelOneStructure

def kNum : Nat := 7

/-- `level_one_structure_dict[n]`. -/
def levelOneStructureDict (n : Int) : String :=
  ((LevelOneStructure.ofNum n.toNat).map LevelOneStructure.name).getD ""

/-- `s + group * kNum`. -/
def fileKey (s : LevelOneStructure) (group : Nat) : Nat := (s.num + group * kNum) % 2 ^ 32

/-! ## The locator -/

namespace Filsys

/-- `blk * fs->blocksize`, stored as a `long long`. -/
def byteOffset (fs : Filsys) (blk : Nat) : Int := toInt64 (blk * fs.blocksize : Nat)

/-- The superblock entry of `find_super_and_bgd`: three writes, of which the last one that
applies stays. -/
def writeSuper (fs : Filsys) (group superBlk : Nat) (dict : MetaDict) : MetaDict :=
  let key := fileKey .superblock group
  let dict := if superBlk ≠ 0 ∨ group = 0 then
      dict.put key (fs.byteOffset superBlk) fs.blocksize
    else dict
  let dict := if group = 0 ∧ fs.blocksize = 1024 ∧ 1 < fs.clusterRatio then
      dict.put key 0 fs.blocksize
    else dict
  if superBlk = 0 then dict.put key (-1) fs.blocksize else dict

/-- The entries of the first descriptor and of the reserved GDT range. -/
def writeOldDesc (fs : Filsys) (group oldDescBlk : Nat) (dict : MetaDict) : MetaDict :=
  if oldDescBlk ≠ 0 then
    let numBlocks := fs.numBlocks oldDescBlk
    let dict := dict.put (fileKey .bgd group) (fs.byteOffset oldDescBlk) fs.extDescSize
    dict.put (fileKey .gdt group) (fs.byteOffset (oldDescBlk + 1))
      (toU32 (toU32 numBlocks * fs.blocksize : Nat))
  else
    let dict := dict.put (fileKey .bgd group) (-1) fs.extDescSize
    dict.put (fileKey .gdt group) (-1) fs.extDescSize

/-- The entry of the meta_bg descriptor block. -/
def writeNewDesc (fs : Filsys) (group newDescBlk : Nat) (dict : MetaDict) : MetaDict :=
  if newDescBlk ≠ 0 then
    dict.put (fileKey .metaBg group) (fs.byteOffset newDescBlk) (fs.descPerBlock * fs.extDescSize)
  else dict.put (fileKey .metaBg group) (-1) (fs.descPerBlock * fs.extDescSize)

def findSuperAndBgd (fs : Filsys) (group : Nat) (dict : MetaDict) : MetaDict :=
  let loc := fs.superAndBgdLoc2 group
  let dict := fs.writeSuper group loc.superBlk dict
  let dict := fs.writeOldDesc group loc.oldDescBlk dict
  fs.writeNewDesc group loc.newDescBlk dict

/-- The body of the loop of `find_metadata_blocks`. -/
def findGroup (fs : Filsys) (dict : MetaDict) (i : Nat) : MetaDict :=
  let dict := fs.findSuperAndBgd i dict
  let dict := dict.put (fileKey .blockBitmap i) (fs.byteOffset (fs.blockBitmapLoc i)) fs.blocksize
  let dict := dict.put (fileKey .inodeBitmap i) (fs.byteOffset (fs.inodeBitmapLoc i)) fs.blocksize
  -- the inode table is filed under the key of the block bitmap
  dict.put (fileKey .blockBitmap i) (fs.byteOffset (fs.inodeTableLoc i))
    (toU32 (fs.blocksize * fs.inodeBlocksPerGroup.toNat : Nat))

/-- `find_metadata_blocks`, on the empty table. -/
def findMetadataBlocks (fs : Filsys) : MetaDict :=
  (List.range fs.groupDescCount).foldl fs.findGroup fun _ => none

def fieldCount (fs : Filsys) : Nat := kNum * fs.groupDescCount % 2 ^ 32

end Filsys

/-! ## The mutation -/

/-- The results of `rand()`, between 0 and `RAND_MAX`. -/
abbrev RandSeq := Nat → Fin (2 ^ 31)

/-- `random(lo, hi)` with the result `r` of `rand()`. -/
def random (r : Fin (2 ^ 31)) (lo hi : Int) : Except Fault Int :=
  let m := toInt32 (hi - lo + 1)
  if m = 0 then .error .divByZero else .ok (Int.tmod r m + lo)

def levelOneStructureSelector (fieldCount : Nat) (r : Fin (2 ^ 31)) : Except Fault Int :=
  random r 0 (toInt32 fieldCount)

def int32ToChar (b : Int) : List Nat :=
  [(b / 2 ^ 24 % 256).toNat, (b / 2 ^ 16 % 256).toNat, (b / 2 ^ 8 % 256).toNat, (b % 256).toNat]

/-- What `level_one_image_mutation` prints and writes. -/
structure Mutation where
  key : Int
  name : String
  group : Int
  location : Int
  value : Int
  bytes : List Nat
  deriving Repr

/-- The loop that draws keys: the first one without a negative offset, with the number of the
draw after it. -/
def selectStructure (dict : MetaDict) (fieldCount : Nat) (rand : RandSeq) :
    Nat → Nat → Except Fault (Int × Nat)
  | 0, _ => .error .outOfFuel
  | fuel + 1, pos => do
    let structureNum ← levelOneStructureSelector fieldCount (rand pos)
    if 0 ≤ (dict.get (toU64 structureNum)).offset then return (structureNum, pos + 1)
    else selectStructure dict fieldCount rand fuel (pos + 1)

/-- The rest of `level_one_image_mutation`: a place in the structure, and the value for it. -/
def corruptStructure (dict : MetaDict) (rand : RandSeq) (structureNum : Int) (pos : Nat) :
    Except Fault Mutation := do
  let entry := dict.get (toU64 structureNum)
  let a ← random (rand pos) 0 (toInt32 (toU32 (entry.length - 4)))
  let b ← random (rand (pos + 1)) 0 0x7FFFFFF
  return {
    key := structureNum
    name := levelOneStructureDict (Int.tmod structureNum kNum)
    group := Int.tdiv structureNum kNum
    location := entry.offset + a
    value := b
    bytes := int32ToChar b }

def levelOneImageMutation (dict : MetaDict) (fieldCount : Nat) (rand : RandSeq) (fuel : Nat) :
    Except Fault Mutation := do
  let selected ← selectStructure dict fieldCount rand fuel 0
  corruptStructure dict rand selected.1 selected.2

/-- `process_fs` at mutation level 1, on an image that opens as `fs`. -/
def processFs (fs : Filsys) (rand : RandSeq) (fuel : Nat) : Except Fault Mutation :=
  levelOneImageMutation fs.findMetadataBlocks fs.fieldCount rand fuel

/-! ## The image -/

end ConFuzz
