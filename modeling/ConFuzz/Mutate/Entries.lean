import ConFuzz.Model.Mutate
import Mathlib.Data.List.Basic

/-!
# What the locator files

`record fs s g` is the entry that the locator files for the structure `s` of
group `g`. One pass of its loop files the structures `filed` of one group
(`findGroup_eq`) and changes nothing else (`findGroup_apply`).

`owner n key` is the last structure of the groups below `n` with a given key, a
function of the two numbers alone, and the table after the loop is `record` over
it (`findMetadataBlocks_apply`). As long as the keys do not wrap, every filed
structure owns its key, and no key of an inode table is owned.
-/

namespace ConFuzz

open ConFuzz.CLib LevelOneStructure

/-! ## Keys -/

theorem fileKey_inj {s s' : LevelOneStructure} {g : Nat} (h : fileKey s g = fileKey s' g) :
    s = s' := by
  cases s <;> cases s' <;> simp only [fileKey, num, kNum] at h <;> first | rfl | omega

@[simp] theorem fileKey_eq_iff {s s' : LevelOneStructure} {g : Nat} :
    fileKey s g = fileKey s' g ↔ s = s' := ⟨fileKey_inj, fun h => h ▸ rfl⟩

theorem num_lt (s : LevelOneStructure) : s.num < kNum := by
  cases s <;> decide

theorem exists_num {n : Nat} (h : n < kNum) : ∃ s : LevelOneStructure, s.num = n := by
  have hall : ∀ n < kNum, ∃ s ∈ LevelOneStructure.all, s.num = n := by decide
  obtain ⟨s, -, hs⟩ := hall n h
  exact ⟨s, hs⟩

theorem fileKey_eq {s : LevelOneStructure} {g n : Nat} (hn : kNum * n < 2 ^ 32) (hg : g < n) :
    fileKey s g = s.num + kNum * g := by
  have := num_lt s
  unfold fileKey
  unfold kNum at *
  omega

/-! ## Entries -/

namespace MetaDict

theorem put_apply (dict : MetaDict) (k : Nat) (offset : Int) (length K : Nat) :
    dict.put k offset length K = if K = k then some ⟨offset, length⟩ else dict K := by
  simp only [put, Function.update_apply]

@[simp] theorem put_put (dict : MetaDict) (k : Nat) (offset offset' : Int) (length length' : Nat) :
    (dict.put k offset length).put k offset' length' = dict.put k offset' length' := by
  simp [put]

theorem put_comm (dict : MetaDict) {k k' : Nat} (h : k ≠ k') (offset offset' : Int)
    (length length' : Nat) :
    (dict.put k offset length).put k' offset' length' =
      (dict.put k' offset' length').put k offset length := by
  simp only [put]
  rw [Function.update_comm h]

end MetaDict

namespace Filsys

variable (fs : Filsys)

/-- The offset that is left of the three writes of a superblock entry. -/
def superOffset (g : Nat) : Int :=
  if (fs.superAndBgdLoc2 g).superBlk = 0 then -1
  else if g = 0 ∧ fs.blocksize = 1024 ∧ 1 < fs.clusterRatio then 0
  else fs.byteOffset (fs.superAndBgdLoc2 g).superBlk

/-- The entry filed for a structure; the block bitmap's is the inode table's. -/
def record (s : LevelOneStructure) (g : Nat) : OffsetLength :=
  let loc := fs.superAndBgdLoc2 g
  match s with
  | superblock => ⟨fs.superOffset g, fs.blocksize⟩
  | bgd => ⟨if loc.oldDescBlk ≠ 0 then fs.byteOffset loc.oldDescBlk else -1, fs.extDescSize⟩
  | gdt =>
    if loc.oldDescBlk ≠ 0 then
      ⟨fs.byteOffset (loc.oldDescBlk + 1),
        toU32 (toU32 (fs.numBlocks loc.oldDescBlk) * fs.blocksize : Nat)⟩
    else ⟨-1, fs.extDescSize⟩
  | metaBg =>
    ⟨if loc.newDescBlk ≠ 0 then fs.byteOffset loc.newDescBlk else -1,
      fs.descPerBlock * fs.extDescSize⟩
  | blockBitmap | inodeTable =>
    ⟨fs.byteOffset (fs.inodeTableLoc g),
      toU32 (fs.blocksize * fs.inodeBlocksPerGroup.toNat : Nat)⟩
  | inodeBitmap => ⟨fs.byteOffset (fs.inodeBitmapLoc g), fs.blocksize⟩

def file (g : Nat) (dict : MetaDict) (s : LevelOneStructure) : MetaDict :=
  dict.put (fileKey s g) (fs.record s g).offset (fs.record s g).length

theorem file_apply (g : Nat) (dict : MetaDict) (s : LevelOneStructure) (K : Nat) :
    fs.file g dict s K = if K = fileKey s g then some (fs.record s g) else dict K :=
  MetaDict.put_apply ..

/-- The three writes are one. -/
theorem writeSuper_eq (g : Nat) (dict : MetaDict) :
    fs.writeSuper g (fs.superAndBgdLoc2 g).superBlk dict = fs.file g dict superblock := by
  simp only [writeSuper, file, record, superOffset]
  by_cases h0 : (fs.superAndBgdLoc2 g).superBlk = 0
  · simp only [h0, if_true]
    split <;> split <;> simp
  · simp only [h0, if_false, ne_eq, not_false_eq_true, true_or, if_true]
    split <;> simp

theorem writeOldDesc_eq (g : Nat) (dict : MetaDict) :
    fs.writeOldDesc g (fs.superAndBgdLoc2 g).oldDescBlk dict =
      fs.file g (fs.file g dict bgd) gdt := by
  simp only [writeOldDesc, file, record]
  split <;> rfl

theorem writeNewDesc_eq (g : Nat) (dict : MetaDict) :
    fs.writeNewDesc g (fs.superAndBgdLoc2 g).newDescBlk dict = fs.file g dict metaBg := by
  simp only [writeNewDesc, file, record]
  split <;> rfl

theorem findSuperAndBgd_eq (g : Nat) (dict : MetaDict) :
    fs.findSuperAndBgd g dict = [superblock, bgd, gdt, metaBg].foldl (fs.file g) dict := by
  simp only [findSuperAndBgd, writeSuper_eq, writeOldDesc_eq, writeNewDesc_eq, List.foldl_cons,
    List.foldl_nil]

def filed : List LevelOneStructure := [superblock, bgd, gdt, metaBg, blockBitmap, inodeBitmap]

/-- A pass of the loop. The block bitmap's own entry does not survive it. -/
theorem findGroup_eq (dict : MetaDict) (g : Nat) :
    fs.findGroup dict g = filed.foldl (fs.file g) dict := by
  unfold findGroup
  rw [findSuperAndBgd_eq]
  simp only [filed, List.foldl_cons, List.foldl_nil]
  rw [MetaDict.put_comm _ (by simp), MetaDict.put_put]
  rfl

/-- The filed structure of group `g` with the key `K`. -/
def slotOf (g K : Nat) : Option LevelOneStructure := filed.find? fun s => fileKey s g = K

theorem foldl_file_apply (g K : Nat) (l : List LevelOneStructure) (dict : MetaDict) :
    l.foldl (fs.file g) dict K =
      match l.find? (fun s => fileKey s g = K) with
      | some s => some (fs.record s g)
      | none => dict K := by
  induction l generalizing dict with
  | nil => rfl
  | cons s l ih =>
    rw [List.foldl_cons, ih, List.find?_cons]
    by_cases hs : fileKey s g = K
    · cases hl : l.find? (fun s => fileKey s g = K) with
      | none => simp [hs, file_apply]
      | some s' =>
        have hs' : fileKey s' g = K := by simpa using List.find?_some hl
        obtain rfl : s = s' := fileKey_inj (hs.trans hs'.symm)
        simp [hs]
    · cases hl : l.find? (fun s => fileKey s g = K) with
      | none =>
        have hs' : ¬K = fileKey s g := fun h => hs h.symm
        simp [hs, file_apply, hs']
      | some s' => simp [hs]

theorem findGroup_apply (dict : MetaDict) (g K : Nat) :
    fs.findGroup dict g K =
      match slotOf g K with
      | some s => some (fs.record s g)
      | none => dict K := by
  rw [findGroup_eq]
  exact foldl_file_apply fs g K filed dict

theorem findSuperAndBgd_fileKey (g : Nat) (dict : MetaDict) {s : LevelOneStructure}
    (hs : s ∈ [superblock, bgd, gdt, metaBg]) :
    fs.findSuperAndBgd g dict (fileKey s g) = some (fs.record s g) := by
  have hfind : [superblock, bgd, gdt, metaBg].find? (fun s' => fileKey s' g = fileKey s g) =
      some s := by
    simp only [fileKey_eq_iff]
    revert hs
    cases s <;> decide
  rw [findSuperAndBgd_eq, foldl_file_apply, hfind]

/-! ## The table -/

/-- The structure whose entry a key of the first `n` groups holds. -/
def owner : Nat → Nat → Option (LevelOneStructure × Nat)
  | 0, _ => none
  | n + 1, K =>
    match slotOf n K with
    | some s => some (s, n)
    | none => owner n K

/-- The table after `n` passes of the loop. -/
theorem foldl_findGroup_apply (K n : Nat) :
    (List.range n).foldl fs.findGroup (fun _ => none) K =
      (owner n K).map fun o => fs.record o.1 o.2 := by
  induction n with
  | zero => rfl
  | succ n ih =>
    rw [List.range_succ, List.foldl_append, List.foldl_cons, List.foldl_nil, findGroup_apply, owner]
    cases slotOf n K with
    | some s => rfl
    | none => exact ih

theorem findMetadataBlocks_apply (K : Nat) :
    fs.findMetadataBlocks K =
      (owner fs.groupDescCount K).map fun o => fs.record o.1 o.2 :=
  foldl_findGroup_apply fs K _

/-! ## Owners -/

theorem mem_filed (s : LevelOneStructure) : s ∈ filed ↔ s ≠ inodeTable := by
  cases s <;> decide

theorem slotOf_eq_some {g K : Nat} {s : LevelOneStructure} (h : slotOf g K = some s) :
    s ≠ inodeTable ∧ fileKey s g = K := by
  refine ⟨(mem_filed s).1 (List.mem_of_find?_eq_some h), ?_⟩
  simpa using List.find?_some h

theorem slotOf_fileKey {s : LevelOneStructure} (hs : s ≠ inodeTable) (g : Nat) :
    slotOf g (fileKey s g) ≠ none := by
  intro h
  have hall := List.find?_eq_none.1 h s ((mem_filed s).2 hs)
  simp at hall

theorem owner_spec {K : Nat} {s : LevelOneStructure} {g : Nat} :
    ∀ {n : Nat}, owner n K = some (s, g) → g < n ∧ s ≠ inodeTable ∧ fileKey s g = K := by
  intro n
  induction n with
  | zero => intro h; cases h
  | succ n ih =>
    intro h
    rw [owner] at h
    cases hs : slotOf n K with
    | some s' =>
      rw [hs] at h
      cases h
      exact ⟨Nat.lt_succ_self g, slotOf_eq_some hs⟩
    | none =>
      rw [hs] at h
      obtain ⟨hg, h⟩ := ih h
      exact ⟨by omega, h⟩

theorem owner_ne_none {s : LevelOneStructure} {g : Nat} (hs : s ≠ inodeTable) :
    ∀ {n : Nat}, g < n → owner n (fileKey s g) ≠ none := by
  intro n
  induction n with
  | zero => intro h; omega
  | succ n ih =>
    intro h hnone
    rw [owner] at hnone
    cases hslot : slotOf n (fileKey s g) with
    | some s' => rw [hslot] at hnone; cases hnone
    | none =>
      rw [hslot] at hnone
      have hne : g ≠ n := by
        rintro rfl
        exact slotOf_fileKey hs g hslot
      exact ih (by omega) hnone

section Unwrapped

variable {n : Nat} (hn : kNum * n < 2 ^ 32)
include hn

theorem fileKey_unwrapped_inj {s s' : LevelOneStructure} {g g' : Nat} (hg : g < n) (hg' : g' < n)
    (h : fileKey s g = fileKey s' g') : s = s' ∧ g = g' := by
  rw [fileKey_eq hn hg, fileKey_eq hn hg'] at h
  have hgg : g = g' := by
    have := num_lt s
    have := num_lt s'
    unfold kNum at *
    omega
  subst hgg
  refine ⟨?_, rfl⟩
  have hnum : s.num = s'.num := by omega
  cases s <;> cases s' <;> first | rfl | cases hnum

theorem owner_fileKey {s : LevelOneStructure} {g : Nat} (hs : s ≠ inodeTable) (hg : g < n) :
    owner n (fileKey s g) = some (s, g) := by
  cases h : owner n (fileKey s g) with
  | none => exact (owner_ne_none hs hg h).elim
  | some o =>
    obtain ⟨hg', -, hkey⟩ := owner_spec h
    obtain ⟨h1, h2⟩ := fileKey_unwrapped_inj hn hg' hg hkey
    exact congrArg some (Prod.ext h1 h2)

theorem owner_inodeTable {g : Nat} (hg : g < n) : owner n (fileKey inodeTable g) = none := by
  cases h : owner n (fileKey inodeTable g) with
  | none => rfl
  | some o =>
    obtain ⟨hg', hs, hkey⟩ := owner_spec h
    exact (hs (fileKey_unwrapped_inj hn hg' hg hkey).1).elim

theorem owner_isSome_iff (K : Nat) :
    (∃ o, owner n K = some o) ↔ K < kNum * n ∧ K % kNum ≠ inodeTable.num := by
  constructor
  · rintro ⟨⟨s, g⟩, ho⟩
    obtain ⟨hg, hs, hkey⟩ := owner_spec ho
    rw [fileKey_eq hn hg] at hkey
    have hnum := num_lt s
    have hne : s.num ≠ inodeTable.num := by
      revert hs
      cases s <;> decide
    unfold kNum at *
    omega
  · rintro ⟨hlt, hmod⟩
    have hg : K / kNum < n := Nat.div_lt_of_lt_mul hlt
    obtain ⟨s, hnum⟩ := exists_num (Nat.mod_lt K (by decide : 0 < kNum))
    have hs : s ≠ inodeTable := by
      rintro rfl
      exact hmod hnum.symm
    have hkey : fileKey s (K / kNum) = K := by
      rw [fileKey_eq hn hg, hnum]
      exact Nat.mod_add_div K kNum
    exact ⟨_, hkey ▸ owner_fileKey hn hs hg⟩

end Unwrapped

theorem findMetadataBlocks_fileKey {s : LevelOneStructure} {g : Nat}
    (hn : kNum * fs.groupDescCount < 2 ^ 32) (hs : s ≠ inodeTable) (hg : g < fs.groupDescCount) :
    fs.findMetadataBlocks (fileKey s g) = some (fs.record s g) := by
  rw [findMetadataBlocks_apply, owner_fileKey hn hs hg]
  rfl

theorem findMetadataBlocks_inodeTable {g : Nat} (hn : kNum * fs.groupDescCount < 2 ^ 32)
    (hg : g < fs.groupDescCount) : fs.findMetadataBlocks (fileKey inodeTable g) = none := by
  rw [findMetadataBlocks_apply, owner_inodeTable hn hg]
  rfl

/-! ## An image with one group -/

/-- An image of 8192 blocks of 4096 bytes, laid out as `mke2fs` does. -/
def oneGroup : Filsys where
  logBlockSize := 2
  clusterRatioBits := 0
  firstDataBlock := 0
  blocksPerGroup := 32768
  blocksCount := 8192
  descSize := 0
  reservedGdtBlocks := 1
  firstMetaBg := 0
  backupBgs := (0, 0)
  sparseSuper := true
  sparseSuper2 := false
  metaBg := false
  bit64 := false
  inodeBlocksPerGroup := 512
  groupDesc _ := ⟨3, 4, 5, 0, 0, 0⟩
  opens := by constructor <;> decide

end Filsys

end ConFuzz
