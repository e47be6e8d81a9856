import Mathlib.Tactic.NormNum
import ConFuzz.Mutate.Image
import ConFuzz.Mutate.Super

/-!
# Superblock copies of a sparse file system

`test_root` decides powers, so with `sparse_super` the groups that hold a copy of
the superblock are 0 and the powers of 3, 5 and 7 (`bgHasSuper_sparse`). A run
that reports a superblock writes into one of these copies, with two exceptions
(`processFs_superblock`).
-/

namespace ConFuzz

open ConFuzz.CLib LevelOneStructure

/-- **`test_root` decides positive powers.** -/
theorem testRoot_iff {a b : Nat} (hb : 2 ≤ b) :
    testRoot a b hb = true ↔ ∃ k, 0 < k ∧ a = b ^ k := by
  induction a using Nat.strong_induction_on with
  | _ a ih =>
    unfold testRoot
    by_cases hlt : a < b
    · rw [if_pos hlt]
      refine ⟨fun h => absurd h Bool.false_ne_true, ?_⟩
      rintro ⟨k, hk, rfl⟩
      exact absurd (Nat.le_self_pow (Nat.ne_of_gt hk) b) (Nat.not_le.2 hlt)
    · rw [if_neg hlt]
      by_cases heq : a = b
      · rw [if_pos heq]
        exact ⟨fun _ => ⟨1, Nat.one_pos, by rw [heq, Nat.pow_one]⟩, fun _ => rfl⟩
      · rw [if_neg heq]
        by_cases hmod : a % b = 0
        · rw [if_neg (not_not.2 hmod), ih (a / b) (Nat.div_lt_self (by omega) hb)]
          have hdvd : a / b * b = a := Nat.div_mul_cancel (Nat.dvd_of_mod_eq_zero hmod)
          constructor
          · rintro ⟨k, hk, hpow⟩
            refine ⟨k + 1, Nat.succ_pos k, ?_⟩
            rw [Nat.pow_succ, ← hpow, hdvd]
          · rintro ⟨k, hk, rfl⟩
            obtain ⟨k, rfl⟩ := Nat.exists_eq_succ_of_ne_zero (Nat.ne_of_gt hk)
            refine ⟨k, Nat.pos_of_ne_zero ?_, ?_⟩
            · rintro rfl
              exact heq (Nat.pow_one b)
            · rw [Nat.pow_succ, Nat.mul_div_cancel _ (by omega)]
        · rw [if_pos hmod]
          refine ⟨fun h => absurd h Bool.false_ne_true, ?_⟩
          rintro ⟨k, hk, rfl⟩
          have hdvd : b ∣ b ^ k := Dvd.dvd.pow (Nat.dvd_refl b) (Nat.ne_of_gt hk)
          exact absurd (Nat.mod_eq_zero_of_dvd hdvd) hmod

/-- The groups that hold a backup of the superblock with `sparse_super`. -/
def SparseGroup (g : Nat) : Prop := ∃ k, g = 3 ^ k ∨ g = 5 ^ k ∨ g = 7 ^ k

namespace Filsys

variable {fs : Filsys} {g : Nat}

theorem bgHasSuper_sparse (hs : fs.sparseSuper = true) (hs2 : fs.sparseSuper2 = false) :
    fs.bgHasSuper g = true ↔ g = 0 ∨ SparseGroup g := by
  unfold bgHasSuper
  by_cases h0 : g = 0
  · simp [h0]
  · by_cases h1 : g ≤ 1
    · obtain rfl : g = 1 := by omega
      simp [hs2, SparseGroup]
      exact ⟨0, .inl rfl⟩
    · simp only [h0, hs2, hs, h1, if_false, Bool.false_eq_true, Bool.not_true, Bool.or_false,
        decide_false, false_or]
      have hroots : (testRoot g 3 (by omega) || testRoot g 5 (by omega) ||
          testRoot g 7 (by omega)) = true ↔ SparseGroup g := by
        rw [Bool.or_eq_true, Bool.or_eq_true, testRoot_iff, testRoot_iff, testRoot_iff]
        constructor
        · rintro ((⟨k, -, h⟩ | ⟨k, -, h⟩) | ⟨k, -, h⟩)
          · exact ⟨k, .inl h⟩
          · exact ⟨k, .inr (.inl h)⟩
          · exact ⟨k, .inr (.inr h)⟩
        · rintro ⟨k, h⟩
          have hk : 0 < k := by
            rcases Nat.eq_zero_or_pos k with rfl | hk
            · simp only [Nat.pow_zero, or_self] at h
              omega
            · exact hk
          rcases h with h | h | h
          · exact .inl (.inl ⟨k, hk, h⟩)
          · exact .inl (.inr ⟨k, hk, h⟩)
          · exact .inr ⟨k, hk, h⟩
      by_cases heven : g % 2 = 0
      · -- powers of odd numbers are odd
        rw [if_pos heven]
        refine ⟨fun h => absurd h Bool.false_ne_true, ?_⟩
        rintro ⟨k, rfl | rfl | rfl⟩ <;> rw [Nat.pow_mod] at heven <;> norm_num at heven
      · rw [if_neg heven]
        exact hroots

theorem groupFirstBlock2_lt (hg : g < fs.groupDescCount) :
    fs.groupFirstBlock2 g < fs.blocksCount.toNat := by
  have hlt := fs.opens.firstDataBlock_lt
  have hpos := fs.opens.blocksPerGroup_pos
  unfold Super.groupDescCount Super.divCeil at hg
  rw [if_neg (by omega), Nat.lt_succ_iff, Nat.le_div_iff_mul_le hpos, Nat.mul_comm] at hg
  unfold groupFirstBlock2
  omega

theorem groupBlock_le (hg : g < fs.groupDescCount) : fs.groupBlock g ≤ fs.blocksCount.toNat := by
  have hlt := groupFirstBlock2_lt hg
  simp only [groupBlock]
  split
  · omega
  · omega

/-- Four bytes in the copy of the superblock in a group. -/
def InCopy (fs : Filsys) (g : Nat) (location : Int) : Prop :=
  (fs.groupBlock g * fs.blocksize : Nat) ≤ location ∧
    location + 4 ≤ ((fs.groupBlock g + 1) * fs.blocksize : Nat)

/-- An entry of a superblock with a location is that of the boot block, or of a copy. -/
theorem record_superblock (hsize : fs.blocksCount.toNat * fs.blocksize < 2 ^ 63)
    (hg : g < fs.groupDescCount) (h0 : 0 ≤ (fs.record superblock g).offset) :
    fs.bgHasSuper g = true ∧
      ((g = 0 ∧ fs.blocksize = 1024 ∧ 1 < fs.clusterRatio ∧ (fs.record superblock g).offset = 0) ∨
        (fs.record superblock g).offset = (fs.groupBlock g * fs.blocksize : Nat)) := by
  have hsuper := fs.superAndBgdLoc2_superBlk g
  simp only [record, superOffset] at h0 ⊢
  by_cases hzero : (fs.superAndBgdLoc2 g).superBlk = 0
  · rw [if_pos hzero] at h0
    exact absurd h0 (by decide)
  · rw [if_neg hzero] at h0 ⊢
    have hhas : fs.bgHasSuper g = true := by
      by_contra hhas
      rw [if_neg hhas] at hsuper
      exact hzero hsuper
    rw [if_pos hhas] at hsuper
    refine ⟨hhas, ?_⟩
    by_cases hboot : g = 0 ∧ fs.blocksize = 1024 ∧ 1 < fs.clusterRatio
    · exact .inl ⟨hboot.1, hboot.2.1, hboot.2.2, if_pos hboot⟩
    · rw [if_neg hboot, hsuper, byteOffset, toInt64_eq_iff]
      exact .inr (Nat.lt_of_le_of_lt (Nat.mul_le_mul_right _ (groupBlock_le hg)) hsize)

/-- What a run reports, and where it writes. -/
theorem processFs_reports (hkeys : kNum * fs.groupDescCount < 2 ^ 32) {rand : RandSeq}
    {fuel : Nat} {m : Mutation} (h : processFs fs rand fuel = .ok m) :
    ∃ K a : Nat, K ≤ kNum * fs.groupDescCount ∧ 0 ≤ (fs.findMetadataBlocks.get K).offset ∧
      IsPlace (fs.findMetadataBlocks.get K) a ∧
      m.location = (fs.findMetadataBlocks.get K).offset + a ∧
      m.name = levelOneStructureDict (K % kNum : Nat) ∧ m.group = (K / kNum : Nat) := by
  have hcount : fs.fieldCount = kNum * fs.groupDescCount := Nat.mod_eq_of_lt hkeys
  have hne : fs.fieldCount ≠ 2 ^ 32 - 1 := by
    rw [hcount]
    unfold kNum
    omega
  unfold processFs levelOneImageMutation at h
  obtain ⟨⟨key, pos⟩, hselect, h⟩ := bind_eq_ok.1 h
  have h0 : 0 ≤ (fs.findMetadataBlocks.get (toU64 key)).offset := selectStructure_offset hselect
  obtain ⟨j, -, rfl, -⟩ := selectStructure_ok hne hselect
  unfold corruptStructure at h
  obtain ⟨a, ha, h⟩ := bind_eq_ok.1 h
  obtain ⟨b, -, h⟩ := bind_eq_ok.1 h
  obtain rfl := Except.ok.inj h
  obtain ⟨a, rfl, hplace⟩ := isPlace_of_random h0 ha
  have hle := drawnKey_le fs.fieldCount_lt hne (rand j)
  rw [toU64_drawnKey] at h0 hplace
  refine ⟨drawnKey fs.fieldCount (rand j), a, hcount ▸ hle, h0, hplace, ?_, ?_, ?_⟩
  · simp only [toU64_drawnKey]
  · rfl
  · rfl

theorem superblock_of_name {K : Nat} (h : levelOneStructureDict (K % kNum : Nat) = "superblock") :
    K % kNum = 0 := by
  have hall : ∀ n < kNum, levelOneStructureDict (n : Nat) = "superblock" → n = 0 := by decide
  exact hall _ (Nat.mod_lt _ (by decide)) h

theorem get_superblock {K : Nat} (hkeys : kNum * fs.groupDescCount < 2 ^ 32) (hmod : K % kNum = 0)
    (hg : K / kNum < fs.groupDescCount) :
    fs.findMetadataBlocks.get K = fs.record superblock (K / kNum) := by
  have hdiv : K = kNum * (K / kNum) := (Nat.mul_div_cancel' (Nat.dvd_of_mod_eq_zero hmod)).symm
  have hkey : fileKey superblock (K / kNum) = K := by
    rw [fileKey_eq hkeys hg, ← hdiv]
    exact Nat.zero_add K
  refine get_of_owner ?_
  rw [← owner_fileKey hkeys (s := superblock) (by decide) hg, hkey]

theorem get_behind {K : Nat} (hkeys : kNum * fs.groupDescCount < 2 ^ 32) (hmod : K % kNum = 0)
    (hlast : K / kNum = fs.groupDescCount) : fs.findMetadataBlocks.get K = ⟨0, 0⟩ := by
  have hdiv : K = kNum * (K / kNum) := (Nat.mul_div_cancel' (Nat.dvd_of_mod_eq_zero hmod)).symm
  refine get_of_owner_none ?_
  cases howner : owner fs.groupDescCount K with
  | none => rfl
  | some o =>
    have hlt := ((owner_isSome_iff hkeys K).1 ⟨o, howner⟩).1
    rw [hlast] at hdiv
    omega

end Filsys

open Filsys in
/-- **What is reported as a superblock is one.** On a file system with `sparse_super`, a run that
reports a superblock writes into the copy of its group, which is group 0 or a power of 3, 5 or 7.
The copy is in the first block of the group, or in block 1 where that is block 0 with 1024 bytes.
The exceptions are the boot block that the entry of group 0 stands for with bigalloc, and the key
behind the last group. -/
theorem processFs_superblock (fs : Filsys) (hs : fs.sparseSuper = true)
    (hs2 : fs.sparseSuper2 = false) (hkeys : kNum * fs.groupDescCount < 2 ^ 32)
    (hsize : fs.blocksCount.toNat * fs.blocksize < 2 ^ 63) (rand : RandSeq) (fuel : Nat)
    (m : Mutation) (h : processFs fs rand fuel = .ok m) (hname : m.name = "superblock") :
    (∃ g : Nat, m.group = g ∧ g < fs.groupDescCount ∧ (g = 0 ∨ SparseGroup g) ∧
      fs.InCopy g m.location) ∨
    (m.group = 0 ∧ fs.blocksize = 1024 ∧ 1 < fs.clusterRatio ∧ 0 ≤ m.location ∧
      m.location + 4 ≤ 1024) ∨
    (m.group = fs.groupDescCount ∧ 0 ≤ m.location ∧ m.location + 4 ≤ 6) := by
  obtain ⟨K, a, hK, h0, hplace, hloc, hreport, hgroup⟩ := processFs_reports hkeys h
  have hmod : K % kNum = 0 := superblock_of_name (hreport.symm.trans hname)
  by_cases hg : K / kNum < fs.groupDescCount
  · rw [get_superblock hkeys hmod hg] at h0 hplace hloc
    have hplace : a + 4 ≤ fs.blocksize := by
      have hpos := fs.blocksize_ge
      refine hplace.resolve_right ?_
      rintro ⟨hlength, -⟩
      have hlength : fs.blocksize = 0 := hlength
      omega
    obtain ⟨hhas, ⟨hzero, h1024, hratio, hoffset⟩ | hoffset⟩ := record_superblock hsize hg h0
    · refine .inr (.inl ⟨by rw [hgroup, hzero]; rfl, h1024, hratio, ?_, ?_⟩)
      · rw [hloc, hoffset]
        omega
      · rw [hloc, hoffset]
        omega
    · refine .inl ⟨K / kNum, hgroup, hg, (bgHasSuper_sparse hs hs2).1 hhas, ?_, ?_⟩
      · rw [hloc, hoffset]
        omega
      · rw [hloc, hoffset, Nat.add_mul, Nat.one_mul]
        omega
  · have hlast : K / kNum = fs.groupDescCount := by
      unfold kNum at *
      omega
    rw [get_behind hkeys hmod hlast] at hplace hloc
    have hplace : a ≤ 2 := (hplace.resolve_left (Nat.not_succ_le_zero _)).2
    refine .inr (.inr ⟨by rw [hgroup, hlast], ?_, ?_⟩)
    · rw [hloc]
      show 0 ≤ 0 + (a : Int)
      omega
    · rw [hloc]
      show 0 + (a : Int) + 4 ≤ 6
      omega

/-- An image of 16385 blocks of 1024 bytes, in two groups. -/
def Filsys.twoGroups : Filsys where
  logBlockSize := 0
  clusterRatioBits := 0
  firstDataBlock := 1
  blocksPerGroup := 8192
  blocksCount := 16385
  descSize := 0
  reservedGdtBlocks := 1
  firstMetaBg := 0
  backupBgs := (0, 0)
  sparseSuper := true
  sparseSuper2 := false
  metaBg := false
  bit64 := false
  inodeBlocksPerGroup := 256
  groupDesc g := ⟨UInt32.ofNat (8192 * g + 4), UInt32.ofNat (8192 * g + 5),
    UInt32.ofNat (8192 * g + 6), 0, 0, 0⟩
  opens := by constructor <;> decide

/-- The draw 7 is the superblock of group 1. -/
theorem twoGroups_superblock : ∃ m, processFs Filsys.twoGroups (fun _ => 7) 1 = .ok m ∧
    ((∃ g : Nat, m.group = g ∧ g < Filsys.twoGroups.groupDescCount ∧ (g = 0 ∨ SparseGroup g) ∧
      Filsys.twoGroups.InCopy g m.location) ∨
    (m.group = 0 ∧ Filsys.twoGroups.blocksize = 1024 ∧ 1 < Filsys.twoGroups.clusterRatio ∧
      0 ≤ m.location ∧ m.location + 4 ≤ 1024) ∨
    (m.group = Filsys.twoGroups.groupDescCount ∧ 0 ≤ m.location ∧ m.location + 4 ≤ 6)) := by
  have hentry : 0 ≤ (Filsys.twoGroups.findMetadataBlocks.get 7).offset ∧
      4 ≤ (Filsys.twoGroups.findMetadataBlocks.get 7).length ∧
      (Filsys.twoGroups.findMetadataBlocks.get 7).length < 2 ^ 32 := by decide
  obtain ⟨m, hrun, hname⟩ := @Filsys.processFs_first Filsys.twoGroups (fun _ => 7) (by decide) 7
    (by decide) hentry.1 hentry.2.1 hentry.2.2
  exact ⟨m, hrun, processFs_superblock Filsys.twoGroups rfl rfl (by decide) (by decide)
    (fun _ => 7) 1 m hrun hname⟩

end ConFuzz
