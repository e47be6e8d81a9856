import ConFuzz.CLib.Region
import ConFuzz.Mutate.Entries

/-!
# The descriptor regions

`find_super_and_bgd` repeats `ext2fs_reserve_super_and_bgd` in bytes. The block
group descriptor and the meta_bg block are inside the reserved blocks when these
exist. The reserved GDT range starts one block after the first descriptor block
but keeps the length of all of them, so it ends one block too late, except where
the 32-bit length wraps. The library marks no block of a range that does not fit
into the bitmap; `find_super_and_bgd` has no such check.
-/

namespace ConFuzz

open ConFuzz.CLib LevelOneStructure

namespace Filsys

variable (fs : Filsys) (clusterBits g : Nat)

/-! ## Sizes -/

theorem blocksize_pos : 0 < fs.blocksize := Nat.mul_pos (by decide) (Nat.two_pow_pos _)

theorem blocksize_dvd : fs.blocksize ∣ 2 ^ 16 := by
  have hlog := fs.opens.logBlockSize_le
  unfold Super.blocksize
  rw [show 1024 = 2 ^ 10 from rfl, ← Nat.pow_add]
  exact Nat.pow_dvd_pow 2 (by omega)

theorem blocksize_le : fs.blocksize ≤ 2 ^ 16 := Nat.le_of_dvd (by decide) fs.blocksize_dvd

theorem extDescSize_bounds : 0 < fs.extDescSize ∧ fs.extDescSize ≤ fs.blocksize := by
  have hpos := fs.opens.descPerBlock_pos
  unfold Super.descPerBlock at hpos
  exact Nat.div_pos_iff.1 hpos

theorem descBytes_bounds :
    0 < fs.descPerBlock * fs.extDescSize ∧ fs.descPerBlock * fs.extDescSize ≤ fs.blocksize :=
  ⟨Nat.mul_pos fs.opens.descPerBlock_pos fs.extDescSize_bounds.1, Nat.div_mul_le_self _ _⟩

/-! ## Offsets -/

/-- An offset that is read as another one is at least `2 ^ 64` bytes too small. -/
theorem byteOffset_wrapped {b : Nat} (h0 : 0 ≤ fs.byteOffset b)
    (hb : ¬b * fs.blocksize < 2 ^ 63) :
    ∃ p : Nat, fs.byteOffset b = p ∧ p / fs.blocksize + 1 < b := by
  refine ⟨b * fs.blocksize % 2 ^ 64, toInt64_eq_of_nonneg h0, ?_⟩
  have hle := fs.blocksize_le
  have hfar : b * fs.blocksize % 2 ^ 64 + 2 ^ 64 ≤ b * fs.blocksize := by
    unfold byteOffset toInt64 at h0
    omega
  have hlt : (b * fs.blocksize % 2 ^ 64 + fs.blocksize) / fs.blocksize < b := by
    rw [Nat.div_lt_iff_lt_mul fs.blocksize_pos]
    omega
  rwa [Nat.add_div_right _ fs.blocksize_pos] at hlt

variable {fs} in
theorem within_byteOffset {R : Nat → Prop} {b length : Nat} (hl : 0 < length)
    (hR : ∀ blk, blk + 1 < b → ¬R blk) :
    Within fs.blocksize R (fs.byteOffset b) length ↔
      fs.byteOffset b < 0 ∨ b * fs.blocksize < 2 ^ 63 ∧
        Within fs.blocksize R ((b * fs.blocksize : Nat) : Int) length := by
  by_cases h0 : 0 ≤ fs.byteOffset b
  · by_cases hb : b * fs.blocksize < 2 ^ 63
    · have heq : fs.byteOffset b = ((b * fs.blocksize : Nat) : Int) := toInt64_eq_iff.2 hb
      rw [heq]
      constructor
      · exact fun h => .inr ⟨hb, h⟩
      · rintro (h | h)
        · omega
        · exact h.2
    · constructor
      · intro h
        obtain ⟨p, hp, hlt⟩ := fs.byteOffset_wrapped h0 hb
        rw [hp] at h
        exact (hR _ hlt (h.first hl)).elim
      · rintro (h | h)
        · omega
        · exact (hb h.1).elim
  · have hneg : fs.byteOffset b < 0 := by omega
    exact ⟨fun _ => .inl hneg, fun _ => .of_neg hneg⟩

/-! ## Reserved blocks -/

theorem oldDescBlk_or_newDescBlk :
    (fs.superAndBgdLoc2 g).oldDescBlk = 0 ∨ (fs.superAndBgdLoc2 g).newDescBlk = 0 := by
  simp only [superAndBgdLoc2]
  split
  · split
    · exact .inr rfl
    · exact .inl rfl
  · split
    · exact .inl rfl
    · exact .inl rfl

theorem firstDataBlock_le_desc :
    ((fs.superAndBgdLoc2 g).oldDescBlk ≠ 0 →
      fs.firstDataBlock.toNat ≤ (fs.superAndBgdLoc2 g).oldDescBlk) ∧
    ((fs.superAndBgdLoc2 g).newDescBlk ≠ 0 →
      fs.firstDataBlock.toNat ≤ (fs.superAndBgdLoc2 g).newDescBlk) := by
  have hgroup : fs.firstDataBlock.toNat ≤ fs.groupBlock g := by
    have hle : fs.firstDataBlock.toNat ≤ fs.groupFirstBlock2 g := Nat.le_add_right _ _
    simp only [groupBlock]
    split <;> omega
  simp only [superAndBgdLoc2]
  split
  · split
    · exact ⟨fun _ => Nat.le_succ_of_le hgroup, fun h => absurd rfl h⟩
    · exact ⟨fun h => absurd rfl h, fun h => absurd rfl h⟩
  · split
    · exact ⟨fun h => absurd rfl h, fun _ => Nat.le_add_right_of_le hgroup⟩
    · exact ⟨fun h => absurd rfl h, fun h => absurd rfl h⟩

theorem shiftRight_mono {a b : Nat} (h : a ≤ b) (k : Nat) : a >>> k ≤ b >>> k := by
  rw [Nat.shiftRight_eq_div_pow, Nat.shiftRight_eq_div_pow]
  exact Nat.div_le_div_right h

/-- A range of blocks is accepted when its last cluster is in the file system. -/
theorem acceptsRange_iff {block num : Nat} (hfirst : fs.firstDataBlock.toNat ≤ block)
    (hpos : 0 < num) (hlt : num < 2 ^ 32) :
    fs.AcceptsRange clusterBits block num ↔
      (block + num - 1) >>> clusterBits ≤ (fs.blocksCount.toNat - 1) >>> clusterBits := by
  have hk : 0 < 2 ^ clusterBits := Nat.two_pow_pos _
  have hend : (block + num + (2 ^ clusterBits - 1)) >>> clusterBits =
      (block + num - 1) >>> clusterBits + 1 := by
    simp only [Nat.shiftRight_eq_div_pow]
    rw [show block + num + (2 ^ clusterBits - 1) = block + num - 1 + 2 ^ clusterBits by omega,
      Nat.add_div_right _ hk]
  have hlow : block >>> clusterBits ≤ (block + num - 1) >>> clusterBits :=
    shiftRight_mono (by omega) _
  have hcount : (block + num - 1) >>> clusterBits ≤ block >>> clusterBits + (num - 1) := by
    simp only [Nat.shiftRight_eq_div_pow]
    calc (block + num - 1) / 2 ^ clusterBits
        ≤ (block + (num - 1) * 2 ^ clusterBits) / 2 ^ clusterBits := by
          refine Nat.div_le_div_right ?_
          have := Nat.le_mul_of_pos_right (num - 1) hk
          omega
      _ = block / 2 ^ clusterBits + (num - 1) := Nat.add_mul_div_right _ _ hk
  have hstart := shiftRight_mono hfirst clusterBits
  simp only [AcceptsRange, hend, toU32_natCast]
  generalize (block + num - 1) >>> clusterBits = last at *
  generalize block >>> clusterBits = first at *
  rw [Nat.mod_eq_of_lt (by omega)]
  omega

/-- The library reserves blocks for a copy of the old descriptors: there are some, and the
bitmap takes them. -/
def CopyReserved : Prop :=
  let oldDescBlk := (fs.superAndBgdLoc2 g).oldDescBlk
  let num := toU32 (fs.numBlocks oldDescBlk)
  0 < num ∧
    (oldDescBlk + num - 1) >>> clusterBits ≤ (fs.blocksCount.toNat - 1) >>> clusterBits

/-- A reserved block inside the file system. -/
def DescBlock (blk : Nat) : Prop :=
  fs.ReservesDesc clusterBits g blk ∧ blk < fs.blocksCount.toNat

theorem descBlock_old {fs : Filsys} {clusterBits g : Nat}
    (h : (fs.superAndBgdLoc2 g).oldDescBlk ≠ 0) (blk : Nat) :
    fs.DescBlock clusterBits g blk ↔
      fs.CopyReserved clusterBits g ∧ (fs.superAndBgdLoc2 g).oldDescBlk ≤ blk ∧
        blk < (fs.superAndBgdLoc2 g).oldDescBlk +
          toU32 (fs.numBlocks (fs.superAndBgdLoc2 g).oldDescBlk) ∧
        blk < fs.blocksCount.toNat := by
  have hnew := (fs.oldDescBlk_or_newDescBlk g).resolve_left h
  have hfirst := (fs.firstDataBlock_le_desc g).1 h
  have hlt := toU32_lt (fs.numBlocks (fs.superAndBgdLoc2 g).oldDescBlk)
  simp only [DescBlock, ReservesDesc, CopyReserved, hnew, h, ne_eq, not_true_eq_false,
    not_false_eq_true, true_and, false_and, or_false]
  constructor
  · rintro ⟨⟨haccept, hle, hblk⟩, hin⟩
    have hpos : 0 < toU32 (fs.numBlocks (fs.superAndBgdLoc2 g).oldDescBlk) := by omega
    exact ⟨⟨hpos, (fs.acceptsRange_iff clusterBits hfirst hpos hlt).1 haccept⟩, hle, hblk, hin⟩
  · rintro ⟨⟨hpos, haccept⟩, hle, hblk, hin⟩
    exact ⟨⟨(fs.acceptsRange_iff clusterBits hfirst hpos hlt).2 haccept, hle, hblk⟩, hin⟩

theorem descBlock_new {fs : Filsys} {clusterBits g : Nat}
    (h : (fs.superAndBgdLoc2 g).newDescBlk ≠ 0) (blk : Nat) :
    fs.DescBlock clusterBits g blk ↔
      blk = (fs.superAndBgdLoc2 g).newDescBlk ∧ blk < fs.blocksCount.toNat := by
  have hold := (fs.oldDescBlk_or_newDescBlk g).resolve_right h
  have hfirst := (fs.firstDataBlock_le_desc g).2 h
  simp only [DescBlock, ReservesDesc, hold, h, ne_eq, not_true_eq_false, not_false_eq_true,
    true_and, false_and, false_or]
  constructor
  · rintro ⟨⟨-, rfl⟩, hin⟩
    exact ⟨rfl, hin⟩
  · rintro ⟨rfl, hin⟩
    exact ⟨⟨⟨shiftRight_mono hfirst _, shiftRight_mono (by omega) _⟩, rfl⟩, hin⟩

/-- Every byte of the descriptor entries of a group is in a block that the library
reserves for descriptors, and in the file system. -/
def DescInside : Prop :=
  ∀ (dict : MetaDict), ∀ s ∈ [LevelOneStructure.bgd, .gdt, .metaBg], ∀ entry,
    fs.findSuperAndBgd g dict (fileKey s g) = some entry → 0 ≤ entry.offset →
    ∀ p : Nat, entry.offset ≤ p → (p : Int) < entry.offset + entry.length →
      fs.ReservesDesc clusterBits g (p / fs.blocksize) ∧ p < fs.blocksCount.toNat * fs.blocksize

/-- The blocks that the length of the reserved GDT range comes to. -/
def gdtBlocks : Nat :=
  toU32 (fs.numBlocks (fs.superAndBgdLoc2 g).oldDescBlk) % (2 ^ 32 / fs.blocksize)

theorem gdt_length (num : Nat) :
    toU32 (num * fs.blocksize : Nat) = num % (2 ^ 32 / fs.blocksize) * fs.blocksize := by
  have hdvd : fs.blocksize ∣ 2 ^ 32 := fs.blocksize_dvd.trans (by decide)
  rw [toU32_natCast, ← Nat.mul_mod_mul_right, Nat.div_mul_cancel hdvd]

theorem descInside_iff_record :
    fs.DescInside clusterBits g ↔ ∀ s ∈ [LevelOneStructure.bgd, .gdt, .metaBg],
      Within fs.blocksize (fs.DescBlock clusterBits g) (fs.record s g).offset
        (fs.record s g).length := by
  have hkey : ∀ s ∈ [LevelOneStructure.bgd, .gdt, .metaBg], ∀ dict,
      fs.findSuperAndBgd g dict (fileKey s g) = some (fs.record s g) := fun s hs dict =>
    fs.findSuperAndBgd_fileKey g dict (List.mem_cons_of_mem _ hs)
  have hblk : ∀ p : Nat, p < fs.blocksCount.toNat * fs.blocksize ↔
      p / fs.blocksize < fs.blocksCount.toNat := fun p =>
    (Nat.div_lt_iff_lt_mul fs.blocksize_pos).symm
  constructor
  · intro h s hs h0 p hlo hhi
    have hp := h (fun _ => none) s hs _ (hkey s hs _) h0 p hlo hhi
    exact ⟨hp.1, (hblk p).1 hp.2⟩
  · intro h dict s hs entry he h0 p hlo hhi
    rw [hkey s hs dict] at he
    cases he
    have hp := h s hs h0 p hlo hhi
    exact ⟨hp.1, (hblk p).2 hp.2⟩

/-! ## The three entries -/

/-- The first descriptor block has to be reserved, and in the file system. -/
theorem within_bgd :
    Within fs.blocksize (fs.DescBlock clusterBits g) (fs.record .bgd g).offset
        (fs.record .bgd g).length ↔
      ((fs.superAndBgdLoc2 g).oldDescBlk ≠ 0 →
        fs.byteOffset (fs.superAndBgdLoc2 g).oldDescBlk < 0 ∨
          (fs.superAndBgdLoc2 g).oldDescBlk * fs.blocksize < 2 ^ 63 ∧
          fs.CopyReserved clusterBits g ∧
          (fs.superAndBgdLoc2 g).oldDescBlk < fs.blocksCount.toNat) := by
  by_cases hold : (fs.superAndBgdLoc2 g).oldDescBlk = 0
  · simp only [record, hold, ne_eq, not_true_eq_false, if_false, false_implies, iff_true]
    exact .of_neg (by decide)
  · have hdesc := fs.extDescSize_bounds
    simp only [record, ne_eq, hold, not_false_eq_true, if_true, forall_const]
    rw [within_byteOffset hdesc.1, within_block fs.blocksize_pos _ hdesc.1 hdesc.2,
      descBlock_old hold]
    · refine or_congr_right (and_congr_right fun _ => and_congr_right fun hcopy => ?_)
      have := hcopy.1
      omega
    · intro blk hlt hblk
      have := (descBlock_old hold blk).1 hblk
      omega

/-- The range ends inside only where its length has wrapped. -/
theorem within_gdt :
    Within fs.blocksize (fs.DescBlock clusterBits g) (fs.record .gdt g).offset
        (fs.record .gdt g).length ↔
      ((fs.superAndBgdLoc2 g).oldDescBlk ≠ 0 →
        fs.byteOffset ((fs.superAndBgdLoc2 g).oldDescBlk + 1) < 0 ∨ fs.gdtBlocks g = 0 ∨
          ((fs.superAndBgdLoc2 g).oldDescBlk + 1) * fs.blocksize < 2 ^ 63 ∧
          fs.CopyReserved clusterBits g ∧
          fs.gdtBlocks g < toU32 (fs.numBlocks (fs.superAndBgdLoc2 g).oldDescBlk) ∧
          (fs.superAndBgdLoc2 g).oldDescBlk + fs.gdtBlocks g < fs.blocksCount.toNat) := by
  by_cases hold : (fs.superAndBgdLoc2 g).oldDescBlk = 0
  · simp only [record, hold, ne_eq, not_true_eq_false, if_false, false_implies, iff_true]
    exact .of_neg (by decide)
  · simp only [record, ne_eq, hold, not_false_eq_true, if_true, forall_const]
    rw [gdt_length]
    change Within _ _ _ (fs.gdtBlocks g * _) ↔ _
    rcases Nat.eq_zero_or_pos (fs.gdtBlocks g) with hzero | hpos
    · rw [hzero, Nat.zero_mul]
      exact ⟨fun _ => .inr (.inl rfl), fun _ => .of_empty _⟩
    · rw [within_byteOffset (Nat.mul_pos hpos fs.blocksize_pos), within_blocks fs.blocksize_pos]
      · have hlast : (∀ i < fs.gdtBlocks g,
            fs.DescBlock clusterBits g ((fs.superAndBgdLoc2 g).oldDescBlk + 1 + i)) ↔
            fs.CopyReserved clusterBits g ∧
              fs.gdtBlocks g < toU32 (fs.numBlocks (fs.superAndBgdLoc2 g).oldDescBlk) ∧
              (fs.superAndBgdLoc2 g).oldDescBlk + fs.gdtBlocks g < fs.blocksCount.toNat := by
          constructor
          · intro h
            have hlast := (descBlock_old hold _).1 (h (fs.gdtBlocks g - 1) (by omega))
            exact ⟨hlast.1, by omega, by omega⟩
          · rintro ⟨hcopy, h⟩ i hi
            exact (descBlock_old hold _).2 ⟨hcopy, by omega, by omega, by omega⟩
        rw [hlast]
        have hne : fs.gdtBlocks g ≠ 0 := by omega
        simp only [hne, false_or]
      · intro blk hlt hblk
        have := (descBlock_old hold blk).1 hblk
        omega

theorem within_metaBg :
    Within fs.blocksize (fs.DescBlock clusterBits g) (fs.record .metaBg g).offset
        (fs.record .metaBg g).length ↔
      ((fs.superAndBgdLoc2 g).newDescBlk ≠ 0 →
        fs.byteOffset (fs.superAndBgdLoc2 g).newDescBlk < 0 ∨
          (fs.superAndBgdLoc2 g).newDescBlk * fs.blocksize < 2 ^ 63 ∧
          (fs.superAndBgdLoc2 g).newDescBlk < fs.blocksCount.toNat) := by
  by_cases hnew : (fs.superAndBgdLoc2 g).newDescBlk = 0
  · simp only [record, hnew, ne_eq, not_true_eq_false, if_false, false_implies, iff_true]
    exact .of_neg (by decide)
  · have hdesc := fs.descBytes_bounds
    simp only [record, ne_eq, hnew, not_false_eq_true, if_true, forall_const]
    rw [within_byteOffset hdesc.1, within_block fs.blocksize_pos _ hdesc.1 hdesc.2,
      descBlock_new hnew]
    · omega
    · intro blk hlt hblk
      have := (descBlock_new hnew blk).1 hblk
      omega

/-- Exactly when the descriptor regions of a group stay inside. A group with a copy
of the old descriptors needs a reserved block in the file system for the first,
and a range that has lost blocks to the 32-bit length. -/
theorem findSuperAndBgd_descInside :
    fs.DescInside clusterBits g ↔
      ((fs.superAndBgdLoc2 g).oldDescBlk ≠ 0 →
        (fs.byteOffset (fs.superAndBgdLoc2 g).oldDescBlk < 0 ∨
          (fs.superAndBgdLoc2 g).oldDescBlk * fs.blocksize < 2 ^ 63 ∧
          fs.CopyReserved clusterBits g ∧
          (fs.superAndBgdLoc2 g).oldDescBlk < fs.blocksCount.toNat) ∧
        (fs.byteOffset ((fs.superAndBgdLoc2 g).oldDescBlk + 1) < 0 ∨ fs.gdtBlocks g = 0 ∨
          ((fs.superAndBgdLoc2 g).oldDescBlk + 1) * fs.blocksize < 2 ^ 63 ∧
          fs.CopyReserved clusterBits g ∧
          fs.gdtBlocks g < toU32 (fs.numBlocks (fs.superAndBgdLoc2 g).oldDescBlk) ∧
          (fs.superAndBgdLoc2 g).oldDescBlk + fs.gdtBlocks g < fs.blocksCount.toNat)) ∧
      ((fs.superAndBgdLoc2 g).newDescBlk ≠ 0 →
        fs.byteOffset (fs.superAndBgdLoc2 g).newDescBlk < 0 ∨
          (fs.superAndBgdLoc2 g).newDescBlk * fs.blocksize < 2 ^ 63 ∧
          (fs.superAndBgdLoc2 g).newDescBlk < fs.blocksCount.toNat) := by
  have hbgd := fs.within_bgd clusterBits g
  have hgdt := fs.within_gdt clusterBits g
  have hmeta := fs.within_metaBg clusterBits g
  rw [descInside_iff_record]
  simp only [List.mem_cons, List.not_mem_nil, or_false, forall_eq_or_imp, forall_eq]
  rw [hbgd, hgdt, hmeta]
  constructor
  · exact fun h => ⟨fun hold => ⟨h.1 hold, h.2.1 hold⟩, h.2.2⟩
  · exact fun h => ⟨fun hold => (h.1 hold).1, fun hold => (h.1 hold).2, h.2⟩

/-- The descriptors of the image are blocks 1 and 2, and the reserved GDT range
goes to the end of block 3. -/
theorem oneGroup_not_descInside : ¬oneGroup.DescInside 0 0 := by
  intro h
  have hkey := oneGroup.findSuperAndBgd_fileKey 0 (fun _ => none) (s := .gdt) (by decide)
  have hp := h _ .gdt (by decide) _ hkey (by decide) (3 * 4096) (by decide) (by decide)
  revert hp
  decide

end Filsys

end ConFuzz
