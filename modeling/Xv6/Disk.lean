import Xv6.Sysfile

/-!
# Areas of the disk

What the blocks of a disk stand for : the superblock, the inode blocks, the bitmap and the
data blocks, which lie in disjoint areas (`Geometry`). A disk is read through `dinode` for
an inode and `used` for a bit of the bitmap, and the equations here say what each of the
kernel's writes does to them : setting or clearing a bit changes that bit, storing an
inode changes that inode, and a write to a block of one area leaves the other areas.
-/

open Function Layout List

namespace Xv6

/-! ## Areas -/

/-- Number of inodes the inode blocks have room for. -/
def ninum (sb : Superblock) : ℕ :=
  (sb.bmapstart.toNat - sb.inodestart.toNat) * IPB

def nbitmap (sb : Superblock) : ℕ :=
  sb.size.toNat / BPB + 1

/-- Block `b` is a data block. -/
def InData (sb : Superblock) (b : ℕ) : Prop :=
  sb.size.toNat - sb.nblocks.toNat ≤ b ∧ b < sb.size.toNat

instance (sb : Superblock) (b : ℕ) : Decidable (InData sb b) :=
  inferInstanceAs (Decidable (_ ∧ _))

/-- The areas follow one another : boot block, superblock, log, inodes, bitmap, data. -/
structure Geometry (sb : Superblock) : Prop where
  log_start : 2 ≤ sb.logstart.toNat
  log_end : sb.logstart.toNat + sb.nlog.toNat ≤ sb.inodestart.toNat
  inodes_end : sb.inodestart.toNat ≤ sb.bmapstart.toNat
  bmap_end : sb.bmapstart.toNat + nbitmap sb ≤ sb.size.toNat - sb.nblocks.toNat
  ninodes_le : sb.ninodes.toNat ≤ ninum sb
  ninum_le : ninum sb ≤ 2 ^ 16

namespace Geometry

variable {sb : Superblock}

theorem inode_block (g : Geometry sb) {i : ℕ} (hi : i < ninum sb) :
    2 ≤ IBLOCK i sb ∧ IBLOCK i sb < sb.bmapstart.toNat := by
  have hdiv : i / IPB < sb.bmapstart.toNat - sb.inodestart.toNat :=
    Nat.div_lt_of_lt_mul (by rw [Nat.mul_comm]; exact hi)
  have := g.log_start
  have := g.log_end
  unfold IBLOCK
  generalize i / IPB = q at hdiv ⊢
  omega

theorem bitmap_block (g : Geometry sb) {b : ℕ} (hb : b < sb.size.toNat) :
    sb.bmapstart.toNat ≤ BBLOCK b sb ∧ BBLOCK b sb < sb.size.toNat - sb.nblocks.toNat := by
  have hdiv : b / BPB < nbitmap sb := Nat.lt_succ_of_le (Nat.div_le_div_right hb.le)
  have := g.bmap_end
  unfold BBLOCK
  generalize b / BPB = q at hdiv ⊢
  omega

theorem bitmap_ne_inode (g : Geometry sb) {b i : ℕ} (hb : b < sb.size.toNat)
    (hi : i < ninum sb) : BBLOCK b sb ≠ IBLOCK i sb := by
  have := g.bitmap_block hb
  have := g.inode_block hi
  omega

theorem data_ne_inode (g : Geometry sb) {b i : ℕ} (hb : InData sb b) (hi : i < ninum sb) :
    b ≠ IBLOCK i sb := by
  have := g.inode_block hi
  have := g.bmap_end
  have := hb.1
  omega

theorem data_ne_bitmap (g : Geometry sb) {b c : ℕ} (hb : InData sb b) (hc : c < sb.size.toNat) :
    b ≠ BBLOCK c sb := by
  have := g.bitmap_block hc
  have := hb.1
  omega

theorem two_le_data (g : Geometry sb) {b : ℕ} (hb : InData sb b) : 2 ≤ b := by
  have := g.log_start
  have := g.log_end
  have := g.inodes_end
  have := g.bmap_end
  have := hb.1
  omega

end Geometry

/-! ## Bits -/

theorem bitMask_toBitVec (bi : ℕ) : (bitMask bi).toBitVec = BitVec.twoPow 8 (bi % 8) := by
  have h : ∀ j : Fin 8, ((1 : UInt8) <<< UInt8.ofNat j).toBitVec = BitVec.twoPow 8 j := by decide
  exact h ⟨bi % 8, Nat.mod_lt _ (by decide)⟩

theorem and_bitMask (x : UInt8) (bi : ℕ) :
    (x &&& bitMask bi == 0) = !x.toBitVec.getLsbD (bi % 8) := by
  have h : bi % 8 < 8 := Nat.mod_lt _ (by decide)
  rw [Bool.eq_iff_iff, beq_iff_eq, ← UInt8.toBitVec_inj, UInt8.toBitVec_and, bitMask_toBitVec,
    BitVec.and_twoPow]
  cases hx : x.toBitVec.getLsbD (bi % 8)
  · simp
  · simp only [↓reduceIte, Bool.not_true, Bool.false_eq_true, iff_false]
    intro h0
    have := congrArg (fun v : BitVec 8 => v.getLsbD (bi % 8)) h0
    simp [h] at this

theorem get_setBit (data : Block) (bi : ℕ) {j : ℕ} (hj : j < BSIZE) : (setBit data bi).get j =
    if j = bi / 8 then data.get (bi / 8) ||| bitMask bi else data.get j := by
  rw [setBit, Bytes.get_blit _ _ _ _ hj]
  exact if_congr (by omega) rfl rfl

theorem get_clearBit (data : Block) (bi : ℕ) {j : ℕ} (hj : j < BSIZE) : (clearBit data bi).get j =
    if j = bi / 8 then data.get (bi / 8) &&& ~~~bitMask bi else data.get j := by
  rw [clearBit, Bytes.get_blit _ _ _ _ hj]
  exact if_congr (by omega) rfl rfl

theorem isClear_setBit (data : Block) (bi : ℕ) {bj : ℕ} (hj : bj < BPB) :
    isClear (setBit data bi) bj = true ↔ isClear data bj = true ∧ bj ≠ bi := by
  have hj8 : bj / 8 < BSIZE := Nat.div_lt_of_lt_mul hj
  unfold isClear
  rw [get_setBit data bi hj8]
  split_ifs with h
  · have hmod : bi % 8 = bj % 8 ↔ bj = bi := by omega
    have h8 : bj % 8 < 8 := Nat.mod_lt _ (by decide)
    rw [and_bitMask, and_bitMask, UInt8.toBitVec_or, BitVec.getLsbD_or, bitMask_toBitVec, h,
      BitVec.getLsbD_twoPow]
    by_cases hij : bj = bi
    · subst hij
      simp [h8]
    · simp [hij, mt hmod.1 hij]
  · have hne : bj ≠ bi := by rintro rfl; exact h rfl
    simp [hne]

theorem isClear_clearBit (data : Block) (bi : ℕ) {bj : ℕ} (hj : bj < BPB) :
    isClear (clearBit data bi) bj = true ↔ isClear data bj = true ∨ bj = bi := by
  have hj8 : bj / 8 < BSIZE := Nat.div_lt_of_lt_mul hj
  unfold isClear
  rw [get_clearBit data bi hj8]
  split_ifs with h
  · have hmod : bi % 8 = bj % 8 ↔ bj = bi := by omega
    have h8 : bj % 8 < 8 := Nat.mod_lt _ (by decide)
    rw [and_bitMask, and_bitMask, UInt8.toBitVec_and, BitVec.getLsbD_and, UInt8.toBitVec_not,
      BitVec.getLsbD_not, bitMask_toBitVec, h, BitVec.getLsbD_twoPow]
    by_cases hij : bj = bi
    · subst hij
      simp [h8]
    · simp [hij, mt hmod.1 hij, h8]
  · have hne : bj ≠ bi := by rintro rfl; exact h rfl
    simp [hne]

/-! ## The bitmap -/

/-- The bit of block `b` is set. -/
def Used (disk : ℕ → Block) (sb : Superblock) (b : ℕ) : Prop :=
  isClear (disk (BBLOCK b sb)) (b % BPB) = false

instance (disk : ℕ → Block) (sb : Superblock) (b : ℕ) : Decidable (Used disk sb b) :=
  inferInstanceAs (Decidable (_ = _))

variable {disk disk' : ℕ → Block} {sb : Superblock}

theorem used_congr {b : ℕ} (h : disk' (BBLOCK b sb) = disk (BBLOCK b sb)) :
    Used disk' sb b ↔ Used disk sb b := by
  rw [Used, h, Used]

theorem BBLOCK_eq_iff {b c : ℕ} : BBLOCK c sb = BBLOCK b sb ↔ c / BPB = b / BPB :=
  Nat.add_right_cancel_iff

theorem mod_eq_iff_of_BBLOCK_eq {b c : ℕ} (h : BBLOCK c sb = BBLOCK b sb) :
    c % BPB = b % BPB ↔ c = b := by
  constructor
  · intro hmod
    rw [← Nat.div_add_mod c BPB, ← Nat.div_add_mod b BPB, BBLOCK_eq_iff.1 h, hmod]
  · rintro rfl
    rfl

/-- Setting a bit marks one block. -/
theorem used_setBit (disk : ℕ → Block) (sb : Superblock) (b c : ℕ) :
    Used (update disk (BBLOCK b sb) (setBit (disk (BBLOCK b sb)) (b % BPB))) sb c ↔
      Used disk sb c ∨ c = b := by
  by_cases hbc : BBLOCK c sb = BBLOCK b sb
  · rw [Used, Used, hbc, update_self, ← Bool.not_eq_true, ← Bool.not_eq_true,
      isClear_setBit _ _ (Nat.mod_lt _ (by decide)), ← mod_eq_iff_of_BBLOCK_eq hbc]
    tauto
  · rw [used_congr (update_of_ne hbc _ _)]
    refine (or_iff_left ?_).symm
    rintro rfl
    exact hbc rfl

/-- Clearing a bit frees one block. -/
theorem used_clearBit (disk : ℕ → Block) (sb : Superblock) (b c : ℕ) :
    Used (update disk (BBLOCK b sb) (clearBit (disk (BBLOCK b sb)) (b % BPB))) sb c ↔
      Used disk sb c ∧ c ≠ b := by
  by_cases hbc : BBLOCK c sb = BBLOCK b sb
  · rw [Used, Used, hbc, update_self, ← Bool.not_eq_true, ← Bool.not_eq_true,
      isClear_clearBit _ _ (Nat.mod_lt _ (by decide)), Ne, ← mod_eq_iff_of_BBLOCK_eq hbc]
    tauto
  · rw [used_congr (update_of_ne hbc _ _)]
    refine (and_iff_left ?_).symm
    rintro rfl
    exact hbc rfl

theorem isClear_scan {q bi : ℕ} (hbi : bi < BPB) :
    isClear (disk (BBLOCK (q * BPB) sb)) bi = true ↔ ¬ Used disk sb (q * BPB + bi) := by
  have hdiv : (q * BPB + bi) / BPB = q := by
    rw [Nat.mul_comm, Nat.mul_add_div (by decide), Nat.div_eq_of_lt hbi, Nat.add_zero]
  have hmod : (q * BPB + bi) % BPB = bi := by
    rw [Nat.mul_comm, Nat.mul_add_mod, Nat.mod_eq_of_lt hbi]
  have hblk : BBLOCK (q * BPB) sb = BBLOCK (q * BPB + bi) sb := by
    rw [BBLOCK_eq_iff, hdiv, Nat.mul_div_cancel _ (by decide)]
  rw [Used, hmod, ← hblk, Bool.not_eq_false]

/-- The scan of `balloc` finds a free block. -/
theorem ballocScan_eq_some {b : ℕ} (h : ballocScan disk sb = some b) :
    b < sb.size.toNat ∧ ¬ Used disk sb b := by
  obtain ⟨q, -, hq⟩ := exists_of_findSome?_eq_some h
  obtain ⟨bi, hbi, rfl⟩ := Option.map_eq_some_iff.1 hq
  have hlt : bi < BPB := mem_range.1 (mem_of_find?_eq_some hbi)
  have htest := find?_some hbi
  simp only [Bool.and_eq_true, decide_eq_true_eq] at htest
  exact ⟨htest.1, (isClear_scan hlt).1 htest.2⟩

theorem scan_test {b : ℕ} : (decide (b / BPB * BPB + b % BPB < sb.size.toNat) &&
    isClear (disk (BBLOCK (b / BPB * BPB) sb)) (b % BPB)) = true ↔
      b < sb.size.toNat ∧ ¬ Used disk sb b := by
  rw [Bool.and_eq_true, decide_eq_true_eq, isClear_scan (Nat.mod_lt _ (by decide)),
    Nat.div_add_mod' b BPB]

theorem used_of_ballocScanBlock_eq_none {b : ℕ} (h : ballocScanBlock
    (disk (BBLOCK (b / BPB * BPB) sb)) sb.size.toNat (b / BPB * BPB) = none)
    (hb : b < sb.size.toNat) : Used disk sb b := by
  by_contra hfree
  exact find?_eq_none.1 (Option.map_eq_none_iff.1 h) (b % BPB)
    (mem_range.2 (Nat.mod_lt _ (by decide))) (scan_test.2 ⟨hb, hfree⟩)

/-- If it finds none, every block is in use. -/
theorem used_of_ballocScan_eq_none (h : ballocScan disk sb = none) {b : ℕ}
    (hb : b < sb.size.toNat) : Used disk sb b := by
  have hq : b / BPB < (sb.size.toNat + BPB - 1) / BPB := by
    rw [Nat.div_lt_iff_lt_mul (by decide)]
    show b < (sb.size.toNat + 4096 - 1) / 4096 * 4096
    omega
  exact used_of_ballocScanBlock_eq_none
    (findSome?_eq_none_iff.1 h (b / BPB) (mem_range.2 hq)) hb

/-- The loops of `balloc` stop at the lowest free block. -/
theorem ballocScan_isLeast {b : ℕ} (h : ballocScan disk sb = some b) :
    IsLeast {c | c < sb.size.toNat ∧ ¬ Used disk sb c} b := by
  refine ⟨ballocScan_eq_some h, fun c hc => ?_⟩
  obtain ⟨qs, q, qs', hqs, hq, hnone⟩ := findSome?_eq_some_iff.1 h
  obtain ⟨bi, hbi, rfl⟩ := Option.map_eq_some_iff.1 hq
  obtain ⟨-, hlt, hfirst⟩ := find?_range_eq_some.1 hbi
  have hprev : ∀ r < q, r ∈ qs := by
    rw [range_eq_range', range'_eq_append_iff] at hqs
    obtain ⟨k, -, rfl, hcons⟩ := hqs
    obtain ⟨rfl, -⟩ := range'_eq_cons_iff.1 hcons.symm
    exact fun r hr => mem_range'_1.2 (by omega)
  by_contra hcb
  have hdiv := Nat.div_add_mod' c BPB
  rcases lt_trichotomy (c / BPB) q with hcq | rfl | hcq
  · exact hc.2 (used_of_ballocScanBlock_eq_none (hnone _ (hprev _ hcq)) hc.1)
  · have := hfirst (c % BPB) (by omega)
    rw [Bool.not_eq_true', ← Bool.not_eq_true, scan_test] at this
    exact this hc
  · have hle : (q + 1) * BPB ≤ c / BPB * BPB := Nat.mul_le_mul_right _ hcq
    have hbi' := mem_range.1 hlt
    rw [Nat.succ_mul] at hle
    omega

/-- The free blocks. -/
def freeBlocks (disk : ℕ → Block) (sb : Superblock) : Finset ℕ :=
  (Finset.range sb.size.toNat).filter fun b => ¬ Used disk sb b

theorem mem_freeBlocks {b : ℕ} :
    b ∈ freeBlocks disk sb ↔ b < sb.size.toNat ∧ ¬ Used disk sb b := by
  simp [freeBlocks]

theorem freeBlocks_take {b : ℕ}
    (h : ∀ c < sb.size.toNat, Used disk' sb c ↔ Used disk sb c ∨ c = b) :
    freeBlocks disk' sb = (freeBlocks disk sb).erase b := by
  ext c
  simp only [Finset.mem_erase, mem_freeBlocks]
  constructor
  · rintro ⟨hc, hfree⟩
    rw [h c hc, not_or] at hfree
    exact ⟨hfree.2, hc, hfree.1⟩
  · rintro ⟨hcb, hc, hfree⟩
    rw [h c hc, not_or]
    exact ⟨hc, hfree, hcb⟩

/-! ## Inodes -/

theorem dinode_congr {i : ℕ} (h : disk' (IBLOCK i sb) = disk (IBLOCK i sb)) :
    dinode disk' sb i = dinode disk sb i := by
  rw [dinode, h, dinode]

/-- Writing one inode leaves the others. -/
theorem dinode_put (disk : ℕ → Block) (sb : Superblock) (i j : ℕ) (d : Dinode) :
    dinode (update disk (IBLOCK i sb) (putDinode disk sb i d)) sb j =
      if j = i then d else dinode disk sb j := by
  by_cases hij : IBLOCK j sb = IBLOCK i sb
  · have hdiv : j / IPB = i / IPB := Nat.add_right_cancel hij
    have hmod : j % IPB = i % IPB ↔ j = i := by
      constructor
      · intro h
        rw [← Nat.div_add_mod j IPB, ← Nat.div_add_mod i IPB, hdiv, h]
      · rintro rfl
        rfl
    have hlt : i % IPB < IPB := Nat.mod_lt _ (by decide)
    have hfit : Dinode.codec.size * (i % IPB) + Dinode.codec.size ≤ BSIZE := by
      show 64 * (i % 8) + 64 ≤ 512
      omega
    rw [dinode, dinode, hij, update_self, putDinode]
    exact (Bytes.read_write_index Dinode.codec _ d hfit).trans (if_congr hmod rfl rfl)
  · have hne : j ≠ i := by
      rintro rfl
      exact hij rfl
    rw [dinode_congr (update_of_ne hij _ _), if_neg hne]

theorem readsb_congr (h : disk' 1 = disk 1) : readsb disk' = readsb disk := by
  rw [readsb, h, readsb]

/-! ## Indirect blocks -/

theorem indWord_write (data : Block) {i j a : ℕ} (hi : i < NINDIRECT) (ha : a < 2 ^ 32) :
    indWord (Bytes.write Codec.u32 data (4 * i) (UInt32.ofNat a)) j =
      if j = i then a else indWord data j := by
  have hfit : Codec.u32.size * i + Codec.u32.size ≤ BSIZE := by
    show 4 * i + 4 ≤ 512
    have : i < 128 := hi
    omega
  unfold indWord
  rw [show (4 : ℕ) = Codec.u32.size from rfl, Bytes.read_write_index Codec.u32 data _ hfit]
  split_ifs
  · exact UInt32.toNat_ofNat_of_lt' ha
  · rfl

theorem get_zeroBlock (j : ℕ) : Bytes.get zeroBlock j = 0 := by
  unfold Bytes.get zeroBlock
  split_ifs <;> rfl

theorem indWord_zeroBlock (j : ℕ) : indWord zeroBlock j = 0 := by
  simp [indWord, Bytes.read, Codec.u32, get_zeroBlock]

end Xv6
