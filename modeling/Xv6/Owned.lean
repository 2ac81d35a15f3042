import Xv6.Disk
import Xv6.Lib.Ownership

/-!
# Block ownership

An inode names data blocks in its slots : the direct addresses, the address of the
indirect block, and the addresses in the indirect block. On a well-formed disk the data
blocks in use are those the slots of allocated inodes name, each block in one slot, and a
file has a block for every part of its size (`Owned`). The inodes are a map `D` of its own, since a
locked inode may be ahead of its disk copy.

There is a lemma for each change the kernel makes : it fills a slot with a free block, empties the
slots of an inode, allocates or frees an inode, changes the size or the links of an inode, or
writes the content of a block.
-/

open Function Layout

namespace Xv6

/-! ## Slots -/

/-- Number of slots of an inode. -/
abbrev NSLOT : ℕ := NDIRECT + 1 + NINDIRECT

/-- The block address in slot `j` : a direct address, the indirect block in slot `NDIRECT`,
or an address in the indirect block. -/
def slotAddr (disk : ℕ → Block) (d : Dinode) (j : ℕ) : ℕ :=
  if j < NDIRECT + 1 then d.addr j
  else if d.addr NDIRECT = 0 then 0
  else indWord (disk (d.addr NDIRECT)) (j - (NDIRECT + 1))

/-- The slot of file block `n`. -/
def fileSlot (n : ℕ) : ℕ :=
  if n < NDIRECT then n else n + 1

/-- The address of file block `n`. -/
def fileAddr (disk : ℕ → Block) (d : Dinode) (n : ℕ) : ℕ :=
  slotAddr disk d (fileSlot n)

theorem Dinode.addr_setAddr (d : Dinode) {i a : ℕ} (hi : i < NDIRECT + 1) (ha : a < 2 ^ 32)
    (j : ℕ) : (d.setAddr i a).addr j = if j = i then a else d.addr j := by
  unfold Dinode.addr Dinode.setAddr
  by_cases hj : j < NDIRECT + 1
  · simp only [hj, ↓reduceDIte]
    split_ifs
    · exact UInt32.toNat_ofNat_of_lt' ha
    · rfl
  · have hne : j ≠ i := by omega
    simp [hj, hne]

theorem slotAddr_of_lt {disk : ℕ → Block} {d : Dinode} {j : ℕ} (hj : j < NDIRECT + 1) :
    slotAddr disk d j = d.addr j :=
  if_pos hj

theorem slotAddr_congr {disk disk' : ℕ → Block} {d d' : Dinode}
    (ha : ∀ j < NDIRECT + 1, d'.addr j = d.addr j)
    (hind : d.addr NDIRECT ≠ 0 → disk' (d.addr NDIRECT) = disk (d.addr NDIRECT)) (j : ℕ) :
    slotAddr disk' d' j = slotAddr disk d j := by
  have hN := ha NDIRECT (by omega)
  unfold slotAddr
  split_ifs with h1 h2 h3 h3
  · exact ha j h1
  · rfl
  · exact absurd (hN.symm.trans h2) h3
  · exact absurd (hN.trans h3) h2
  · rw [hN, hind h3]

theorem NDIRECT_lt : NDIRECT < NSLOT := by decide

theorem fileSlot_lt {n : ℕ} (hn : n < MAXFILE) : fileSlot n < NSLOT := by
  have hn' : n < 140 := hn
  show fileSlot n < 141
  unfold fileSlot
  split_ifs <;> omega

theorem fileSlot_ne (n : ℕ) : fileSlot n ≠ NDIRECT := by
  unfold fileSlot
  split_ifs <;> omega

theorem fileSlot_inj {m n : ℕ} (h : fileSlot m = fileSlot n) : m = n := by
  unfold fileSlot at h
  split_ifs at h <;> omega

/-! ## Ownership -/

/-- Slot `k.2` of the allocated inode `k.1` names block `b`. -/
def Own (sb : Superblock) (D : ℕ → Dinode) (disk : ℕ → Block) (b : ℕ) (k : ℕ × ℕ) : Prop :=
  k.1 < ninum sb ∧ (D k.1).type ≠ 0 ∧ k.2 < NSLOT ∧ b ≠ 0 ∧ slotAddr disk (D k.1) k.2 = b

/-- The file has a block for every part of its size. -/
def Full (disk : ℕ → Block) (d : Dinode) : Prop :=
  d.size.toNat ≤ MAXFILE * BSIZE ∧ ∀ n, n * BSIZE < d.size.toNat → fileAddr disk d n ≠ 0

/-- The data blocks in use are those the inodes name, each in one slot, the other blocks
are marked in use, and files have no holes. -/
structure Owned (sb : Superblock) (D : ℕ → Dinode) (disk : ℕ → Block) : Prop where
  exact : Ownership.Exact (InData sb) (Used disk sb) (Own sb D disk)
  metadata : ∀ b < sb.size.toNat, ¬ InData sb b → Used disk sb b
  full : ∀ i < ninum sb, (D i).type ≠ 0 → (D i).type ≠ T_DEV → Full disk (D i)

namespace Owned

variable {sb : Superblock} {D D' : ℕ → Dinode} {disk disk' : ℕ → Block} {i j b : ℕ} {d : Dinode}

theorem own_of_slot (hi : i < ninum sb) (ha : (D i).type ≠ 0) (hj : j < NSLOT)
    (hne : slotAddr disk (D i) j ≠ 0) : Own sb D disk (slotAddr disk (D i) j) (i, j) :=
  ⟨hi, ha, hj, hne, rfl⟩

theorem inData_of_slot (h : Owned sb D disk) (hi : i < ninum sb) (ha : (D i).type ≠ 0)
    (hj : j < NSLOT) (hne : slotAddr disk (D i) j ≠ 0) : InData sb (slotAddr disk (D i) j) :=
  (h.exact.used_of_own _ _ (own_of_slot hi ha hj hne)).1

theorem inData_of_free (h : Owned sb D disk) (hb : b < sb.size.toNat) (hfree : ¬ Used disk sb b) :
    InData sb b := by
  by_contra hn
  exact hfree (h.metadata b hb hn)

/-- Ownership depends on the slots, the types and the bitmap. -/
theorem of_slots (h : Owned sb D disk)
    (hty : ∀ i < ninum sb, (D' i).type ≠ 0 ↔ (D i).type ≠ 0)
    (hslot : ∀ i < ninum sb, (D i).type ≠ 0 → ∀ j < NSLOT,
      slotAddr disk' (D' i) j = slotAddr disk (D i) j)
    (hused : ∀ b < sb.size.toNat, Used disk' sb b ↔ Used disk sb b)
    (hfull : ∀ i < ninum sb, (D' i).type ≠ 0 → (D' i).type ≠ T_DEV → Full disk' (D' i)) :
    Owned sb D' disk' where
  exact := by
    refine h.exact.congr (fun b k => ?_) fun b hb => hused b hb.2
    constructor
    · rintro ⟨hi, ha, hj, hne, hk⟩
      have ha' := (hty _ hi).1 ha
      exact ⟨hi, ha', hj, hne, (hslot _ hi ha' _ hj).symm.trans hk⟩
    · rintro ⟨hi, ha, hj, hne, hk⟩
      exact ⟨hi, (hty _ hi).2 ha, hj, hne, (hslot _ hi ha _ hj).trans hk⟩
  metadata b hb hn := (hused b hb).2 (h.metadata b hb hn)
  full := hfull

theorem full_congr (h : Full disk d) {d' : Dinode} (hsize : d'.size = d.size)
    (hslot : ∀ n < MAXFILE, fileAddr disk' d' n = fileAddr disk d n) : Full disk' d' := by
  refine ⟨hsize ▸ h.1, fun n hn => ?_⟩
  rw [hsize] at hn
  have hlt : n < MAXFILE := Nat.lt_of_mul_lt_mul_right (hn.trans_le h.1)
  exact hslot n hlt ▸ h.2 n hn

/-- Blocks outside the data area do not matter. -/
theorem disk_congr (h : Owned sb D disk)
    (hdata : ∀ b, InData sb b → disk' b = disk b)
    (hbits : ∀ b < sb.size.toNat, Used disk' sb b ↔ Used disk sb b) : Owned sb D disk' := by
  have hslot : ∀ i < ninum sb, (D i).type ≠ 0 →
      ∀ j, slotAddr disk' (D i) j = slotAddr disk (D i) j := by
    intro i hi ha j
    refine slotAddr_congr (fun _ _ => rfl) (fun hne => hdata _ ?_) j
    exact h.inData_of_slot (j := NDIRECT) hi ha (by decide) hne
  refine h.of_slots (fun _ _ => Iff.rfl) (fun i hi ha j _ => hslot i hi ha j) hbits ?_
  exact fun i hi ha hdev => full_congr (h.full i hi ha hdev) rfl fun n _ => hslot i hi ha _

/-- A write to a data block keeps it. -/
theorem write_data (g : Geometry sb) (h : Owned sb D disk) (data : Block) {k : ℕ × ℕ}
    (hown : Own sb D disk b k) (hk : k.2 ≠ NDIRECT) :
    Owned sb D (update disk b data) ∧ ∀ i < ninum sb, (D i).type ≠ 0 → ∀ j,
      slotAddr (update disk b data) (D i) j = slotAddr disk (D i) j := by
  have hb := (h.exact.used_of_own b k hown).1
  have hslot : ∀ i < ninum sb, (D i).type ≠ 0 → ∀ j,
      slotAddr (update disk b data) (D i) j = slotAddr disk (D i) j := by
    intro i hi ha j
    refine slotAddr_congr (fun _ _ => rfl) (fun hne => update_of_ne ?_ _ _) j
    -- the indirect block of an inode is in another slot
    rintro rfl
    have := h.exact.unique _ _ _ hown (own_of_slot (j := NDIRECT) hi ha (by decide) hne)
    exact hk (congrArg Prod.snd this)
  refine ⟨h.of_slots (fun _ _ => Iff.rfl) (fun i hi ha j _ => hslot i hi ha j) ?_ ?_, hslot⟩
  · exact fun c hc => used_congr (update_of_ne (g.data_ne_bitmap hb hc).symm _ _)
  · exact fun i hi ha hdev => full_congr (h.full i hi ha hdev) rfl fun n _ => hslot i hi ha _

/-- An inode may change but for its type and addresses. -/
theorem set_inode (h : Owned sb D disk) (ha : (D i).type ≠ 0) (hd : d.type = (D i).type)
    (haddr : d.addrs = (D i).addrs) (hfull : d.type ≠ T_DEV → Full disk d) :
    Owned sb (update D i d) disk := by
  refine h.of_slots (fun l _ => ?_) (fun l _ _ j _ => ?_)
    (fun _ _ => Iff.rfl) fun l hl hal hdev => ?_
  · by_cases hli : l = i
    · subst hli
      rw [update_self, hd]
    · rw [update_of_ne hli]
  · by_cases hli : l = i
    · subst hli
      rw [update_self]
      refine slotAddr_congr (fun j _ => ?_) (fun _ => rfl) j
      simp only [Dinode.addr, haddr]
    · rw [update_of_ne hli]
  · by_cases hli : l = i
    · subst hli
      rw [update_self] at hdev ⊢
      exact hfull hdev
    · rw [update_of_ne hli] at hal hdev ⊢
      exact h.full l hl hal hdev

/-- A free block goes into an empty slot of inode `i`. -/
theorem give (h : Owned sb D disk) (hi : i < ninum sb) (ha : (D i).type ≠ 0) (hj : j < NSLOT)
    (hb : b < sb.size.toNat) (hfree : ¬ Used disk sb b) (hempty : slotAddr disk (D i) j = 0)
    (hty : ∀ l < ninum sb, (D' l).type = (D l).type)
    (hsize : ∀ l < ninum sb, (D' l).size = (D l).size)
    (hnew : slotAddr disk' (D' i) j = b)
    (hold : ∀ l < ninum sb, (D l).type ≠ 0 → ∀ m < NSLOT, (l, m) ≠ (i, j) →
      slotAddr disk' (D' l) m = slotAddr disk (D l) m)
    (hused : ∀ c < sb.size.toNat, Used disk' sb c ↔ Used disk sb c ∨ c = b)
    (hne : b ≠ 0) : Owned sb D' disk' where
  exact := by
    refine h.exact.give (b := b) (k := (i, j)) (h.inData_of_free hb hfree) hfree ?_
      fun c hc => hused c hc.2
    rintro c ⟨l, m⟩
    constructor
    · rintro ⟨hl, hal, hm, hc, hs⟩
      dsimp only at hl hal hm hs
      by_cases hlm : (l, m) = (i, j)
      · cases hlm
        exact .inr ⟨hs.symm.trans hnew, rfl⟩
      · have hal' : (D l).type ≠ 0 := hty l hl ▸ hal
        exact .inl ⟨hl, hal', hm, hc, (hold l hl hal' m hm hlm).symm.trans hs⟩
    · rintro (⟨hl, hal, hm, hc, hs⟩ | ⟨rfl, hlm⟩)
      · dsimp only at hl hal hm hs
        have hlm : (l, m) ≠ (i, j) := by
          rintro h
          cases h
          exact hc (hs.symm.trans hempty)
        exact ⟨hl, (hty l hl).symm ▸ hal, hm, hc, (hold l hl hal m hm hlm).trans hs⟩
      · cases hlm
        exact ⟨hi, (hty i hi).symm ▸ ha, hj, hne, hnew⟩
  metadata c hc hn := (hused c hc).2 (.inl (h.metadata c hc hn))
  full l hl hal hdev := by
    rw [hty l hl] at hal hdev
    obtain ⟨hbound, hhole⟩ := h.full l hl hal hdev
    refine ⟨hsize l hl ▸ hbound, fun n hn => ?_⟩
    rw [hsize l hl] at hn
    have hlt : n < MAXFILE := Nat.lt_of_mul_lt_mul_right (hn.trans_le hbound)
    by_cases hln : (l, fileSlot n) = (i, j)
    · cases hln
      rw [fileAddr, hnew]
      exact hne
    · rw [fileAddr, hold l hl hal _ (fileSlot_lt hlt) hln]
      exact hhole n hn

/-- The blocks of inode `i` are freed and its slots emptied. -/
theorem release (h : Owned sb D disk) (hD : ∀ l < ninum sb, l ≠ i → D' l = D l)
    (hslot : ∀ j < NSLOT, slotAddr disk' (D' i) j = 0) (hsize : (D' i).size = 0)
    (hdata : ∀ b, InData sb b → disk' b = disk b)
    (hused : ∀ c < sb.size.toNat, Used disk' sb c ↔
      Used disk sb c ∧ ∀ j, ¬ Own sb D disk c (i, j)) : Owned sb D' disk' := by
  have hsame : ∀ l < ninum sb, l ≠ i → (D l).type ≠ 0 → ∀ j,
      slotAddr disk' (D' l) j = slotAddr disk (D l) j := by
    intro l hl hli ha j
    rw [hD l hl hli]
    refine slotAddr_congr (fun _ _ => rfl) (fun hne => hdata _ ?_) j
    exact h.inData_of_slot (j := NDIRECT) hl ha (by decide) hne
  refine ⟨h.exact.release (fun k => k.1 = i) ?_ ?_, ?_, ?_⟩
  · rintro c ⟨l, j⟩
    constructor
    · rintro ⟨hl, ha, hj, hc, hs⟩
      dsimp only at hl ha hj hs
      have hli : l ≠ i := by
        rintro rfl
        exact hc (hs.symm.trans (hslot j hj))
      rw [hD l hl hli] at ha
      exact ⟨⟨hl, ha, hj, hc, (hsame l hl hli ha j).symm.trans hs⟩, hli⟩
    · rintro ⟨⟨hl, ha, hj, hc, hs⟩, hli⟩
      dsimp only at hl ha hj hs hli
      exact ⟨hl, (hD l hl hli).symm ▸ ha, hj, hc, (hsame l hl hli ha j).trans hs⟩
  · intro c hc
    rw [hused c hc.2]
    refine and_congr_right fun _ => ⟨?_, fun hno j => hno (i, j) rfl⟩
    rintro hno ⟨l, j⟩ rfl
    exact hno j
  · intro c hc hn
    refine (hused c hc).2 ⟨h.metadata c hc hn, fun j hown => ?_⟩
    exact hn (h.exact.used_of_own _ _ hown).1
  · intro l hl ha hdev
    by_cases hli : l = i
    · subst hli
      rw [Full, hsize]
      exact ⟨Nat.zero_le _, fun n hn => absurd hn (Nat.not_lt_zero _)⟩
    · rw [hD l hl hli] at ha hdev
      refine full_congr (h.full l hl ha hdev) ?_ fun n _ => hsame l hl hli ha _
      rw [hD l hl hli]

/-- An inode without blocks may get any type. -/
theorem set_empty (h : Owned sb D disk)
    (hold : (D i).type = 0 ∨ ∀ j < NSLOT, slotAddr disk (D i) j = 0)
    (hslot : ∀ j < NSLOT, slotAddr disk d j = 0) (hsize : d.size = 0) :
    Owned sb (update D i d) disk where
  exact := by
    refine h.exact.congr ?_ fun _ _ => Iff.rfl
    rintro c ⟨l, j⟩
    by_cases hli : l = i
    · subst hli
      simp only [Own, update_self]
      constructor
      · rintro ⟨-, -, hj, hc, hs⟩
        exact absurd (hs.symm.trans (hslot j hj)) hc
      · rintro ⟨-, ha, hj, hc, hs⟩
        rcases hold with hfree | hempty
        · exact absurd hfree ha
        · exact absurd (hs.symm.trans (hempty j hj)) hc
    · simp only [Own, update_of_ne hli]
  metadata := h.metadata
  full l hl ha hdev := by
    by_cases hli : l = i
    · subst hli
      rw [update_self, Full, hsize]
      exact ⟨Nat.zero_le _, fun n hn => absurd hn (Nat.not_lt_zero _)⟩
    · rw [update_of_ne hli] at ha hdev ⊢
      exact h.full l hl ha hdev

end Owned

end Xv6
