import Xv6.Bmap

/-!
# The blocks a write logs

`writei` writes a run of blocks of a file. For each it calls `bmap`, which takes a block when there
is none, and logs the block. The blocks that are logged are known before the first of them is
written (`writeSet`) : those that the file has, the fresh ones and their bitmap blocks, and the
indirect block when one of the new blocks goes into it. At each block, what `bmap` logs is in the
set, and the set of the blocks that are left is a part of it (`Mapped.mem_writeSet`,
`Mapped.writeSet_subset`).
-/

open Prog Layout Finset

namespace Xv6

/-- The blocks among `S` that file `i` has. -/
def present (s : FS) (i : ℕ) (S : Finset ℕ) : Finset ℕ :=
  (S.image (fileAddr s.disk (cur s i))).erase 0

/-- The indirect block, if it is there and a block among `S` is put into it. -/
def changedIndirect (s : FS) (i : ℕ) (S : Finset ℕ) : Finset ℕ :=
  if FillsIndirect s i S ∧ (cur s i).addr NDIRECT ≠ 0 then {(cur s i).addr NDIRECT} else ∅

/-- The blocks `writei` logs when it writes the blocks `S` of file `i` : those of the file, and the
bitmap blocks of the new ones. The block of the inode is not among them. -/
def writeSet (s : FS) (i : ℕ) (S : Finset ℕ) : Finset ℕ :=
  fresh s i (S.biUnion bmapSlots) ∪ present s i S ∪ changedIndirect s i S ∪
    (fresh s i (S.biUnion bmapSlots)).image (BBLOCK · s.sb)

theorem mem_bmapSlots {m n : ℕ} :
    m ∈ bmapSlots n ↔ m = fileSlot n ∨ m = NDIRECT ∧ NDIRECT ≤ n := by
  unfold bmapSlots fileSlot
  split_ifs with h
  · rw [mem_singleton]
    exact ⟨.inl, fun hm => hm.resolve_right fun hm => Nat.not_lt.2 hm.2 h⟩
  · rw [mem_insert, mem_singleton, or_comm, and_iff_left (Nat.not_lt.1 h)]

section

variable {s s' s1 : FS} {k : Iptr} {i n b c : ℕ} {S S' N : Finset ℕ}

theorem mem_present : c ∈ present s i S ↔
    c ≠ 0 ∧ ∃ n ∈ S, fileAddr s.disk (cur s i) n = c := by
  rw [present, mem_erase, mem_image]

theorem mem_changedIndirect : c ∈ changedIndirect s i S ↔
    FillsIndirect s i S ∧ c ≠ 0 ∧ c = (cur s i).addr NDIRECT := by
  unfold changedIndirect
  split_ifs with h
  · rw [mem_singleton]
    exact ⟨fun hc => ⟨h.1, hc ▸ h.2, hc⟩, fun hc => hc.2.2⟩
  · refine iff_of_false (notMem_empty c) ?_
    rintro ⟨hS, hne, rfl⟩
    exact h ⟨hS, hne⟩

theorem mem_writeSet : c ∈ writeSet s i S ↔ c ∈ fresh s i (S.biUnion bmapSlots) ∨
    c ∈ (fresh s i (S.biUnion bmapSlots)).image (BBLOCK · s.sb) ∨ c ∈ present s i S ∨
      c ∈ changedIndirect s i S := by
  simp only [writeSet, mem_union]
  tauto

theorem FillsIndirect.mono (h : S ⊆ S') (hS : FillsIndirect s i S) : FillsIndirect s i S' := by
  obtain ⟨n, hn, hfill⟩ := hS
  exact ⟨n, h hn, hfill⟩

theorem writeSet_mono (h : S ⊆ S') (s : FS) (i : ℕ) : writeSet s i S ⊆ writeSet s i S' := by
  have hfresh := fresh_mono (biUnion_subset_biUnion_of_subset_left bmapSlots h) s i
  intro c
  simp only [mem_writeSet, mem_present, mem_changedIndirect]
  rintro (hc | hc | ⟨hne, n, hn, hc⟩ | ⟨hS, hc⟩)
  · exact .inl (hfresh hc)
  · exact .inr (.inl (image_subset_image hfresh hc))
  · exact .inr (.inr (.inl ⟨hne, n, h hn, hc⟩))
  · exact .inr (.inr (.inr ⟨hS.mono h, hc⟩))

theorem covers_writeSet {V : Finset ℕ} (hV : writeSet s i S ⊆ V) (hn : n ∈ S) :
    Covers s.sb V (fresh s i (bmapSlots n)) := by
  intro c hc
  have hc' := fresh_mono (subset_biUnion_of_mem bmapSlots hn) s i hc
  exact ⟨hV (mem_writeSet.2 (.inl hc')),
    hV (mem_writeSet.2 (.inr (.inl (mem_image_of_mem _ hc'))))⟩

/-- A write of `S` logs a block for each block of `S` and the indirect block, next to the bitmap
blocks. -/
theorem card_fileBlocks (s : FS) (i : ℕ) (S : Finset ℕ) :
    (fresh s i (S.biUnion bmapSlots) ∪ present s i S ∪ changedIndirect s i S).card ≤
      S.card + 1 := by
  have hmissing : missing (S.biUnion bmapSlots) s.disk (cur s i) ≤
      (S.filter fun n => fileAddr s.disk (cur s i) n = 0).card +
        if (cur s i).addr NDIRECT = 0 then 1 else 0 := by
    have hsub : ((S.biUnion bmapSlots).filter fun j => slotAddr s.disk (cur s i) j = 0) ⊆
        ((S.filter fun n => fileAddr s.disk (cur s i) n = 0).image fileSlot) ∪
          if (cur s i).addr NDIRECT = 0 then {NDIRECT} else ∅ := by
      intro m hm
      obtain ⟨hm, h0⟩ := mem_filter.1 hm
      obtain ⟨n, hn, hm⟩ := mem_biUnion.1 hm
      rcases mem_bmapSlots.1 hm with rfl | ⟨rfl, -⟩
      · exact mem_union_left _ (mem_image_of_mem _ (mem_filter.2 ⟨hn, h0⟩))
      · rw [slotAddr_of_lt (Nat.lt_succ_self _)] at h0
        rw [if_pos h0]
        exact mem_union_right _ (mem_singleton_self _)
    refine (card_le_card hsub).trans ((card_union_le _ _).trans
      (Nat.add_le_add card_image_le ?_))
    split_ifs <;> simp
  have hpresent : (present s i S).card ≤
      (S.filter fun n => ¬ fileAddr s.disk (cur s i) n = 0).card := by
    have hsub : present s i S ⊆ (S.filter fun n => ¬ fileAddr s.disk (cur s i) n = 0).image
        (fileAddr s.disk (cur s i)) := by
      intro c hc
      obtain ⟨hne, n, hn, rfl⟩ := mem_present.1 hc
      exact mem_image_of_mem _ (mem_filter.2 ⟨hn, hne⟩)
    exact (card_le_card hsub).trans card_image_le
  have hind : (changedIndirect s i S).card ≤ if (cur s i).addr NDIRECT = 0 then 0 else 1 := by
    unfold changedIndirect
    split_ifs with h h0 h0
    · exact absurd h0 h.2
    · exact le_rfl
    · exact le_rfl
    · exact Nat.zero_le _
  have hfresh := card_lowest (missing (S.biUnion bmapSlots) s.disk (cur s i))
    (freeBlocks s.disk s.sb)
  have hsplit := S.card_filter_add_card_filter_not fun n => fileAddr s.disk (cur s i) n = 0
  have h1 := card_union_le (fresh s i (S.biUnion bmapSlots) ∪ present s i S)
    (changedIndirect s i S)
  have h2 := card_union_le (fresh s i (S.biUnion bmapSlots)) (present s i S)
  rw [← fresh] at hfresh
  split_ifs at hmissing hind <;> omega

/-- The bitmap blocks of the free blocks. -/
def freeMaps (s : FS) : Finset ℕ :=
  (freeBlocks s.disk s.sb).image (BBLOCK · s.sb)

theorem card_freeMaps_le (s : FS) : (freeMaps s).card ≤ nbitmap s.sb := by
  have hsub : freeMaps s ⊆ bitmapBlocks s.sb :=
    image_subset_iff.2 fun _ hc => BBLOCK_mem (mem_freeBlocks.1 hc).1
  refine (card_le_card hsub).trans_eq ?_
  rw [bitmapBlocks, Nat.card_Ico, Nat.add_sub_cancel_left]

theorem card_writeSet_le (s : FS) (i : ℕ) (S : Finset ℕ) :
    (writeSet s i S).card ≤ S.card + 1 + (freeMaps s).card :=
  (card_union_le _ _).trans (Nat.add_le_add (card_fileBlocks s i S)
    (card_le_card (image_subset_image (fresh_subset s i _))))

/-! ## One block of a write -/

theorem slots_congr (hslot : ∀ m, slotAddr s'.disk (cur s' i) m = slotAddr s.disk (cur s i) m) :
    fileAddr s'.disk (cur s' i) = fileAddr s.disk (cur s i) ∧
      (cur s' i).addr NDIRECT = (cur s i).addr NDIRECT := by
  refine ⟨funext fun n => hslot (fileSlot n), ?_⟩
  have hN := hslot NDIRECT
  rwa [slotAddr_of_lt (Nat.lt_succ_self _), slotAddr_of_lt (Nat.lt_succ_self _)] at hN

section

variable (hsb : s'.sb = s.sb)
  (hslot : ∀ m, slotAddr s'.disk (cur s' i) m = slotAddr s.disk (cur s i) m)
  (hfree : freeBlocks s'.disk s.sb = freeBlocks s.disk s.sb)
include hsb hslot hfree

theorem fresh_congr (T : Finset ℕ) : fresh s' i T = fresh s i T := by
  simp only [fresh, missing, hslot, hsb, hfree]

theorem writeSet_congr (S : Finset ℕ) : writeSet s' i S = writeSet s i S := by
  obtain ⟨haddr, hind⟩ := slots_congr hslot
  ext c
  simp only [mem_writeSet, mem_present, mem_changedIndirect, FillsIndirect,
    fresh_congr hsb hslot hfree, haddr, hind, hsb]

end

namespace Mapped

variable (hm : Mapped s k i n b s1) (hS : ∀ m ∈ S, m < MAXFILE)
include hm

theorem fileAddr_eq {m : ℕ} (hlt : m < MAXFILE) (hne : m ≠ n) :
    fileAddr s1.disk (cur s1 i) m = fileAddr s.disk (cur s i) m := by
  refine hm.slots _ (fileSlot_lt hlt) (.inr fun hmem => ?_)
  rcases mem_bmapSlots.1 hmem with heq | ⟨heq, -⟩
  · exact hne (fileSlot_inj heq)
  · exact fileSlot_ne m heq

theorem eq_fileAddr (hn : n < MAXFILE) (hne : fileAddr s.disk (cur s i) n ≠ 0) :
    b = fileAddr s.disk (cur s i) n := by
  rw [← hm.addr]
  exact hm.slots _ (fileSlot_lt hn) (.inl hne)

theorem indirect_ne (h : FillsIndirect s i {n}) : (cur s1 i).addr NDIRECT ≠ 0 := by
  obtain ⟨m, hmem, hge, -⟩ := h
  rw [mem_singleton.1 hmem] at hge
  exact indirect_ne_zero hge (hm.addr.symm ▸ hm.ne_zero)

include hS

/-- The block, and what `bmap` logged. -/
theorem mem_writeSet (hn : n ∈ S) :
    b ∈ writeSet s i S ∧ ∀ c ∈ s1.log.lh, c ∈ s.log.lh ∨ c ∈ writeSet s i S := by
  obtain ⟨N, htook, hnew⟩ := hm.took
  have hN : N ⊆ fresh s i (S.biUnion bmapSlots) := by
    rw [htook.fresh_eq _ (biUnion_subset_biUnion_of_subset_left _
      (singleton_subset_iff.2 hn)) (slots_lt hS)]
    exact subset_union_left
  constructor
  · rw [Xv6.mem_writeSet, mem_present]
    by_cases h0 : fileAddr s.disk (cur s i) n = 0
    · exact .inl (hN (hnew h0))
    · exact .inr (.inr (.inl ⟨hm.ne_zero, n, hn, (hm.eq_fileAddr (hS n hn) h0).symm⟩))
  · intro c hc
    rw [Xv6.mem_writeSet, mem_changedIndirect]
    rcases (htook.mem_lh c).1 hc with hc | hc | hc | hc | ⟨hfills, rfl⟩
    · exact .inl hc
    · exact .inr (.inl (hN hc))
    · exact .inr (.inr (.inl (image_subset_image hN hc)))
    · exact absurd hc (notMem_empty c)
    · rcases htook.indirect with heq | hmem
      · exact .inr (.inr (.inr (.inr ⟨hfills.mono (singleton_subset_iff.2 hn),
          hm.indirect_ne hfills, heq⟩)))
      · exact .inr (.inl (hN hmem))

/-- What is still to be logged was to be logged before. -/
theorem writeSet_subset (hS' : S' ⊆ S) (hn' : n ∉ S')
    (hn : fileAddr s.disk (cur s i) n ≠ 0 ∧ s1 = s ∨ n ∈ S) :
    writeSet s1 i S' ⊆ writeSet s i S := by
  rcases hn with ⟨-, rfl⟩ | hn
  · exact writeSet_mono hS' _ _
  obtain ⟨N, htook, -⟩ := hm.took
  have hfresh := htook.fresh_eq _ (biUnion_subset_biUnion_of_subset_left bmapSlots
    (singleton_subset_iff.2 hn)) (slots_lt hS)
  have hsub : fresh s1 i (S'.biUnion bmapSlots) ⊆ fresh s i (S.biUnion bmapSlots) := by
    rw [hfresh]
    exact (fresh_mono (biUnion_subset_biUnion_of_subset_left _ hS') _ _).trans
      subset_union_right
  have haddr : ∀ m ∈ S', fileAddr s1.disk (cur s1 i) m = fileAddr s.disk (cur s i) m :=
    fun m hmem => hm.fileAddr_eq (hS m (hS' hmem)) fun heq => hn' (heq ▸ hmem)
  intro c
  simp only [Xv6.mem_writeSet, mem_present, mem_changedIndirect, FS.sb_of_env hm.env]
  rintro (hc | hc | ⟨hne, m, hmem, hc⟩ | ⟨⟨m, hmem, hge, h0⟩, hne, hc⟩)
  · exact .inl (hsub hc)
  · exact .inr (.inl (image_subset_image hsub hc))
  · exact .inr (.inr (.inl ⟨hne, m, hS' hmem, haddr m hmem ▸ hc⟩))
  · rcases htook.indirect with heq | hN
    · exact .inr (.inr (.inr ⟨⟨m, hS' hmem, hge, haddr m hmem ▸ h0⟩, hne, hc.trans heq⟩))
    · rw [hfresh]
      exact .inl (mem_union_left _ (hc ▸ hN))

end Mapped

/-- The block is written and logged. -/
theorem Took.write (h : Took s i {n} ∅ N s1) (hm : Mapped s k i n b s1) (hn : n < MAXFILE)
    (hnew : fileAddr s.disk (cur s i) n = 0 → b ∈ N) {data : Block}
    (hcur : cur (s1.write b data) = cur s1)
    (hslot : ∀ m, slotAddr (s1.write b data).disk (cur s1 i) m = slotAddr s1.disk (cur s1 i) m)
    (hfree : freeBlocks (s1.write b data).disk s.sb = freeBlocks s1.disk s.sb) :
    Took s i {n} (present s i {n}) N (s1.write b data) where
  absorbed := h.absorbed.trans (Absorbed.absorb _ _)
  free_eq := hfree.trans h.free_eq
  fresh_eq T hT hlt := by
    have hsb : (s1.write b data).sb = s1.sb := rfl
    have hfree1 : freeBlocks (s1.write b data).disk s1.sb = freeBlocks s1.disk s1.sb := by
      rw [FS.sb_of_env hm.env]
      exact hfree
    rw [h.fresh_eq T hT hlt, fresh_congr hsb (fun m => by rw [hcur, hslot]) hfree1]
  indirect := by
    rw [hcur]
    exact h.indirect
  mem_lh c := by
    have hlh : c ∈ (s1.write b data).log.lh ↔ c = b ∨ c ∈ s1.log.lh := mem_absorb
    rw [hlh, h.mem_lh, hcur, mem_present]
    simp only [mem_singleton, exists_eq_left, notMem_empty, false_or]
    constructor
    · rintro (rfl | hc | hc | hc | hc)
      · by_cases h0 : fileAddr s.disk (cur s i) n = 0
        · exact .inr (.inl (hnew h0))
        · exact .inr (.inr (.inr (.inl ⟨hm.ne_zero, (hm.eq_fileAddr hn h0).symm⟩)))
      all_goals tauto
    · rintro (hc | hc | hc | ⟨hne, rfl⟩ | hc)
      case inr.inr.inr.inl => exact .inl (hm.eq_fileAddr hn hne).symm
      all_goals tauto

end

end Xv6
