import Mathlib.Data.Finset.Max
import Xv6.View

/-!
# Block maps

`bmap` and `itrunc` of `fs.c` over the store. `bmap` returns the block at an index of a
file; a missing block, or a missing indirect block, is allocated and put into its slot
(`Filled`). `itrunc` frees the blocks of all slots and empties them.

`bmap` fails for want of free blocks or of room in the log. `missing` counts the slots it
may have to fill; as `balloc` takes the lowest free block each time, the blocks that will
fill them are known at the start (`fresh`). A call takes some of them and leaves the others
(`Took`), so a loop of `bmap` logs the fresh blocks of its first state, their bitmap blocks and the
indirect block.
-/

open Function Prog Layout Finset

namespace Xv6

section

variable {s s' : FS} {x : Option Iptr} {k : Iptr} {i j b c : ℕ}

/-! ## Taking a block -/

theorem takeBlock_self (s : FS) (b : ℕ) : (s.takeBlock b).disk b = zeroBlock :=
  update_self _ _ _

theorem Store.inData (h : Store x s) (hb : b ∈ freeBlocks s.disk s.sb) : InData s.sb b := by
  obtain ⟨hlt, hfree⟩ := mem_freeBlocks.1 hb
  exact h.owned.inData_of_free hlt hfree

theorem Store.takeBlock_data (h : Store x s) (hb : b ∈ freeBlocks s.disk s.sb)
    (hc : InData s.sb c) (hcb : c ≠ b) : (s.takeBlock b).disk c = s.disk c :=
  (update_of_ne hcb _ _).trans
    (update_of_ne (h.geometry.data_ne_bitmap hc (mem_freeBlocks.1 hb).1) _ _)

theorem Store.takeBlock_low (h : Store x s) (hb : b ∈ freeBlocks s.disk s.sb)
    (hc : c < s.sb.bmapstart.toNat) : (s.takeBlock b).disk c = s.disk c := by
  have hbm := h.geometry.bitmap_block (mem_freeBlocks.1 hb).1
  have hin := (h.inData hb).1
  exact (update_of_ne (by omega) _ _).trans (update_of_ne (by omega) _ _)

theorem Store.takeBlock_used (h : Store x s) (hb : b ∈ freeBlocks s.disk s.sb)
    (hc : c < s.sb.size.toNat) :
    Used (s.takeBlock b).disk s.sb c ↔ Used s.disk s.sb c ∨ c = b := by
  rw [← used_setBit s.disk s.sb b c]
  exact used_congr (update_of_ne (h.geometry.data_ne_bitmap (h.inData hb) hc).symm _ _)

/-! ## Filling a slot -/

theorem slotAddr_setAddr {disk disk' : ℕ → Block} {d : Dinode} (hj : j < NDIRECT + 1)
    (hlt : b < 2 ^ 32) (hne : b ≠ 0) (hempty : d.addr j = 0) (hzero : disk' b = zeroBlock)
    (hind : d.addr NDIRECT ≠ 0 → disk' (d.addr NDIRECT) = disk (d.addr NDIRECT)) (m : ℕ) :
    slotAddr disk' (d.setAddr j b) m = if m = j then b else slotAddr disk d m := by
  unfold slotAddr
  by_cases hm : m < NDIRECT + 1
  · rw [if_pos hm, if_pos hm, d.addr_setAddr hj hlt]
  · have hmj : m ≠ j := by omega
    rw [if_neg hm, if_neg hm, if_neg hmj, d.addr_setAddr hj hlt]
    by_cases hN : NDIRECT = j
    · rw [if_pos hN, if_neg hne, hzero, indWord_zeroBlock, if_pos (hN ▸ hempty)]
    · rw [if_neg hN]
      split_ifs with h0
      · rfl
      · rw [hind h0]

theorem slotAddr_write {disk disk' : ℕ → Block} {d : Dinode} (hj : NDIRECT + 1 ≤ j)
    (hj' : j < NSLOT) (hlt : b < 2 ^ 32) (hne : d.addr NDIRECT ≠ 0)
    (hind : disk' (d.addr NDIRECT) = Bytes.write Codec.u32 (disk (d.addr NDIRECT))
      (4 * (j - (NDIRECT + 1))) (UInt32.ofNat b)) (m : ℕ) :
    slotAddr disk' d m = if m = j then b else slotAddr disk d m := by
  unfold slotAddr
  by_cases hm : m < NDIRECT + 1
  · have hmj : m ≠ j := by omega
    rw [if_pos hm, if_pos hm, if_neg hmj]
  · have hidx : j - (NDIRECT + 1) < NINDIRECT := by
      have : j < 141 := hj'
      show j - 13 < 128
      omega
    have hiff : m - (NDIRECT + 1) = j - (NDIRECT + 1) ↔ m = j := by omega
    rw [if_neg hm, if_neg hm, if_neg hne, if_neg hne, hind, indWord_write _ hidx hlt]
    exact if_congr hiff rfl rfl

section

variable (h : Store x s) (hk : Loaded s k i) (hb : b ∈ freeBlocks s.disk s.sb)
include h hk hb

theorem slotAddr_other {disk' : ℕ → Block}
    (hdisk : ∀ c, InData s.sb c → c ≠ b → c ≠ (cur s i).addr NDIRECT → disk' c = s.disk c) :
    ∀ l < ninum s.sb, l ≠ i → (cur s l).type ≠ 0 → ∀ m,
      slotAddr disk' (cur s l) m = slotAddr s.disk (cur s l) m := by
  intro l hl hli ha m
  refine slotAddr_congr (fun _ _ => rfl) (fun hne => ?_) m
  have hown := Owned.own_of_slot (D := cur s) hl ha NDIRECT_lt
    (show slotAddr s.disk (cur s l) NDIRECT ≠ 0 from hne)
  obtain ⟨hin, hused⟩ := h.owned.exact.used_of_own _ _ hown
  refine hdisk _ hin ?_ ?_
  · rintro rfl
    exact (mem_freeBlocks.1 hb).2 hused
  · intro heq
    refine hli (congrArg Prod.fst (h.owned.exact.unique _ _ (i, NDIRECT) hown ?_))
    exact ⟨h.lt hk, h.cur_type hk, NDIRECT_lt, hne, heq.symm⟩

/-- A free block that is taken and set in slot `j` fills the slot. -/
theorem filled (hx : x = none ∨ x = some k) (hj : j < NSLOT)
    (hempty : slotAddr s.disk (cur s i) j = 0) (henv : s'.env = s.env) (hsame : SameSlots s s')
    (hdin : ∀ l ≠ k, (s'.icache l).din = (s.icache l).din)
    (haddrs : (s'.icache k).din = { cur s i with addrs := (s'.icache k).din.addrs })
    (hslot : ∀ m, slotAddr s'.disk (s'.icache k).din m =
      if m = j then b else slotAddr s.disk (cur s i) m)
    (hlow : ∀ c < s.sb.bmapstart.toNat, s'.disk c = s.disk c)
    (hdata : ∀ c, InData s.sb c → c ≠ b → c ≠ (cur s i).addr NDIRECT → s'.disk c = s.disk c)
    (hzero : s'.disk b = zeroBlock)
    (hused : ∀ c < s.sb.size.toNat, Used s'.disk s.sb c ↔ Used s.disk s.sb c ∨ c = b) :
    Filled s s' k i j b := by
  obtain ⟨hsize, hfree⟩ := mem_freeBlocks.1 hb
  have hne : b ≠ 0 := by
    have := h.geometry.two_le_data (h.inData hb)
    omega
  have hi := h.lt hk
  have ha := h.cur_type hk
  have hmeta : (s'.icache k).din.type = (cur s i).type ∧
      (s'.icache k).din.size = (cur s i).size := by
    rw [haddrs]
    exact ⟨rfl, rfl⟩
  have howned : Owned s.sb (update (cur s) i (s'.icache k).din) s'.disk := by
    refine h.owned.give (b := b) hi ha hj hsize hfree hempty ?_ ?_ ?_ ?_ hused hne
    · intro l _
      by_cases hli : l = i
      · rw [hli, update_self, hmeta.1]
      · rw [update_of_ne hli]
    · intro l _
      by_cases hli : l = i
      · rw [hli, update_self, hmeta.2]
      · rw [update_of_ne hli]
    · rw [update_self, hslot, if_pos rfl]
    · intro l hl hal m _ hlm
      by_cases hli : l = i
      · subst hli
        rw [update_self, hslot, if_neg]
        rintro rfl
        exact hlm rfl
      · rw [update_of_ne hli]
        exact slotAddr_other h hk hb hdata l hl hli hal m
  obtain ⟨hstore, hcur⟩ := h.change hx hk (FS.sb_of_env henv) hsame hdin hlow
    (hmeta.1 ▸ ha) howned
  have hself : cur s' i = (s'.icache k).din := by rw [hcur, update_self]
  exact
    { store := hstore
      env := henv
      same := hsame
      other := fun l hl => by rw [hcur, update_of_ne hl]
      type := by rw [hself, haddrs]
      major := by rw [hself, haddrs]
      minor := by rw [hself, haddrs]
      nlink := by rw [hself, haddrs]
      size := by rw [hself, haddrs]
      slot := fun m _ => by rw [hself, hslot]
      ne_zero := hne
      free := hfree
      zero := hzero
      data := hdata
      free_eq := freeBlocks_take hused }

theorem ind_ne (hne : (cur s i).addr NDIRECT ≠ 0) :
    InData s.sb ((cur s i).addr NDIRECT) ∧ (cur s i).addr NDIRECT ≠ b := by
  have hown := Owned.own_of_slot (h.lt hk) (h.cur_type hk) NDIRECT_lt
    (show slotAddr s.disk (cur s i) NDIRECT ≠ 0 from hne)
  obtain ⟨hin, hused⟩ := h.owned.exact.used_of_own _ _ hown
  refine ⟨hin, ?_⟩
  rintro rfl
  exact (mem_freeBlocks.1 hb).2 hused

/-- `bmap` puts a new block into the inode. -/
theorem fill_direct (hx : x = none ∨ x = some k) (hj : j < NDIRECT + 1)
    (hempty : (s.icache k).din.addr j = 0) :
    Filled s ((s.takeBlock b).setDin k ((s.icache k).din.setAddr j b)) k i j b := by
  have hlt : b < 2 ^ 32 := (mem_freeBlocks.1 hb).1.trans s.sb.size.toNat_lt
  have hne : b ≠ 0 := by
    have := h.geometry.two_le_data (h.inData hb)
    omega
  have hcur := h.cur_eq hk
  have hdin : (((s.takeBlock b).setDin k ((s.icache k).din.setAddr j b)).icache k).din =
      (s.icache k).din.setAddr j b := by simp [FS.setDin]
  refine filled h hk hb hx (hj.trans_le (by decide)) ?_ rfl
    (SameSlots.setDin (s.takeBlock b) k _) (fun l hl => ?_) ?_ (fun m => ?_)
    (fun c hc => h.takeBlock_low hb hc) (fun c hc hcb _ => h.takeBlock_data hb hc hcb)
    (takeBlock_self s b) fun c hc => h.takeBlock_used hb hc
  · rw [slotAddr_of_lt hj, hcur, hempty]
  · simp [FS.setDin, hl, FS.takeBlock, FS.write]
  · rw [hdin, hcur]
    rfl
  · rw [hdin, hcur]
    refine slotAddr_setAddr hj hlt hne hempty (takeBlock_self s b) (fun hne' => ?_) m
    rw [← hcur] at hne' ⊢
    obtain ⟨hin, hib⟩ := ind_ne h hk hb hne'
    exact h.takeBlock_data hb hin hib

/-- `bmap` puts a new block into the indirect block. -/
theorem fill_indirect {n : ℕ} (hx : x = none ∨ x = some k) (hn : NDIRECT ≤ n)
    (hn' : n < MAXFILE) (hind : (s.icache k).din.addr NDIRECT ≠ 0)
    (hempty : indWord (s.disk ((s.icache k).din.addr NDIRECT)) (n - NDIRECT) = 0) :
    Filled s ((s.takeBlock b).write ((s.icache k).din.addr NDIRECT)
      (Bytes.write Codec.u32 ((s.takeBlock b).disk ((s.icache k).din.addr NDIRECT))
        (4 * (n - NDIRECT)) (UInt32.ofNat b))) k i (n + 1) b := by
  have hlt : b < 2 ^ 32 := (mem_freeBlocks.1 hb).1.trans s.sb.size.toNat_lt
  have hcur := h.cur_eq hk
  rw [← hcur] at hind hempty ⊢
  obtain ⟨hin, hib⟩ := ind_ne h hk hb hind
  rw [h.takeBlock_data hb hin hib]
  have hidx : n + 1 - (NDIRECT + 1) = n - NDIRECT := Nat.add_sub_add_right n 1 NDIRECT
  refine filled h hk hb hx (Nat.succ_lt_succ hn') ?_ rfl (SameSlots.refl s) (fun l _ => rfl) ?_
    (fun m => ?_) (fun c hc => ?_) (fun c hc hcb hci => ?_) ?_ fun c hc => ?_
  · rw [slotAddr, if_neg (by omega), if_neg hind, hidx, hempty]
  · rw [hcur]
    rfl
  · show slotAddr _ (s.icache k).din m = _
    rw [← hcur]
    refine slotAddr_write (Nat.succ_le_succ hn) (Nat.succ_lt_succ hn') hlt hind ?_ m
    rw [hidx]
    exact update_self _ _ _
  · have := (Geometry.bitmap_block h.geometry (mem_freeBlocks.1 hb).1)
    have := hin.1
    exact (update_of_ne (by omega) _ _).trans (h.takeBlock_low hb hc)
  · exact (update_of_ne hci _ _).trans (h.takeBlock_data hb hc hcb)
  · exact (update_of_ne hib.symm _ _).trans (takeBlock_self s b)
  · rw [← h.takeBlock_used hb hc]
    exact used_congr (update_of_ne (h.geometry.data_ne_bitmap hin hc).symm _ _)

end

end

/-! ## The slots `bmap` fills -/

/-- The slots `bmap` may fill for block `n` of a file. -/
def bmapSlots (n : ℕ) : Finset ℕ :=
  if n < NDIRECT then {n} else {NDIRECT, n + 1}

theorem fileSlot_mem (n : ℕ) : fileSlot n ∈ bmapSlots n := by
  unfold fileSlot bmapSlots
  split_ifs <;> simp

theorem bmapSlots_lt {n m : ℕ} (hn : n < MAXFILE) (hm : m ∈ bmapSlots n) : m < NSLOT := by
  unfold bmapSlots at hm
  split_ifs at hm with h
  · rw [mem_singleton.1 hm]
    exact h.trans NDIRECT_lt
  · rcases mem_insert.1 hm with rfl | hm
    · exact NDIRECT_lt
    · rw [mem_singleton.1 hm]
      exact Nat.succ_lt_succ hn

theorem slots_lt {S : Finset ℕ} (hS : ∀ n ∈ S, n < MAXFILE) :
    ∀ j ∈ S.biUnion bmapSlots, j < NSLOT := by
  intro j hj
  obtain ⟨n, hn, hj⟩ := mem_biUnion.1 hj
  exact bmapSlots_lt (hS n hn) hj

/-- Number of empty slots among `T`. -/
def missing (T : Finset ℕ) (disk : ℕ → Block) (d : Dinode) : ℕ :=
  (T.filter fun j => slotAddr disk d j = 0).card

theorem missing_mono {T U : Finset ℕ} (h : T ⊆ U) (disk : ℕ → Block) (d : Dinode) :
    missing T disk d ≤ missing U disk d :=
  card_le_card (filter_subset_filter _ h)

theorem missing_pos {T : Finset ℕ} {disk : ℕ → Block} {d : Dinode} {j : ℕ} (hj : j ∈ T)
    (h : slotAddr disk d j = 0) : 0 < missing T disk d :=
  card_pos.2 ⟨j, mem_filter.2 ⟨hj, h⟩⟩

theorem Filled.missing_eq {s s' : FS} {k : Iptr} {i j b : ℕ} (hf : Filled s s' k i j b)
    (hempty : slotAddr s.disk (cur s i) j = 0) {T : Finset ℕ} (hj : j ∈ T)
    (hT : ∀ m ∈ T, m < NSLOT) :
    missing T s'.disk (cur s' i) + 1 = missing T s.disk (cur s i) := by
  have heq : (T.filter fun m => slotAddr s'.disk (cur s' i) m = 0) =
      (T.filter fun m => slotAddr s.disk (cur s i) m = 0).erase j := by
    ext m
    simp only [mem_erase, mem_filter]
    constructor
    · rintro ⟨hm, h0⟩
      rw [hf.slot m (hT m hm)] at h0
      split_ifs at h0 with hmj
      · exact absurd h0 hf.ne_zero
      · exact ⟨hmj, hm, h0⟩
    · rintro ⟨hmj, hm, h0⟩
      rw [hf.slot m (hT m hm), if_neg hmj]
      exact ⟨hm, h0⟩
  rw [missing, heq, card_erase_add_one (mem_filter.2 ⟨hj, hempty⟩), missing]

/-! ## The blocks `balloc` takes -/

/-- The `m` lowest elements of `F`. -/
def lowest (m : ℕ) (F : Finset ℕ) : Finset ℕ :=
  F.filter fun b => (F.filter (· < b)).card < m

theorem lowest_zero (F : Finset ℕ) : lowest 0 F = ∅ :=
  filter_false_of_mem fun _ _ => Nat.not_lt_zero _

theorem lowest_mono {m n : ℕ} (h : m ≤ n) (F : Finset ℕ) : lowest m F ⊆ lowest n F := by
  intro b hb
  obtain ⟨hF, hlt⟩ := mem_filter.1 hb
  exact mem_filter.2 ⟨hF, hlt.trans_le h⟩

theorem lowest_succ {F : Finset ℕ} {b : ℕ} (hb : b ∈ F) (hmin : ∀ c ∈ F, b ≤ c) (m : ℕ) :
    lowest (m + 1) F = insert b (lowest m (F.erase b)) := by
  ext c
  simp only [lowest, mem_insert, mem_filter, mem_erase]
  by_cases hc : c = b
  · subst hc
    have hnone : F.filter (· < c) = ∅ :=
      filter_false_of_mem fun d hd => Nat.not_lt.2 (hmin d hd)
    simp [hb, hnone]
  · have hcard : c ∈ F → (F.filter (· < c)).card = ((F.erase b).filter (· < c)).card + 1 := by
      intro hcF
      have hbc : b < c := lt_of_le_of_ne (hmin c hcF) (Ne.symm hc)
      rw [filter_erase, card_erase_add_one (mem_filter.2 ⟨hb, hbc⟩)]
    constructor
    · rintro ⟨hcF, hlt⟩
      rw [hcard hcF] at hlt
      exact Or.inr ⟨⟨hc, hcF⟩, Nat.lt_of_succ_lt_succ hlt⟩
    · rintro (rfl | ⟨⟨-, hcF⟩, hlt⟩)
      · exact absurd rfl hc
      · rw [hcard hcF]
        exact ⟨hcF, Nat.succ_lt_succ hlt⟩

theorem card_lowest (m : ℕ) (F : Finset ℕ) : (lowest m F).card = min m F.card := by
  induction m generalizing F with
  | zero => rw [lowest_zero, card_empty, Nat.zero_min]
  | succ m ih =>
    rcases F.eq_empty_or_nonempty with rfl | hF
    · rfl
    · have hmem := F.min'_mem hF
      have hout : F.min' hF ∉ lowest m (F.erase (F.min' hF)) := fun h =>
        notMem_erase _ _ (filter_subset _ _ h)
      rw [lowest_succ hmem fun c hc => F.min'_le c hc, card_insert_of_notMem hout, ih,
        ← card_erase_add_one hmem, Nat.succ_min_succ]

/-- The blocks `balloc` takes when it is called once for each empty slot among `T`. -/
def fresh (s : FS) (i : ℕ) (T : Finset ℕ) : Finset ℕ :=
  lowest (missing T s.disk (cur s i)) (freeBlocks s.disk s.sb)

section

variable {s s' s1 : FS} {k : Iptr} {i j n b c : ℕ} {S S' D N N' T U : Finset ℕ}

theorem fresh_subset (s : FS) (i : ℕ) (T : Finset ℕ) : fresh s i T ⊆ freeBlocks s.disk s.sb :=
  filter_subset _ _

theorem fresh_mono (h : T ⊆ U) (s : FS) (i : ℕ) : fresh s i T ⊆ fresh s i U :=
  lowest_mono (missing_mono h _ _) _

theorem fresh_of_filled (h : ∀ j ∈ T, slotAddr s.disk (cur s i) j ≠ 0) : fresh s i T = ∅ := by
  have hnone : missing T s.disk (cur s i) = 0 :=
    card_eq_zero.2 (filter_false_of_mem h)
  rw [fresh, hnone, lowest_zero]

theorem FS.Lowest.mem_fresh (hb : s.Lowest b) (hj : j ∈ T)
    (hempty : slotAddr s.disk (cur s i) j = 0) : b ∈ fresh s i T := by
  obtain ⟨m, hm⟩ := Nat.exists_eq_succ_of_ne_zero (missing_pos hj hempty).ne'
  rw [fresh, hm, lowest_succ hb.1 hb.2]
  exact mem_insert_self _ _

theorem Filled.fresh_eq (hf : Filled s s' k i j b) (hb : s.Lowest b)
    (hempty : slotAddr s.disk (cur s i) j = 0) (hj : j ∈ T) (hT : ∀ m ∈ T, m < NSLOT) :
    fresh s i T = {b} ∪ fresh s' i T := by
  rw [fresh, ← hf.missing_eq hempty hj hT, lowest_succ hb.1 hb.2, fresh, FS.sb_of_env hf.env,
    hf.free_eq]
  rfl

/-- The call puts a block into the indirect block of the file. -/
def FillsIndirect (s : FS) (i : ℕ) (S : Finset ℕ) : Prop :=
  ∃ n ∈ S, NDIRECT ≤ n ∧ fileAddr s.disk (cur s i) n = 0

instance (s : FS) (i : ℕ) (S : Finset ℕ) : Decidable (FillsIndirect s i S) :=
  inferInstanceAs (Decidable (∃ n ∈ S, _ ∧ _))

/-- The blocks `N` were taken for the blocks `S` of file `i`. They are logged with their bitmap
blocks, the indirect block and `D`. -/
structure Took (s : FS) (i : ℕ) (S D N : Finset ℕ) (s' : FS) : Prop where
  absorbed : Absorbed s.log.lh s'.log.lh
  free_eq : freeBlocks s'.disk s.sb = freeBlocks s.disk s.sb \ N
  fresh_eq : ∀ T, S.biUnion bmapSlots ⊆ T → (∀ m ∈ T, m < NSLOT) →
    fresh s i T = N ∪ fresh s' i T
  indirect : (cur s' i).addr NDIRECT = (cur s i).addr NDIRECT ∨ (cur s' i).addr NDIRECT ∈ N
  mem_lh : ∀ c, c ∈ s'.log.lh ↔ c ∈ s.log.lh ∨ c ∈ N ∨ c ∈ N.image (BBLOCK · s.sb) ∨ c ∈ D ∨
    FillsIndirect s i S ∧ c = (cur s' i).addr NDIRECT

theorem Took.refl (s : FS) (i : ℕ) (h : ¬ FillsIndirect s i S) : Took s i S ∅ ∅ s where
  absorbed := Absorbed.refl _
  free_eq := (sdiff_empty).symm
  fresh_eq _ _ _ := (empty_union _).symm
  indirect := Or.inl rfl
  mem_lh c := by simp [h]

/-- Blocks for `S`, and then for `S'`. -/
theorem Took.trans {D' : Finset ℕ} (h : Took s i S D N s1) (h' : Took s1 i S' D' N' s')
    (hsb : s1.sb = s.sb)
    (hzero : ∀ n ∈ S', fileAddr s1.disk (cur s1 i) n = 0 ↔ fileAddr s.disk (cur s i) n = 0)
    (hind : FillsIndirect s i S → (cur s' i).addr NDIRECT = (cur s1 i).addr NDIRECT) :
    Took s i (S ∪ S') (D ∪ D') (N ∪ N') s' where
  absorbed := h.absorbed.trans h'.absorbed
  free_eq := by
    have hfree := h'.free_eq
    rw [hsb, h.free_eq] at hfree
    exact hfree.trans (sdiff_sdiff_left ..)
  fresh_eq T hT hlt := by
    rw [union_biUnion, union_subset_iff] at hT
    rw [h.fresh_eq T hT.1 hlt, h'.fresh_eq T hT.2 hlt, union_assoc]
  indirect := by
    rcases h'.indirect with heq | hmem
    · rw [heq]
      exact h.indirect.imp_right (mem_union_left _)
    · exact Or.inr (mem_union_right _ hmem)
  mem_lh c := by
    have hfills : FillsIndirect s i (S ∪ S') ↔ FillsIndirect s i S ∨ FillsIndirect s1 i S' := by
      simp only [FillsIndirect, mem_union, or_and_right, exists_or]
      refine or_congr Iff.rfl (exists_congr fun n => and_congr_right fun hn => ?_)
      rw [hzero n hn]
    have hkept : FillsIndirect s i S ∧ c = (cur s1 i).addr NDIRECT ↔
        FillsIndirect s i S ∧ c = (cur s' i).addr NDIRECT :=
      and_congr_right fun hS => by rw [hind hS]
    rw [h'.mem_lh, h.mem_lh, hkept, hfills, image_union, hsb, or_and_right]
    simp only [mem_union]
    exact iff_of_eq (by ac_rfl)

/-- One slot is filled. -/
theorem Filled.took (hf : Filled s s' k i j b) (hb : s.Lowest b) (hj : j ∈ bmapSlots n)
    (hempty : slotAddr s.disk (cur s i) j = 0) (habs : Absorbed s.log.lh s'.log.lh)
    (hlh : ∀ c, c ∈ s'.log.lh ↔ (c ∈ s.log.lh ∨ c = b ∨ c = BBLOCK b s.sb) ∨
      FillsIndirect s i {n} ∧ c = (cur s' i).addr NDIRECT) : Took s i {n} ∅ {b} s' where
  absorbed := habs
  free_eq := by rw [hf.free_eq, sdiff_singleton_eq_erase]
  fresh_eq T hT hlt := by
    rw [singleton_biUnion] at hT
    exact hf.fresh_eq hb hempty (hT hj) hlt
  indirect := by
    have hN := hf.slot NDIRECT NDIRECT_lt
    rw [slotAddr_of_lt (Nat.lt_succ_self _), slotAddr_of_lt (Nat.lt_succ_self _)] at hN
    split_ifs at hN
    · exact Or.inr (mem_singleton.2 hN)
    · exact Or.inl hN
  mem_lh c := by simpa [or_assoc] using hlh c

end

/-! ## `bmap` -/

/-- Block `b` is block `n` of the file of inode `i`, allocated if there was none. -/
structure Mapped (s : FS) (k : Iptr) (i n b : ℕ) (s' : FS) : Prop where
  env : s'.env = s.env
  same : SameSlots s s'
  addr : fileAddr s'.disk (cur s' i) n = b
  ne_zero : b ≠ 0
  data : s'.disk b = ((view s i).blocks n).getD zeroBlock
  view_eq : view s' = update (view s) i ((view s i).setBlock n (s'.disk b))
  store : s' = s ∧ (view s i).blocks n ≠ none ∨ Store (some k) s' ∧ (view s i).blocks n = none
  missing_eq : ∀ T, bmapSlots n ⊆ T → (∀ m ∈ T, m < NSLOT) →
    missing T s'.disk (cur s' i) + (freeBlocks s.disk s.sb).card =
      missing T s.disk (cur s i) + (freeBlocks s'.disk s.sb).card
  slots : ∀ m < NSLOT, slotAddr s.disk (cur s i) m ≠ 0 ∨ m ∉ bmapSlots n →
    slotAddr s'.disk (cur s' i) m = slotAddr s.disk (cur s i) m
  took : ∃ N, Took s i {n} ∅ N s' ∧ (fileAddr s.disk (cur s i) n = 0 → b ∈ N)

theorem indirect_ne_zero {disk : ℕ → Block} {d : Dinode} {n : ℕ} (hn : NDIRECT ≤ n)
    (hne : fileAddr disk d n ≠ 0) : d.addr NDIRECT ≠ 0 := by
  intro h0
  rw [fileAddr, show fileSlot n = n + 1 from if_neg (Nat.not_lt.2 hn), slotAddr,
    if_neg (by omega), if_pos h0] at hne
  exact hne rfl

section

variable {s s' s1 : FS} {x : Option Iptr} {k : Iptr} {i n a b : ℕ}

theorem Mapped.refl (h : Store x s) (hk : Loaded s k i) (hn : n < MAXFILE)
    (hne : fileAddr s.disk (cur s i) n ≠ 0) :
    Mapped s k i n (fileAddr s.disk (cur s i) n) s := by
  have hblk : (view s i).blocks n = some (s.disk (fileAddr s.disk (cur s i) n)) := by
    rw [h.blocks_eq hk hn, if_pos hne]
  have hsome : (view s i).blocks n ≠ none := by simp [hblk]
  refine ⟨rfl, SameSlots.refl s, rfl, hne, ?_, ?_, Or.inl ⟨rfl, hsome⟩, fun _ _ _ => rfl,
    fun _ _ _ => rfl, ∅, Took.refl s i ?_, fun h0 => absurd h0 hne⟩
  · rw [hblk, Option.getD_some]
  · rw [Node.setBlock, ← hblk, update_eq_self]
    exact (update_eq_self i (view s)).symm
  · rintro ⟨m, hm, -, h0⟩
    rw [mem_singleton.1 hm] at h0
    exact hne h0

theorem Filled.card (hf : Filled s s' k i n b) (hb : b ∈ freeBlocks s.disk s.sb) :
    (freeBlocks s'.disk s.sb).card + 1 = (freeBlocks s.disk s.sb).card := by
  rw [hf.free_eq, card_erase_add_one hb]

theorem Filled.mapped (hf : Filled s s' k i (fileSlot n) b) (h : Store x s) (hk : Loaded s k i)
    (hn : n < MAXFILE) (hempty : fileAddr s.disk (cur s i) n = 0) (hb : s.Lowest b)
    (habs : Absorbed s.log.lh s'.log.lh)
    (hlh : ∀ c, c ∈ s'.log.lh ↔ (c ∈ s.log.lh ∨ c = b ∨ c = BBLOCK b s.sb) ∨
      FillsIndirect s i {n} ∧ c = (cur s' i).addr NDIRECT) : Mapped s k i n b s' := by
  have hnone : (view s i).blocks n = none := by
    rw [h.blocks_eq hk hn, if_neg (not_not.2 hempty)]
  refine ⟨hf.env, hf.same, ?_, hf.ne_zero, ?_, ?_, Or.inr ⟨hf.store, hnone⟩,
    fun T hT hlt => ?_, fun m hm hne => ?_, {b}, hf.took hb (fileSlot_mem n) hempty habs hlh,
    fun _ => mem_singleton_self b⟩
  · rw [fileAddr, hf.slot _ (fileSlot_lt hn), if_pos rfl]
  · rw [hnone, Option.getD_none, hf.zero]
  · rw [hf.zero, hf.view_block h hk hn rfl]
  · have := hf.missing_eq hempty (hT (fileSlot_mem n)) hlt
    have := hf.card hb.1
    omega
  · rw [hf.slot m hm, if_neg]
    rintro rfl
    rcases hne with hne | hne
    · exact hne hempty
    · exact hne (fileSlot_mem n)

/-- The indirect block is new as well. -/
theorem Filled.mapped_indirect (hf : Filled s s1 k i NDIRECT a) (h : Store x s)
    (hk : Loaded s k i) (hn : NDIRECT ≤ n) (hn' : n < MAXFILE)
    (hempty : (cur s i).addr NDIRECT = 0) (ha : s.Lowest a)
    (htook : Took s i {n} ∅ {a} s1) (hm : Mapped s1 k i n b s')
    (h0 : fileAddr s.disk (cur s i) n = 0) (h01 : fileAddr s1.disk (cur s1 i) n = 0) :
    Mapped s k i n b s' := by
  have hview := hf.view_indirect h hk rfl
  have hsb : s1.sb = s.sb := FS.sb_of_env hf.env
  have hslot : slotAddr s.disk (cur s i) NDIRECT = 0 :=
    (slotAddr_of_lt (Nat.lt_succ_self _)).trans hempty
  have hmem : NDIRECT ∈ bmapSlots n := by
    rw [bmapSlots, if_neg (Nat.not_lt.2 hn)]
    exact mem_insert_self _ _
  have hnone : (view s1 i).blocks n = none := by
    rw [hf.store.blocks_eq (hf.same.loaded.2 hk) hn', if_neg (not_not.2 h01)]
  obtain ⟨h1, h2, h3, h4, h5, h6, h7, h8, h9, N, h10, h11⟩ := hm
  have hind : (cur s' i).addr NDIRECT = (cur s1 i).addr NDIRECT := by
    have hN := hf.slot NDIRECT NDIRECT_lt
    have hN' := h9 NDIRECT NDIRECT_lt
    rw [if_pos rfl] at hN
    rw [hN, slotAddr_of_lt (Nat.lt_succ_self _)] at hN'
    rw [slotAddr_of_lt (Nat.lt_succ_self _)] at hN
    rw [hN, hN' (Or.inl hf.ne_zero)]
  rw [hview] at h5 h6 h7 hnone
  rw [hsb] at h8
  refine ⟨h1.trans hf.env, hf.same.trans h2, h3, h4, h5, h6, Or.inr ?_, fun T hT hlt => ?_,
    fun m hm hne => ?_, {a} ∪ N, ?_, fun _ => mem_union_right _ (h11 h01)⟩
  · rcases h7 with ⟨-, hsome⟩ | hnew
    · exact absurd hnone hsome
    · exact hnew
  · have := hf.missing_eq hslot (hT hmem) hlt
    have := hf.card ha.1
    have := h8 T hT hlt
    omega
  · have hmN : m ≠ NDIRECT := by
      rintro rfl
      exact hne.elim (fun hne => hne hslot) fun hne => hne hmem
    have hm1 := hf.slot m hm
    rw [if_neg hmN] at hm1
    rw [h9 m hm (hm1 ▸ hne), hm1]
  · have := htook.trans h10 hsb (fun m hm => ?_) fun _ => hind
    · rwa [union_idempotent, union_idempotent] at this
    · rw [mem_singleton.1 hm, h0, h01]

@[simp] theorem wp_modifyDin {Q : Unit → FS → Prop} {E : Stop → FS → Prop} (f : Dinode → Dinode) :
    wp (modifyDin k f) Q E s ↔ Q () (s.setDin k (f (s.icache k).din)) :=
  Iff.rfl

@[simp] theorem wp_bread {Q : Block → FS → Prop} {E : Stop → FS → Prop} :
    wp (bread b) Q E s ↔ Q (s.disk b) s :=
  Iff.rfl

theorem absorbed_takeBlock (s : FS) (b : ℕ) : Absorbed s.log.lh (s.takeBlock b).log.lh :=
  (Absorbed.absorb _ _).trans (Absorbed.absorb _ _)

theorem mem_lh_takeBlock {c : ℕ} :
    c ∈ (s.takeBlock b).log.lh ↔ c ∈ s.log.lh ∨ c = b ∨ c = BBLOCK b s.sb :=
  (mem_absorb.trans (or_congr Iff.rfl mem_absorb)).trans (or_rotate.trans or_rotate)

theorem load_takeBlock {V : Finset ℕ} (hb : b ∈ V) (hbm : BBLOCK b s.sb ∈ V) :
    load V (s.takeBlock b).log.lh = load V s.log.lh :=
  (load_absorb_of_mem hb _).trans (load_absorb_of_mem hbm _)

/-- `V` has the blocks `N` and their bitmap blocks. -/
def Covers (sb : Superblock) (V N : Finset ℕ) : Prop :=
  ∀ c ∈ N, c ∈ V ∧ BBLOCK c sb ∈ V

/-- Block `n` of the file is not there, and free blocks or room in the log are missing. -/
def Unmapped (s : FS) (i n : ℕ) (x : Stop) : Prop :=
  fileAddr s.disk (cur s i) n = 0 ∧ ∀ V, Covers s.sb V (fresh s i (bmapSlots n)) →
    Lacks x (missing (bmapSlots n) s.disk (cur s i) ≤ (freeBlocks s.disk s.sb).card)
      (Fits (load V s.log.lh) s.log)

theorem balloc_missing {j : ℕ} (hj : j ∈ bmapSlots n)
    (hempty : slotAddr s.disk (cur s i) j = 0) (h0 : fileAddr s.disk (cur s i) n = 0) :
    wp balloc (fun b s' => s.Lowest b ∧ s' = s.takeBlock b) (fun x _ => Unmapped s i n x) s := by
  refine wp_mono' (balloc_spec s) (fun _ _ => id) fun _ _ hno => ⟨h0, fun V hV =>
    hno.mono (missing_pos hj hempty).trans_le fun hfit b hb => hfit.of_le rfl rfl ?_⟩
  exact load_mono (singleton_subset_iff.2 (hV b (hb.mem_fresh hj hempty)).2) _

section

variable (h : Store x s) (hx : x = none ∨ x = some k) (hk : Loaded s k i)
include h hx hk

theorem mapped_direct (hn : n < NDIRECT) (hempty : (s.icache k).din.addr n = 0)
    (hb : s.Lowest b) :
    Mapped s k i n b ((s.takeBlock b).setDin k ((s.icache k).din.setAddr n b)) := by
  have hslot : fileSlot n = n := if_pos hn
  have hn1 : n < NDIRECT + 1 := Nat.lt_succ_of_lt hn
  have hf := fill_direct h hk hb.1 hx hn1 hempty
  refine Filled.mapped (hslot.symm ▸ hf) h hk (hn.trans (by decide)) ?_ hb
    (absorbed_takeBlock s b) fun c => ?_
  · rw [fileAddr, hslot, slotAddr_of_lt hn1, h.cur_eq hk, hempty]
  · have hfills : ¬ FillsIndirect s i {n} := by
      rintro ⟨m, hm, hge, -⟩
      rw [mem_singleton.1 hm] at hge
      exact Nat.not_lt.2 hge hn
    exact mem_lh_takeBlock.trans (or_iff_left fun hc => hfills hc.1).symm

theorem mapped_indirect (hn : NDIRECT ≤ n) (hn' : n < MAXFILE)
    (hind : (s.icache k).din.addr NDIRECT ≠ 0)
    (hempty : indWord (s.disk ((s.icache k).din.addr NDIRECT)) (n - NDIRECT) = 0)
    (hb : s.Lowest b) :
    Mapped s k i n b ((s.takeBlock b).write ((s.icache k).din.addr NDIRECT)
      (Bytes.write Codec.u32 ((s.takeBlock b).disk ((s.icache k).din.addr NDIRECT))
        (4 * (n - NDIRECT)) (UInt32.ofNat b))) := by
  have hslot : fileSlot n = n + 1 := if_neg (Nat.not_lt.2 hn)
  have hf := fill_indirect h hk hb.1 hx hn hn' hind hempty
  have h0 : fileAddr s.disk (cur s i) n = 0 := by
    rw [fileAddr, hslot, slotAddr, if_neg (by omega), h.cur_eq hk, if_neg hind,
      Nat.add_sub_add_right, hempty]
  refine Filled.mapped (hslot.symm ▸ hf) h hk hn' h0 hb
    ((absorbed_takeBlock s b).trans (Absorbed.absorb _ _)) fun c => ?_
  have hfills : FillsIndirect s i {n} := ⟨n, mem_singleton_self n, hn, h0⟩
  rw [hf.store.cur_eq (hf.same.loaded.2 hk), FS.write, mem_absorb, mem_lh_takeBlock, or_comm,
    and_iff_right hfills]
  rfl

/-- `bmap` of a block past the direct ones, once the indirect block is there. -/
theorem bmap_indirect (hge : NDIRECT ≤ n) (hn : n < MAXFILE)
    (hind : (s.icache k).din.addr NDIRECT ≠ 0) :
    wp (do
        let data ← bread ((s.icache k).din.addr NDIRECT)
        if indWord data (n - NDIRECT) = 0 then do
          let addr ← balloc
          let data ← bread ((s.icache k).din.addr NDIRECT)
          logWrite ((s.icache k).din.addr NDIRECT)
            (Bytes.write Codec.u32 data (4 * (n - NDIRECT)) (UInt32.ofNat addr))
          return addr
        else
          return indWord data (n - NDIRECT))
      (fun b s' => Mapped s k i n b s')
      (fun x _ => Unmapped s i n x) s := by
  have haddr : fileAddr s.disk (cur s i) n =
      indWord (s.disk ((s.icache k).din.addr NDIRECT)) (n - NDIRECT) := by
    rw [fileAddr, show fileSlot n = n + 1 from if_neg (Nat.not_lt.2 hge), slotAddr,
      if_neg (by omega), h.cur_eq hk, if_neg hind, Nat.add_sub_add_right]
  rw [wp_bind, wp_bread]
  by_cases h0 : indWord (s.disk ((s.icache k).din.addr NDIRECT)) (n - NDIRECT) = 0
  · rw [if_pos h0]
    have hempty := haddr.trans h0
    refine wp_seq (balloc_missing (fileSlot_mem n) hempty hempty) ?_
    rintro b s1 ⟨hb, rfl⟩
    rw [wp_bind, wp_bread]
    refine wp_seq (wp_mono' (logWrite_spec _ _ _) (fun _ _ => id) fun _ _ hno =>
      ⟨hempty, fun V hV => Or.inr fun hfit => hno (hfit.of_le rfl rfl ?_)⟩) ?_
    · obtain ⟨hbV, hbm⟩ := hV b (hb.mem_fresh (fileSlot_mem n) hempty)
      exact (length_le_load V _).trans_eq (load_takeBlock hbV hbm)
    · rintro _ s2 ⟨rfl, -⟩
      exact mapped_indirect h hx hk hge hn hind h0 hb
  · rw [if_neg h0, wp_pure, ← haddr]
    exact Mapped.refl h hk hn (haddr ▸ h0)

/-- `bmap` of a block past the direct ones, after it made the indirect block. -/
theorem bmap_new_indirect (hge : NDIRECT ≤ n) (hn : n < MAXFILE)
    (hempty : (s.icache k).din.addr NDIRECT = 0) (ha : s.Lowest a) :
    wp (do
        let data ← bread a
        if indWord data (n - NDIRECT) = 0 then do
          let addr ← balloc
          let data ← bread a
          logWrite a (Bytes.write Codec.u32 data (4 * (n - NDIRECT)) (UInt32.ofNat addr))
          return addr
        else
          return indWord data (n - NDIRECT))
      (fun b s' => Mapped s k i n b s') (fun x _ => Unmapped s i n x)
      ((s.takeBlock a).setDin k ((s.icache k).din.setAddr NDIRECT a)) := by
  have hf := fill_direct h hk ha.1 hx (Nat.lt_succ_self NDIRECT) hempty
  have hlh : ((s.takeBlock a).setDin k ((s.icache k).din.setAddr NDIRECT a)).log.lh =
    (s.takeBlock a).log.lh := rfl
  set s1 := (s.takeBlock a).setDin k ((s.icache k).din.setAddr NDIRECT a)
  have hk1 := hf.same.loaded.2 hk
  have hsb : s1.sb = s.sb := rfl
  have hmem : NDIRECT ∈ bmapSlots n := by rw [bmapSlots, if_neg (Nat.not_lt.2 hge)]; simp
  have hempty' : slotAddr s.disk (cur s i) NDIRECT = 0 := by
    rw [slotAddr_of_lt (Nat.lt_succ_self _), h.cur_eq hk, hempty]
  have hind : (cur s1 i).addr NDIRECT = a := by
    have hN := hf.slot NDIRECT NDIRECT_lt
    rwa [if_pos rfl, slotAddr_of_lt (Nat.lt_succ_self _)] at hN
  have h0 : fileAddr s.disk (cur s i) n = 0 := by
    rw [fileAddr, show fileSlot n = n + 1 from if_neg (Nat.not_lt.2 hge), slotAddr,
      if_neg (by omega), h.cur_eq hk, if_pos hempty]
  have h01 : fileAddr s1.disk (cur s1 i) n = 0 := by
    rw [fileAddr, hf.slot _ (fileSlot_lt hn), if_neg (fileSlot_ne n)]
    exact h0
  have htook : Took s i {n} ∅ {a} s1 := by
    refine hf.took ha hmem hempty' (absorbed_takeBlock s a) fun c => ?_
    rw [hind, hlh, mem_lh_takeBlock, or_iff_left_of_imp fun hc => Or.inr (Or.inl hc.2)]
  have hfresh := hf.fresh_eq ha hempty' hmem fun m hm => bmapSlots_lt hn hm
  rw [hf.store.cur_eq hk1] at hind
  have hspec := bmap_indirect hf.store (Or.inr rfl) hk1 hge hn (hind.symm ▸ hf.ne_zero)
  rw [hind] at hspec
  refine wp_mono' hspec (fun b s' hm => ?_) fun _ _ hno =>
    ⟨h0, fun V hV => (hno.2 V ?_).mono (fun hle => ?_) fun hfit => ?_⟩
  · exact hf.mapped_indirect h hk hge hn (by rw [h.cur_eq hk, hempty]) ha htook hm h0 h01
  · exact fun c hc => hV c (hfresh ▸ mem_union_right _ hc)
  · have := hf.missing_eq hempty' hmem fun m hm => bmapSlots_lt hn hm
    have := hf.card ha.1
    rw [hsb]
    omega
  · obtain ⟨haV, ham⟩ := hV a (ha.mem_fresh hmem hempty')
    exact hfit.of_env hf.env (load_takeBlock haV ham).le

/-- `bmap` returns the block of the file. It fails when the block is missing and so are free
blocks or room in the log. -/
theorem bmap_spec (hn : n < MAXFILE) :
    wp (bmap k n) (fun b s' => Mapped s k i n b s') (fun x _ => Unmapped s i n x) s := by
  have hcur := h.cur_eq hk
  unfold bmap
  rw [wp_bind, wp_get]
  dsimp only
  by_cases hd : n < NDIRECT
  · have hslot : fileAddr s.disk (cur s i) n = (s.icache k).din.addr n := by
      rw [fileAddr, show fileSlot n = n from if_pos hd, slotAddr_of_lt (Nat.lt_succ_of_lt hd), hcur]
    rw [if_pos hd]
    by_cases h0 : (s.icache k).din.addr n = 0
    · rw [if_pos h0]
      refine wp_seq (balloc_missing (fileSlot_mem n) (hslot.trans h0) (hslot.trans h0)) ?_
      rintro b s1 ⟨hb, rfl⟩
      simp only [wp_bind, wp_modifyDin, wp_pure]
      exact mapped_direct h hx hk hd h0 hb
    · rw [if_neg h0, wp_pure, ← hslot]
      exact Mapped.refl h hk hn (hslot ▸ h0)
  · have hge : NDIRECT ≤ n := Nat.not_lt.1 hd
    have hidx : n - NDIRECT < NINDIRECT := by
      have : n < 140 := hn
      show n - 12 < 128
      omega
    rw [if_neg hd, if_pos hidx]
    by_cases hi0 : (s.icache k).din.addr NDIRECT = 0
    · have hempty : slotAddr s.disk (cur s i) NDIRECT = 0 := by
        rw [slotAddr_of_lt (Nat.lt_succ_self _), hcur, hi0]
      have hmem : NDIRECT ∈ bmapSlots n := by rw [bmapSlots, if_neg hd]; simp
      rw [if_pos hi0]
      have h0 : fileAddr s.disk (cur s i) n = 0 := by
        rw [fileAddr, show fileSlot n = n + 1 from if_neg hd, slotAddr, if_neg (by omega), hcur,
          if_pos hi0]
      refine wp_seq (balloc_missing hmem hempty h0) ?_
      rintro a s1 ⟨ha, rfl⟩
      rw [wp_bind, wp_modifyDin, wp_bind, wp_pure]
      exact bmap_new_indirect h hx hk hge hn hi0 ha
    · rw [if_neg hi0, wp_bind, wp_pure]
      exact bmap_indirect h hx hk hge hn hi0

end

end

end Xv6
