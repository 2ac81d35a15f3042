import Xv6.Bmap

/-!
# Truncation

`itrunc` of `fs.c` over the store. Its loops free the block of each slot in turn. While they
run the blocks are not owned, since the slots of the indirect block still name blocks that
are free; what is kept is which bits were cleared so far (`Freed`) and which addresses of
the inode are zero (`Emptied`). At the end every slot is empty and its block is free, and
the blocks are owned again.
-/

open Function Prog Layout

namespace Xv6

/-- The bits of the blocks in `F` are cleared, nothing else of the disk is changed. -/
structure Freed (s : FS) (F : ℕ → Prop) (s' : FS) : Prop where
  env : s'.env = s.env
  disk : ∀ c ∉ bitmapBlocks s.sb, s'.disk c = s.disk c
  used : ∀ c < s.sb.size.toNat, Used s'.disk s.sb c ↔ Used s.disk s.sb c ∧ ¬ F c
  loads : ∀ W, bitmapBlocks s.sb ⊆ W → load W s'.log.lh ≤ load W s.log.lh

theorem Freed.refl (s : FS) : Freed s (fun _ => False) s :=
  ⟨rfl, fun _ _ => rfl, fun _ _ => by simp, fun _ _ => le_rfl⟩

theorem Freed.congr {s s' : FS} {F F' : ℕ → Prop} (h : Freed s F s') (hF : ∀ c, F' c ↔ F c) :
    Freed s F' s' :=
  { h with used := fun c hc => by rw [h.used c hc, hF] }

theorem Freed.setDin {s s' : FS} {F : ℕ → Prop} (h : Freed s F s') (k : Iptr) (d : Dinode) :
    Freed s F (s'.setDin k d) :=
  ⟨h.env, h.disk, h.used, h.loads⟩

theorem not_mem_bitmapBlocks {sb : Superblock} (g : Geometry sb) {c : ℕ} (hc : InData sb c) :
    c ∉ bitmapBlocks sb := by
  have := g.bmap_end
  have := hc.1
  rw [bitmapBlocks, Finset.mem_Ico]
  omega

theorem not_mem_bitmapBlocks_of_lt {sb : Superblock} {c : ℕ} (hc : c < sb.bmapstart.toNat) :
    c ∉ bitmapBlocks sb := by
  rw [bitmapBlocks, Finset.mem_Ico]
  omega

variable {s s1 : FS} {x : Option Iptr} {k : Iptr} {i b m : ℕ} {F : ℕ → Prop}

theorem Store.one_lt (h : Store x s) : 1 < s.sb.bmapstart.toNat := by
  have := h.geometry.log_start
  have := h.geometry.log_end
  have := h.geometry.inodes_end
  omega

/-- `bfree` of one more block. -/
theorem Freed.bfree (hF : Freed s F s1) (h : Store x s) (hb : b < s.sb.size.toNat) :
    wp (bfree b) (fun _ s2 => Freed s (fun c => F c ∨ c = b) s2 ∧ s2.icache = s1.icache)
      (fun _ _ => True) s1 := by
  have hsb : s1.sb = s.sb := FS.sb_of_env hF.env
  have hsuper : readsb s1.disk = s1.sb := by
    rw [readsb_congr (hF.disk 1 (not_mem_bitmapBlocks_of_lt h.one_lt)), h.super, hsb]
  refine wp_mono' (bfree_spec s1 b hsuper) ?_ fun _ _ _ => trivial
  rintro _ s2 ⟨-, rfl⟩
  have hmem : BBLOCK b s.sb ∈ bitmapBlocks s.sb := BBLOCK_mem hb
  refine ⟨⟨hF.env, fun c hc => ?_, fun c hc => ?_, fun W hW => ?_⟩, rfl⟩
  · rw [← hF.disk c hc]
    refine update_of_ne ?_ _ _
    rintro rfl
    rw [hsb] at hc
    exact hc hmem
  · have hclear := used_clearBit s1.disk s1.sb b c
    rw [hsb] at hclear
    have hgive : (s1.giveBlock b).disk = update s1.disk (BBLOCK b s.sb)
        (clearBit (s1.disk (BBLOCK b s.sb)) (b % BPB)) := by
      rw [FS.giveBlock, hsb]
      rfl
    rw [hgive, hclear, hF.used c hc, not_or, and_assoc]
  · refine le_trans (le_of_eq ?_) (hF.loads W hW)
    refine load_absorb_of_mem (hW ?_) _
    rw [hsb]
    exact hmem

/-- The loop of `itrunc` over the direct addresses has done the first `m`. -/
structure Emptied (s : FS) (k : Iptr) (m : ℕ) (s' : FS) : Prop where
  freed : Freed s (fun c => c ≠ 0 ∧ ∃ j < m, (s.icache k).din.addr j = c) s'
  same : SameSlots s s'
  other : ∀ l ≠ k, (s'.icache l).din = (s.icache l).din
  addrs : (s'.icache k).din = { (s.icache k).din with addrs := (s'.icache k).din.addrs }
  addr : ∀ j < NDIRECT + 1, (s'.icache k).din.addr j =
    if j < m then 0 else (s.icache k).din.addr j

/-- The slots of an inode name block `c`. -/
theorem exists_slot_iff (hind : (s.icache k).din.addr NDIRECT ≠ 0) (c : ℕ) :
    (∃ j < NSLOT, slotAddr s.disk (s.icache k).din j = c) ↔
      (∃ j < NDIRECT, (s.icache k).din.addr j = c) ∨
      (∃ j < NINDIRECT, indWord (s.disk ((s.icache k).din.addr NDIRECT)) j = c) ∨
      c = (s.icache k).din.addr NDIRECT := by
  constructor
  · rintro ⟨j, hj, rfl⟩
    rcases Nat.lt_trichotomy j NDIRECT with hlt | rfl | hgt
    · exact .inl ⟨j, hlt, (slotAddr_of_lt (Nat.lt_succ_of_lt hlt)).symm⟩
    · exact .inr (.inr (slotAddr_of_lt (Nat.lt_succ_self _)))
    · refine .inr (.inl ⟨j - (NDIRECT + 1), ?_, ?_⟩)
      · have : j < 141 := hj
        show j - 13 < 128
        omega
      · rw [slotAddr, if_neg (by omega), if_neg hind]
  · rintro (⟨j, hj, rfl⟩ | ⟨j, hj, rfl⟩ | rfl)
    · exact ⟨j, hj.trans NDIRECT_lt, slotAddr_of_lt (Nat.lt_succ_of_lt hj)⟩
    · refine ⟨NDIRECT + 1 + j, Nat.add_lt_add_left hj _, ?_⟩
      rw [slotAddr, if_neg (by omega), if_neg hind, Nat.add_sub_cancel_left]
    · exact ⟨NDIRECT, NDIRECT_lt, slotAddr_of_lt (Nat.lt_succ_self _)⟩

/-- The blocks of all slots are freed and the addresses of the inode are zero. -/
structure Cleared (s : FS) (k : Iptr) (s' : FS) : Prop where
  freed : Freed s (fun c => c ≠ 0 ∧ ∃ j < NSLOT, slotAddr s.disk (s.icache k).din j = c) s'
  same : SameSlots s s'
  other : ∀ l ≠ k, (s'.icache l).din = (s.icache l).din
  addrs : (s'.icache k).din = { (s.icache k).din with addrs := (s'.icache k).din.addrs }
  addr : ∀ j < NDIRECT + 1, (s'.icache k).din.addr j = 0

theorem Emptied.cleared (hE : Emptied s k NDIRECT s1) (h0 : (s.icache k).din.addr NDIRECT = 0) :
    Cleared s k s1 := by
  refine ⟨hE.freed.congr fun c => and_congr_right fun hc => ?_, hE.same, hE.other, hE.addrs,
    fun j hj => ?_⟩
  · constructor
    · rintro ⟨j, -, rfl⟩
      rcases Nat.lt_or_ge j NDIRECT with hlt | hge
      · exact ⟨j, hlt, (slotAddr_of_lt (Nat.lt_succ_of_lt hlt)).symm⟩
      · refine absurd ?_ hc
        unfold slotAddr
        split_ifs with hj
        · rw [Nat.le_antisymm (Nat.lt_succ_iff.1 hj) hge, h0]
        · rfl
    · rintro ⟨j, hj, rfl⟩
      exact ⟨j, hj.trans NDIRECT_lt, slotAddr_of_lt (Nat.lt_succ_of_lt hj)⟩
  · rw [hE.addr j hj]
    split_ifs with hlt
    · rfl
    · rw [Nat.le_antisymm (Nat.lt_succ_iff.1 hj) (Nat.not_lt.1 hlt), h0]

variable (h : Store x s) (hk : Loaded s k i)
include h hk

theorem addr_lt_size {j : ℕ} (hj : j < NDIRECT + 1) (hne : (s.icache k).din.addr j ≠ 0) :
    InData s.sb ((s.icache k).din.addr j) := by
  rw [← h.cur_eq hk] at hne ⊢
  have := h.owned.inData_of_slot (j := j) (h.lt hk) (h.cur_type hk) (hj.trans_le (by decide))
  rw [slotAddr_of_lt hj] at this
  exact this hne

/-- One turn of the loop over the direct addresses. -/
theorem Emptied.step (hm : m < NDIRECT) (hE : Emptied s k m s1) :
    wp (do
        let s ← get
        let addr := (s.icache k).din.addr m
        if addr = 0 then
          return ()
        else do
          bfree addr
          modifyDin k fun d => d.setAddr m 0)
      (fun _ => Emptied s k (m + 1)) (fun _ _ => True) s1 := by
  have hm1 : m < NDIRECT + 1 := Nat.lt_succ_of_lt hm
  have haddr : (s1.icache k).din.addr m = (s.icache k).din.addr m := by
    rw [hE.addr m hm1, if_neg (Nat.lt_irrefl m)]
  rw [wp_bind, wp_get]
  dsimp only
  rw [haddr]
  by_cases h0 : (s.icache k).din.addr m = 0
  · rw [if_pos h0, wp_pure]
    refine ⟨hE.freed.congr fun c => ?_, hE.same, hE.other, hE.addrs, fun j hj => ?_⟩
    · refine and_congr_right fun hc => ⟨?_, fun ⟨j, hj, hjc⟩ => ⟨j, Nat.lt_succ_of_lt hj, hjc⟩⟩
      rintro ⟨j, hj, rfl⟩
      rcases Nat.lt_succ_iff_lt_or_eq.1 hj with hj | rfl
      · exact ⟨j, hj, rfl⟩
      · exact absurd h0 hc
    · rw [hE.addr j hj]
      by_cases hjm : j = m
      · subst hjm
        simp [h0]
      · exact if_congr (by omega) rfl rfl
  · rw [if_neg h0]
    have hin := addr_lt_size h hk hm1 h0
    refine wp_seq (hE.freed.bfree h hin.2) ?_
    rintro _ s2 ⟨hF, hc⟩
    rw [wp_modifyDin, hc]
    have hdin : ((s2.setDin k ((s1.icache k).din.setAddr m 0)).icache k).din =
        (s1.icache k).din.setAddr m 0 := by simp [FS.setDin]
    have hsame : SameSlots s1 s2 := fun l => by rw [hc]
    refine ⟨(hF.congr fun c => ?_).setDin k _,
      (hE.same.trans hsame).trans (SameSlots.setDin s2 k _), fun l hl => ?_, ?_, fun j hj => ?_⟩
    · constructor
      · rintro ⟨hc, j, hj, rfl⟩
        rcases Nat.lt_succ_iff_lt_or_eq.1 hj with hj | rfl
        · exact .inl ⟨hc, j, hj, rfl⟩
        · exact .inr rfl
      · rintro (⟨hc, j, hj, hjc⟩ | rfl)
        · exact ⟨hc, j, Nat.lt_succ_of_lt hj, hjc⟩
        · exact ⟨h0, m, Nat.lt_succ_self m, rfl⟩
    · rw [← hE.other l hl]
      simp [FS.setDin, hl, hc]
    · rw [hdin, hE.addrs]
      rfl
    · rw [hdin, Dinode.addr_setAddr _ hm1 (by decide), hE.addr j hj]
      by_cases hjm : j = m
      · subst hjm
        simp
      · rw [if_neg hjm]
        exact if_congr (by omega) rfl rfl

theorem indWord_inData {j : ℕ} (hj : j < NINDIRECT) (hind : (s.icache k).din.addr NDIRECT ≠ 0)
    (hne : indWord (s.disk ((s.icache k).din.addr NDIRECT)) j ≠ 0) :
    InData s.sb (indWord (s.disk ((s.icache k).din.addr NDIRECT)) j) := by
  have hslot : slotAddr s.disk (cur s i) (NDIRECT + 1 + j) =
      indWord (s.disk ((s.icache k).din.addr NDIRECT)) j := by
    rw [h.cur_eq hk, slotAddr, if_neg (by omega), if_neg hind, Nat.add_sub_cancel_left]
  rw [← hslot] at hne ⊢
  exact h.owned.inData_of_slot (h.lt hk) (h.cur_type hk) (Nat.add_lt_add_left hj _) hne

/-- The part of `itrunc` that frees the indirect block. -/
theorem Emptied.indirect (hE : Emptied s k NDIRECT s1)
    (hind : (s.icache k).din.addr NDIRECT ≠ 0) :
    wp (do
        let a ← bread ((s.icache k).din.addr NDIRECT)
        forM (List.range NINDIRECT) fun j =>
          if indWord a j = 0 then pure () else Xv6.bfree (indWord a j)
        Xv6.bfree ((s.icache k).din.addr NDIRECT)
        modifyDin k fun d => d.setAddr NDIRECT 0)
      (fun _ => Cleared s k) (fun _ _ => True) s1 := by
  have hin := addr_lt_size h hk (Nat.lt_succ_self NDIRECT) hind
  have hdata : s1.disk ((s.icache k).din.addr NDIRECT) =
      s.disk ((s.icache k).din.addr NDIRECT) :=
    hE.freed.disk _ (not_mem_bitmapBlocks h.geometry hin)
  rw [wp_bind, wp_bread, hdata]
  refine wp_seq (wp_forM_range _ NINDIRECT (fun m s2 => s2.icache = s1.icache ∧
    Freed s (fun c => c ≠ 0 ∧ ((∃ j < NDIRECT, (s.icache k).din.addr j = c) ∨
      ∃ j < m, indWord (s.disk ((s.icache k).din.addr NDIRECT)) j = c)) s2) ?_ ?_) ?_
  · exact ⟨rfl, hE.freed.congr fun c => by simp⟩
  · rintro m hm s2 ⟨hc, hF⟩
    by_cases h0 : indWord (s.disk ((s.icache k).din.addr NDIRECT)) m = 0
    · rw [if_pos h0, wp_pure]
      refine ⟨hc, hF.congr fun c => and_congr_right fun hc0 => or_congr_right ?_⟩
      refine ⟨?_, fun ⟨j, hj, hjc⟩ => ⟨j, Nat.lt_succ_of_lt hj, hjc⟩⟩
      rintro ⟨j, hj, rfl⟩
      rcases Nat.lt_succ_iff_lt_or_eq.1 hj with hj | rfl
      · exact ⟨j, hj, rfl⟩
      · exact absurd h0 hc0
    · rw [if_neg h0]
      refine wp_mono (hF.bfree h (indWord_inData h hk hm hind h0).2) ?_
      rintro _ s3 ⟨hF', hc'⟩
      refine ⟨hc'.trans hc, hF'.congr fun c => ?_⟩
      constructor
      · rintro ⟨hc0, hdir | ⟨j, hj, rfl⟩⟩
        · exact .inl ⟨hc0, .inl hdir⟩
        · rcases Nat.lt_succ_iff_lt_or_eq.1 hj with hj | rfl
          · exact .inl ⟨hc0, .inr ⟨j, hj, rfl⟩⟩
          · exact .inr rfl
      · rintro (⟨hc0, hdir | ⟨j, hj, hjc⟩⟩ | rfl)
        · exact ⟨hc0, .inl hdir⟩
        · exact ⟨hc0, .inr ⟨j, Nat.lt_succ_of_lt hj, hjc⟩⟩
        · exact ⟨h0, .inr ⟨m, Nat.lt_succ_self m, rfl⟩⟩
  · rintro _ s2 ⟨hc, hF⟩
    refine wp_seq (hF.bfree h hin.2) ?_
    rintro _ s3 ⟨hF', hc'⟩
    rw [wp_modifyDin, hc', hc]
    have hdin : ((s3.setDin k ((s1.icache k).din.setAddr NDIRECT 0)).icache k).din =
        (s1.icache k).din.setAddr NDIRECT 0 := by simp [FS.setDin]
    have hsame : SameSlots s1 s3 := fun l => by rw [hc', hc]
    refine ⟨(hF'.congr fun c => ?_).setDin k _,
      (hE.same.trans hsame).trans (SameSlots.setDin s3 k _), fun l hl => ?_, ?_, fun j hj => ?_⟩
    · rw [exists_slot_iff hind]
      constructor
      · rintro ⟨hc0, hdir | hi | rfl⟩
        · exact .inl ⟨hc0, .inl hdir⟩
        · exact .inl ⟨hc0, .inr hi⟩
        · exact .inr rfl
      · rintro (⟨hc0, hdir | hi⟩ | rfl)
        · exact ⟨hc0, .inl hdir⟩
        · exact ⟨hc0, .inr (.inl hi)⟩
        · exact ⟨hind, .inr (.inr rfl)⟩
    · rw [← hE.other l hl]
      simp [FS.setDin, hl, hc', hc]
    · rw [hdin, hE.addrs]
      rfl
    · rw [hdin, Dinode.addr_setAddr _ (Nat.lt_succ_self _) (by decide), hE.addr j hj]
      split_ifs with h1 h2
      · rfl
      · rfl
      · omega

/-- The blocks are owned once the inode is cleared. -/
theorem Cleared.store (hC : Cleared s k s1) (hx : x = none ∨ x = some k) :
    Store (some k) (s1.setDin k { (s1.icache k).din with size := 0 }) ∧
      view (s1.setDin k { (s1.icache k).din with size := 0 }) =
        update (view s) i (view s i).trunc := by
  set s2 := s1.setDin k { (s1.icache k).din with size := 0 } with hs2
  have hcur := h.cur_eq hk
  have hdin : (s2.icache k).din = { (s1.icache k).din with size := 0 } := by simp [hs2, FS.setDin]
  have haddr : ∀ j < NDIRECT + 1, (s2.icache k).din.addr j = 0 := by
    intro j hj
    rw [hdin, ← hC.addr j hj]
    rfl
  have hslot : ∀ j, slotAddr s2.disk (s2.icache k).din j = 0 := by
    intro j
    unfold slotAddr
    split_ifs with h1 h2
    · exact haddr j h1
    · rfl
    · exact absurd (haddr NDIRECT (Nat.lt_succ_self _)) h2
  have hdata : ∀ c, InData s.sb c → s2.disk c = s.disk c :=
    fun c hc => hC.freed.disk c (not_mem_bitmapBlocks h.geometry hc)
  have hmeta : (s2.icache k).din.type = (cur s i).type ∧ (s2.icache k).din.major = (cur s i).major ∧
      (s2.icache k).din.minor = (cur s i).minor ∧ (s2.icache k).din.nlink = (cur s i).nlink := by
    rw [hdin, hC.addrs, hcur]
    exact ⟨rfl, rfl, rfl, rfl⟩
  have hsize : (s2.icache k).din.size = 0 := by rw [hdin]
  have howned : Owned s.sb (update (cur s) i (s2.icache k).din) s2.disk := by
    refine h.owned.release (i := i) (fun l _ hl => update_of_ne hl _ _) ?_ ?_ hdata
      fun c hc => ?_
    · intro j _
      rw [update_self, hslot]
    · rw [update_self, hsize]
    · refine (hC.freed.used c hc).trans (and_congr_right fun _ => ?_)
      rw [← hcur]
      constructor
      · rintro hno j ⟨-, -, hj, hc0, hjc⟩
        exact hno ⟨hc0, j, hj, hjc⟩
      · rintro hno ⟨hc0, j, hj, hjc⟩
        exact hno j ⟨h.lt hk, h.cur_type hk, hj, hc0, hjc⟩
  obtain ⟨hstore, hcur'⟩ := h.change hx hk
    (show s2.sb = s.sb from FS.sb_of_env hC.freed.env)
    (hC.same.trans (SameSlots.setDin s1 k _))
    (fun l hl => (by simp [hs2, FS.setDin, hl] : _ = (s1.icache l).din).trans (hC.other l hl))
    (fun c hc => hC.freed.disk c (not_mem_bitmapBlocks_of_lt hc)) (hmeta.1 ▸ h.cur_type hk) howned
  refine ⟨hstore, view_eq_update (fun l hl => ?_) ?_⟩
  · refine view_frame (by rw [hcur', update_of_ne hl]) fun c m hown => ?_
    exact hdata c (h.owned.exact.used_of_own _ _ hown).1
  · rw [view, hcur', update_self, node, if_neg (hmeta.1 ▸ h.cur_type hk), hmeta.1,
      hmeta.2.1, hmeta.2.2.1, hmeta.2.2.2, hsize, view, node, if_neg (h.cur_type hk)]
    refine Node.ext rfl rfl rfl rfl rfl (funext fun n => ?_)
    exact if_neg fun hn => hn.2 (hslot _)

/-- `itrunc` empties the file. -/
theorem itrunc_spec (hx : x = none ∨ x = some k) :
    wp (itrunc k) (fun _ s' => Store none s' ∧
        view s' = update (view s) i (view s i).trunc ∧
        ((cur s' i).size = 0 ∧ ∀ j < NDIRECT + 1, (cur s' i).addr j = 0) ∧
        Step (insert (IBLOCK i s.sb) (bitmapBlocks s.sb)) 0 s s')
      (fun _ _ => True) s := by
  unfold itrunc
  refine wp_seq (wp_forM_range _ NDIRECT (Emptied s k) ?_ fun m hm s1 hE => hE.step h hk hm) ?_
  · exact ⟨(Freed.refl s).congr (by simp), SameSlots.refl s, fun _ _ => rfl, rfl, by simp⟩
  intro _ s1 hE
  rw [wp_bind, wp_get]
  have haddr : (s1.icache k).din.addr NDIRECT = (s.icache k).din.addr NDIRECT := by
    rw [hE.addr _ (Nat.lt_succ_self _), if_neg (Nat.lt_irrefl _)]
  have hrest : ∀ s2, Cleared s k s2 → wp (do
      modifyDin k fun d => { d with size := 0 }
      iupdate k) (fun _ s' => Store none s' ∧
        view s' = update (view s) i (view s i).trunc ∧
        ((cur s' i).size = 0 ∧ ∀ j < NDIRECT + 1, (cur s' i).addr j = 0) ∧
        Step (insert (IBLOCK i s.sb) (bitmapBlocks s.sb)) 0 s s') (fun _ _ => True) s2 := by
    intro s2 hC
    rw [wp_bind, wp_modifyDin]
    obtain ⟨hstore, hview⟩ := hC.store h hk hx
    have hstep : Step (bitmapBlocks s.sb) 0 s
        (s2.setDin k { (s2.icache k).din with size := 0 }) :=
      ⟨⟨hC.freed.env, hC.freed.loads⟩, hC.same.trans (SameSlots.setDin s2 k _)⟩
    have hk2 := hstep.same.loaded.2 hk
    refine wp_mono' (iupdate_spec hstore hk2) ?_ fun _ _ _ => trivial
    intro _ s' hfl
    have hdin : cur s' i = { (s2.icache k).din with size := 0 } := by
      rw [hfl.cur_eq, hstore.cur_eq hk2]
      simp [FS.setDin]
    refine ⟨hfl.store, hfl.view_eq.trans hview, ⟨by rw [hdin], fun j hj => ?_⟩,
      (hstep.trans hfl.step).mono ?_ le_rfl⟩
    · rw [hdin, ← hC.addr j hj]
      rfl
    rw [FS.sb_of_env hstep.env, Finset.union_comm, ← Finset.insert_eq]
  dsimp only
  rw [haddr]
  by_cases h0 : (s.icache k).din.addr NDIRECT = 0
  · rw [if_pos h0]
    exact hrest s1 (hE.cleared h0)
  · rw [if_neg h0]
    have hind := wp_mono (hE.indirect h hk h0) fun _ s2 hC => hrest s2 hC
    simpa only [wp_bind_eq] using hind

end Xv6
