import Xv6.FileArray
import Xv6.Links
import Xv6.Dir

/-!
# `filewrite`

`filewrite` cuts a buffer into chunks of at most `filewriteMax` bytes and writes each in a
transaction of its own, at the offset where the one before ended. A chunk covers 14 blocks
of the file at most, so from an empty log it logs at most those, the indirect block, the
inode's block and the bitmap blocks of the free blocks (`ChunkRoom`).

A process that runs alone writes the whole buffer, as one `writei` would, when it fits in a
file of the largest size, and otherwise the whole chunks that fit (`writeLen`). It stops for
want of free blocks only.
-/

open Function Prog Layout Finset

namespace Xv6

/-! ## What a chunk leaves as it is -/

/-- The disk, the inodes and the file table are as they were. -/
structure Kept (s s' : FS) : Prop where
  sb : s'.sb = s.sb
  size : s'.log.size = s.log.size
  ftable : s'.ftable = s.ftable
  disk : s'.disk = s.disk
  cur_eq : cur s' = cur s

namespace Kept

variable {s s' s'' : FS}

theorem refl (s : FS) : Kept s s :=
  ⟨rfl, rfl, rfl, rfl, rfl⟩

theorem trans (h : Kept s s') (h' : Kept s' s'') : Kept s s'' :=
  ⟨h'.sb.trans h.sb, h'.size.trans h.size, h'.ftable.trans h.ftable, h'.disk.trans h.disk,
    h'.cur_eq.trans h.cur_eq⟩

theorem view_eq (h : Kept s s') : view s' = view s := by
  funext i
  rw [view, view, h.disk, h.cur_eq]

theorem begun (s : FS) : Kept s s.begun :=
  ⟨rfl, rfl, rfl, rfl, rfl⟩

theorem ended (s : FS) : Kept s s.ended :=
  ⟨rfl, by unfold FS.ended; split_ifs <;> rfl, rfl, rfl, rfl⟩

end Kept

theorem Quiet.kept {s s' : FS} (h : Quiet s s') : Kept s s' :=
  ⟨congrArg Env.sb h.env, congrArg Env.size h.env, congrArg Env.ftable h.env, h.disk, h.cur_eq⟩

/-! ## The locked part of a chunk -/

section

variable {X : Finset ℕ} {R L : Multiset (Iptr × ℕ)} {B : Finset Iptr} {s s' : FS} {k : Iptr}
  {i off rem : ℕ} {src : ℕ → UInt8}

theorem Stored.inv (hs : Stored s k i src off rem s') (h : InvX X R L B s) : InvX X R L B s' := by
  refine h.step hs.store hs.same fun l _ htype hnlink => .inl ?_
  by_cases hl : l = i
  · subst hl
    rw [hs.self, Node.setSize_type, Node.setBlocks_type] at htype
    rw [hs.self, Node.setSize_nlink, Node.setBlocks_nlink] at hnlink
    exact ⟨htype, hnlink⟩
  · rw [hs.other l hl] at htype hnlink
    exact ⟨htype, hnlink⟩

theorem writei_locked (h : InvX X R L B s) (hk : (k, i) ∈ L) (hB : k ∈ B)
    (hfile : (view s i).type = T_FILE) (src : ℕ → UInt8) (off n : UInt32) :
    wp (writei k src off n) (fun r s' => InvX X R L B s' ∧
        if (view s i).size < off.toNat ∨ MAXFILE * BSIZE < off.toNat + n.toNat then
          r = none ∧ s' = s
        else r = some n.toNat ∧ Stored s k i src off.toNat n.toNat s')
      (fun x _ => off.toNat ≤ (view s i).size ∧ off.toNat + n.toNat ≤ MAXFILE * BSIZE ∧
        Lacks x (EnoughBlocks s i off.toNat n.toNat) (EnoughRoom s i off.toNat n.toNat)) s := by
  have hdev : (view s i).type ≠ T_DEV := by
    rw [hfile]
    decide
  refine wp_mono (writei_spec h.store (h.loaded hk hB) hdev src off n) fun r s' hr => ⟨?_, hr⟩
  split_ifs at hr
  · rw [hr.2]
    exact h
  · exact hr.2.inv h

theorem InvX.size_le (h : InvX X R L B s) (hk : (k, i) ∈ L) (hfile : (view s i).type = T_FILE) :
    (view s i).size ≤ MAXFILE * BSIZE := by
  have htype : (cur s i).type = T_FILE := (node_type _ _).symm.trans hfile
  have h0 : (cur s i).type ≠ 0 := by
    rw [htype]
    decide
  have hdev : (cur s i).type ≠ T_DEV := by
    rw [htype]
    decide
  rw [view, node, if_neg h0]
  exact (h.store.owned.full i (h.bounds hk).2 h0 hdev).1

end

/-! ## A chunk -/

/-- The entry of the file table after `n` bytes more. -/
def File.advance (ff : File) (n : ℕ) : File :=
  { ff with off := ff.off + UInt32.ofNat n }

theorem File.advance_zero (ff : File) : ff.advance 0 = ff := by
  show { ff with off := ff.off + 0 } = ff
  rw [UInt32.add_zero]

theorem File.advance_advance (ff : File) (m n : ℕ) :
    (ff.advance m).advance n = ff.advance (m + n) := by
  show { ff with off := ff.off + UInt32.ofNat m + UInt32.ofNat n } = _
  rw [File.advance, UInt32.ofNat_add, UInt32.add_assoc]

theorem File.toNat_off_advance {ff : File} {n : ℕ} (hend : ff.off.toNat + n ≤ MAXFILE * BSIZE) :
    (ff.advance n).off.toNat = ff.off.toNat + n := by
  have hend' : ff.off.toNat + n ≤ 71680 := hend
  rw [File.advance, UInt32.toNat_add,
    UInt32.toNat_ofNat_of_lt' (by show n < 4294967296; omega)]
  exact Nat.mod_eq_of_lt (by omega)

/-- The state after the offset of entry `f` moves by `n`. -/
def FS.advance (s : FS) (f : Fptr) (n : ℕ) : FS :=
  { s with ftable := update s.ftable f ((s.ftable f).advance n) }

theorem FS.advance_zero (s : FS) (f : Fptr) : s.advance f 0 = s := by
  rw [FS.advance, File.advance_zero, update_eq_self]

theorem wp_advance {α : Type} {m : M α} {f : Fptr} {n : ℕ} {s : FS} {Q : α → FS → Prop}
    {E : Stop → FS → Prop} :
    wp (if n > 0 then do
          modifyFile f fun f => { f with off := f.off + UInt32.ofNat n }
          m
        else m) Q E s ↔ wp m Q E (s.advance f n) := by
  split_ifs with hn
  · rw [modifyFile, wp_bind, wp_modify]
    rfl
  · obtain rfl : n = 0 := by omega
    rw [FS.advance_zero]

/-- The first `len` bytes of `src` went to file `i` through entry `f` of the file table. -/
structure Wrote (s : FS) (f : Fptr) (i : ℕ) (src : ℕ → UInt8) (len : ℕ) (s' : FS) : Prop where
  sb : s'.sb = s.sb
  logSize : s'.log.size = s.log.size
  ftable : s'.ftable = update s.ftable f ((s.ftable f).advance len)
  other : ∀ l ≠ i, view s' l = view s l
  self : view s' i = ((view s i).setBlocks (view s' i).blocks).setSize
    (max (view s i).size ((s.ftable f).off.toNat + len))
  byte : ∀ j, (view s' i).byte j =
    if (s.ftable f).off.toNat ≤ j ∧ j < (s.ftable f).off.toNat + len then
      src (j - (s.ftable f).off.toNat)
    else (view s i).byte j
  missing_eq : ∀ T, (span (s.ftable f).off.toNat len).biUnion bmapSlots ⊆ T →
    (∀ m ∈ T, m < NSLOT) →
    missing T s'.disk (cur s' i) + (freeBlocks s.disk s.sb).card =
      missing T s.disk (cur s i) + (freeBlocks s'.disk s.sb).card
  free_subset : freeBlocks s'.disk s.sb ⊆ freeBlocks s.disk s.sb

/-- Room in an empty log for a chunk of `filewrite`. -/
def ChunkRoom (s : FS) : Prop :=
  15 + (freeMaps s).card < LOGSIZE ∧ ((15 + (freeMaps s).card : ℕ) : ℤ) < s.log.size - 1

/-- Entry `f` of the file table is for regular file `i` in slot `k`, which is not locked, and
no transaction is in progress. -/
structure Alone (X : Finset ℕ) (R L : Multiset (Iptr × ℕ)) (B : Finset Iptr) (f : Fptr) (k : Iptr)
    (i : ℕ) (s : FS) : Prop where
  inv : InvX X R L B s
  mem : (k, i) ∈ L
  unlocked : k ∉ B
  ip : (s.ftable f).ip = k
  file : (view s i).type = T_FILE
  outstanding : s.log.outstanding = 0
  lh : s.log.lh = []

theorem card_span_chunk (off : ℕ) {n : ℕ} (hn : n ≤ filewriteMax) : (span off n).card ≤ 14 := by
  have hn' : n ≤ 6656 := hn
  unfold span
  split_ifs
  · exact Nat.zero_le _
  · rw [Nat.card_Ico]
    show (off + n - 1) / 512 + 1 - off / 512 ≤ 14
    omega

theorem ChunkRoom.of_subset {s s1 : FS} (h : ChunkRoom s) (hsize : s1.log.size = s.log.size)
    (hsub : freeMaps s1 ⊆ freeMaps s) : ChunkRoom s1 := by
  have hle := card_le_card hsub
  obtain ⟨h1, h2⟩ := h
  refine ⟨by omega, ?_⟩
  rw [hsize]
  omega

theorem ChunkRoom.enough {s : FS} (h : ChunkRoom s) (hlh : s.log.lh = [])
    (hout : s.log.outstanding = 1) (i off : ℕ) {n : ℕ} (hn : n ≤ filewriteMax) :
    EnoughRoom s i off n := by
  intro _
  have hspan := card_span_chunk off hn
  have hlogged : (logged s i off n).card ≤ (span off n).card := by
    unfold logged
    split_ifs
    · exact card_erase_le
    · exact le_rfl
  have hcard := card_writeSet_le s i (logged s i off n)
  have hfits : Fits (15 + (freeMaps s).card) s.log := ⟨hout.ge, h.1, h.2⟩
  refine hfits.of_le rfl rfl ?_
  rw [hlh, load_nil]
  omega

section

variable {X : Finset ℕ} {R L : Multiset (Iptr × ℕ)} {B : Finset Iptr} {s s' s1 s2 : FS} {f : Fptr}
  {k : Iptr} {i n : ℕ} {src : ℕ → UInt8}

theorem beginOp_alone (h : Alone X R L B f k i s) {E : Stop → FS → Prop} :
    wp beginOp (fun _ s' => s' = s.begun) E s := by
  unfold beginOp
  rw [wp_bind, wp_get, h.lh, h.outstanding, if_neg (by decide)]
  rfl

theorem Alone.of_kept (h : Alone X R L B f k i s) (hinv : InvX X R L B s')
    (hip : (s'.ftable f).ip = (s.ftable f).ip) (htype : (view s' i).type = (view s i).type)
    (hout : s'.log.outstanding = 0) (hlh : s'.log.lh = []) : Alone X R L B f k i s' :=
  ⟨hinv, h.mem, h.unlocked, hip.trans h.ip, htype.trans h.file, hout, hlh⟩

theorem Stored.wrote (h1 : Kept s s1)
    (hs : Stored s1 k i src (s.ftable f).off.toNat n s2) (h2 : Kept (s2.advance f n) s') :
    Wrote s f i src n s' := by
  have hview : view s' = view s2 := h2.view_eq
  have hsb2 : s2.sb = s.sb := (congrArg Env.sb hs.env).trans h1.sb
  have hft2 : s2.ftable = s.ftable := (congrArg Env.ftable hs.env).trans h1.ftable
  have hsize2 : s2.log.size = s.log.size := (congrArg Env.size hs.env).trans h1.size
  refine ⟨h2.sb.trans hsb2, h2.size.trans hsize2, ?_, fun l hl => ?_, ?_, fun j => ?_,
    fun T hT hlt => ?_, ?_⟩
  · rw [h2.ftable, FS.advance, hft2]
  · rw [hview, hs.other l hl, h1.view_eq]
  · rw [hview, ← h1.view_eq]
    exact hs.self
  · rw [hview, hs.byte, h1.view_eq]
  · have heq := hs.missing_eq T hT hlt
    have hdisk : s'.disk = s2.disk := h2.disk
    have hcur : cur s' = cur s2 := h2.cur_eq
    rwa [h1.disk, h1.cur_eq, h1.sb, ← hdisk, ← hcur] at heq
  · have hsub := hs.free_subset
    have hdisk : s'.disk = s2.disk := h2.disk
    rwa [h1.disk, h1.sb, ← hdisk] at hsub

theorem chunk_end {α : Type} (r : α) (hinv : InvX X R L (insert k B) s) (hB : k ∉ B)
    (hout : s.log.outstanding = 1) {E : Stop → FS → Prop} :
    wp (do
        iunlock k
        endOp
        return r) (fun r' s' => r' = r ∧ InvX X R L B s' ∧ Kept s s' ∧ s'.log.outstanding = 0 ∧
          s'.log.lh = []) E s := by
  refine wp_seq_total (iunlock_spec hinv (mem_insert_self k B)) ?_
  rintro _ s1 ⟨hinv1, hq⟩
  rw [erase_insert hB] at hinv1
  have hout1 : s1.log.outstanding = 1 := (congrArg Env.outstanding hq.env).trans hout
  refine wp_seq_total (endOp_spec s1) ?_
  rintro _ _ rfl
  refine ⟨rfl, hinv1.congr rfl rfl rfl, hq.kept.trans (.ended s1), ?_, ?_⟩
  · simp only [FS.ended, if_pos hout1]
  · simp only [FS.ended, if_pos hout1]

/-- The start of a chunk, up to the lock on the inode. -/
theorem chunk_start {α : Type} {m : FS → M α} {Q : α → FS → Prop} {E : Stop → FS → Prop}
    (h : Alone X R L B f k i s)
    (hm : ∀ s1, InvX X R L (insert k B) s1 → Kept s s1 → s1.log.outstanding = 1 →
      s1.log.lh = [] → wp (m s.begun) Q E s1) :
    wp (do
        beginOp
        let s ← get
        ilock (s.ftable f).ip
        m s) Q E s := by
  refine wp_seq (beginOp_alone h) ?_
  rintro _ _ rfl
  simp only [wp_bind, wp_get]
  rw [show (s.begun.ftable f).ip = k from h.ip]
  have hno : ¬ (k ∈ B ∨ (view s.begun i).type = 0) := by
    rintro (hB | htype)
    · exact h.unlocked hB
    · exact absurd (h.file.symm.trans htype) (by decide)
  refine wp_mono' (ilock_spec (h.inv.congr rfl rfl rfl : InvX X R L B s.begun) h.mem) ?_
    fun _ _ hbad => absurd hbad hno
  rintro _ s1 ⟨-, -, hinv1, hq⟩
  exact hm s1 hinv1 ((Kept.begun s).trans hq.kept)
    ((congrArg Env.outstanding hq.env).trans (congrArg (· + 1) h.outstanding))
    (hq.lh.trans h.lh)

/-- A chunk fails when it starts past the end or reaches beyond the largest file. Otherwise
it is written, unless free blocks or room in the log are missing. -/
theorem filewriteChunk_spec (h : Alone X R L B f k i s) (src : ℕ → UInt8) (hn : n ≤ filewriteMax) :
    wp (filewriteChunk f src n) (fun r s' => Alone X R L B f k i s' ∧
        if (view s i).size < (s.ftable f).off.toNat ∨
            MAXFILE * BSIZE < (s.ftable f).off.toNat + n then
          r = none ∧ Kept s s'
        else r = some n ∧ Wrote s f i src n s')
      (fun x _ => (s.ftable f).off.toNat ≤ (view s i).size ∧
        (s.ftable f).off.toNat + n ≤ MAXFILE * BSIZE ∧
        Lacks x (EnoughBlocks s i (s.ftable f).off.toNat n) (ChunkRoom s)) s := by
  have hn' : n ≤ 6656 := hn
  have hcast : (UInt32.ofNat n).toNat = n := UInt32.toNat_ofNat_of_lt' (by
    show n < 4294967296
    omega)
  unfold filewriteChunk
  refine chunk_start h fun s1 hinv1 hk1 hout1 hlh1 => ?_
  rw [show (s.begun.ftable f).ip = k from h.ip]
  have hoff1 : (s1.ftable f).off = (s.ftable f).off := by rw [hk1.ftable]
  have hw := writei_locked hinv1 h.mem (mem_insert_self k B) (by rw [hk1.view_eq, h.file])
    src (s1.ftable f).off (UInt32.ofNat n)
  rw [hoff1, hcast, hk1.view_eq] at hw
  rw [wp_bind, wp_get, hoff1]
  refine wp_bind.2 (wp_mono' hw ?_ ?_)
  · rintro r s2 ⟨hinv2, hr⟩
    split_ifs at hr with hbad
    · obtain ⟨rfl, rfl⟩ := hr
      refine wp_mono (chunk_end none hinv2 h.unlocked hout1) ?_
      rintro _ s' ⟨rfl, hinv', hk', hout', hlh'⟩
      have hk := hk1.trans hk'
      rw [if_pos hbad]
      exact ⟨h.of_kept hinv' (by rw [hk.ftable]) (by rw [hk.view_eq]) hout' hlh', rfl, hk⟩
    · obtain ⟨rfl, hs⟩ := hr
      have hinv3 : InvX X R L (insert k B) (s2.advance f n) := hinv2.congr rfl rfl rfl
      have hout2 : s2.log.outstanding = 1 := (congrArg Env.outstanding hs.env).trans hout1
      refine wp_advance.2 (wp_mono (chunk_end (some n) hinv3 h.unlocked hout2) ?_)
      rintro _ s' ⟨rfl, hinv', hk', hout', hlh'⟩
      have hwrote : Wrote s f i src n s' := hs.wrote hk1 hk'
      rw [if_neg hbad]
      refine ⟨h.of_kept hinv' ?_ ?_ hout' hlh', rfl, hwrote⟩
      · rw [hwrote.ftable, update_self]
        rfl
      · rw [hwrote.self, Node.setSize_type, Node.setBlocks_type]
  · rintro x _ ⟨hle, hend, hlacks⟩
    have hroom1 : ChunkRoom s → ChunkRoom s1 := fun hroom => hroom.of_subset hk1.size <| by
      rw [freeMaps, freeMaps, hk1.disk, hk1.sb]
    refine ⟨hle, hend, hlacks.mono ?_ fun hroom => (hroom1 hroom).enough hlh1 hout1 i _ hn⟩
    rw [EnoughBlocks, EnoughBlocks, hk1.disk, hk1.cur_eq, hk1.sb]
    exact id

end

/-! ## The loop -/

theorem mem_span {off rem j : ℕ} :
    j ∈ span off rem ↔ rem ≠ 0 ∧ off / BSIZE ≤ j ∧ j ≤ (off + rem - 1) / BSIZE := by
  unfold span
  split_ifs with h
  · exact iff_of_false (notMem_empty j) fun hn => hn.1 h
  · rw [mem_Ico, Nat.lt_succ_iff]
    exact (and_iff_right h).symm

theorem span_subset {off rem off' rem' : ℕ} (h : off ≤ off') (h' : off' + rem' ≤ off + rem) :
    span off' rem' ⊆ span off rem := by
  intro j hj
  obtain ⟨hne, hlo, hhi⟩ := mem_span.1 hj
  exact mem_span.2 ⟨by omega, (Nat.div_le_div_right h).trans hlo,
    hhi.trans (Nat.div_le_div_right (by omega))⟩

theorem span_slots_subset {off rem off' rem' : ℕ} (h : off ≤ off') (h' : off' + rem' ≤ off + rem) :
    (span off' rem').biUnion bmapSlots ⊆ (span off rem).biUnion bmapSlots :=
  biUnion_subset_biUnion_of_subset_left _ (span_subset h h')

section

variable {X : Finset ℕ} {R L : Multiset (Iptr × ℕ)} {B : Finset Iptr} {s s' s1 : FS} {f : Fptr}
  {k : Iptr} {i off len rem : ℕ} {src : ℕ → UInt8}

theorem Wrote.off_eq (h : Wrote s f i src len s')
    (hend : (s.ftable f).off.toNat + len ≤ MAXFILE * BSIZE) :
    (s'.ftable f).off.toNat = (s.ftable f).off.toNat + len := by
  rw [h.ftable, update_self, File.toNat_off_advance hend]

theorem Wrote.size_eq (h : Wrote s f i src len s') :
    (view s' i).size = max (view s i).size ((s.ftable f).off.toNat + len) := by
  rw [h.self, Node.setSize_size]

theorem Kept.wrote (h : Kept s s') (hoff : (s.ftable f).off.toNat ≤ (view s i).size) :
    Wrote s f i src 0 s' := by
  refine ⟨h.sb, h.size, ?_, fun l _ => by rw [h.view_eq], ?_, fun j => ?_, fun T _ _ => ?_,
    by rw [h.disk]⟩
  · rw [File.advance_zero, update_eq_self, h.ftable]
  · rw [h.view_eq, Nat.add_zero, Nat.max_eq_left hoff, Node.setBlocks_self, Node.setSize_self]
  · rw [h.view_eq, if_neg (by omega)]
  · rw [h.disk, h.cur_eq]

theorem Node.setBlocks_setBlocks (nd : Node) (bl bl' : ℕ → Option Block) (m n : ℕ) :
    (((nd.setBlocks bl).setSize m).setBlocks bl').setSize n = (nd.setBlocks bl').setSize n := rfl

theorem Wrote.append (h : Wrote s f i src len s1)
    (h' : Wrote s1 f i (fun j => src (len + j)) rem s')
    (hend : (s.ftable f).off.toNat + len ≤ MAXFILE * BSIZE) : Wrote s f i src (len + rem) s' := by
  have hoff := h.off_eq hend
  refine ⟨h'.sb.trans h.sb, h'.logSize.trans h.logSize, ?_, fun l hl => ?_, ?_, fun j => ?_,
    fun T hT hlt => ?_, ?_⟩
  · rw [h'.ftable, h.ftable, update_self, update_idem, File.advance_advance]
  · rw [h'.other l hl, h.other l hl]
  · have hself := h'.self
    rwa [h.size_eq, hoff, max_assoc, Nat.max_eq_right (Nat.le_add_right _ rem), Nat.add_assoc,
      h.self, Node.setBlocks_setBlocks] at hself
  · rw [h'.byte, hoff, h.byte]
    split_ifs <;> first | rfl | omega | skip
    rw [show len + (j - ((s.ftable f).off.toNat + len)) = j - (s.ftable f).off.toNat by omega]
  · have h1 := h.missing_eq T ((span_slots_subset le_rfl (by omega)).trans hT) hlt
    have h2 := h'.missing_eq T ((span_slots_subset (by omega) (by omega)).trans hT) hlt
    rw [h.sb] at h2
    omega
  · have hsub := h'.free_subset
    rw [h.sb] at hsub
    exact hsub.trans h.free_subset

theorem ChunkRoom.of_wrote (h : ChunkRoom s) (hw : Wrote s f i src len s') : ChunkRoom s' :=
  h.of_subset hw.logSize <| by
    rw [freeMaps, freeMaps, hw.sb]
    exact image_subset_image hw.free_subset

theorem EnoughBlocks.take (h : EnoughBlocks s i off (len + rem)) : EnoughBlocks s i off len :=
  (card_le_card (filter_subset_filter _
    (span_slots_subset le_rfl (by omega)))).trans h

theorem EnoughBlocks.drop (h : EnoughBlocks s i (s.ftable f).off.toNat (len + rem))
    (hw : Wrote s f i src len s')
    (hend : (s.ftable f).off.toNat + (len + rem) ≤ MAXFILE * BSIZE) :
    EnoughBlocks s' i (s'.ftable f).off.toNat rem := by
  have hsub : (span (s'.ftable f).off.toNat rem).biUnion bmapSlots ⊆
      (span (s.ftable f).off.toNat (len + rem)).biUnion bmapSlots := by
    rw [hw.off_eq (by omega)]
    exact span_slots_subset (by omega) (by omega)
  have hle : missing ((span (s'.ftable f).off.toNat rem).biUnion bmapSlots) s'.disk (cur s' i) ≤
      missing ((span (s.ftable f).off.toNat (len + rem)).biUnion bmapSlots) s'.disk (cur s' i) :=
    card_le_card (filter_subset_filter _ hsub)
  have heq := hw.missing_eq _ (span_slots_subset le_rfl (by omega)) (span_slots_lt hend)
  unfold EnoughBlocks at h ⊢
  rw [hw.sb]
  omega

theorem filewriteLoop_stop (src : ℕ → UInt8) (n : ℤ) : ∀ (fuel j : ℕ) {s : FS},
    Alone X R L B f k i s → ChunkRoom s →
    wp (filewriteLoop f src n fuel j) (fun _ _ => True)
      (fun x _ => x = .panic "balloc: out of blocks") s
  | 0, _, _, _, _ => trivial
  | fuel + 1, j, s, h, hroom => by
    rw [filewriteLoop]
    split_ifs with hdone
    · trivial
    refine wp_seq (wp_mono' (filewriteChunk_spec h _ (min_le_right _ _)) (fun _ _ => id) ?_) ?_
    · rintro x _ ⟨-, -, ⟨hx, -⟩ | hno⟩
      · exact hx
      · exact absurd hroom hno
    · rintro r s1 ⟨h1, hr⟩
      split_ifs at hr
      · rw [hr.1]
        trivial
      · obtain ⟨rfl, hw⟩ := hr
        dsimp only
        rw [if_neg (not_not.2 rfl)]
        exact filewriteLoop_stop src n fuel _ h1 (hroom.of_wrote hw)

end

/-! ## `filewrite` -/

section

variable {X : Finset ℕ} {R L : Multiset (Iptr × ℕ)} {B : Finset Iptr} {s s' : FS} {f : Fptr}
  {k : Iptr} {i len : ℕ} {src : ℕ → UInt8}

theorem Wrote.data (h : Wrote s f i src len s')
    (hoff : (s.ftable f).off.toNat ≤ (view s i).size) :
    (view s' i).data = (view s i).data.take (s.ftable f).off.toNat ++ (List.range len).map src ++
      (view s i).data.drop ((s.ftable f).off.toNat + len) :=
  Node.data_write h.size_eq h.byte hoff

/-- A process that writes alone does not overflow a log of `LOGSIZE` blocks, on a disk with one
bitmap block. -/
theorem filewrite_not_too_big (h : Alone X R L B f k i s) (hbitmap : nbitmap s.sb = 1)
    (hlog : s.log.size = LOGSIZE) (src : ℕ → UInt8) (n : ℤ) (s' : FS) :
    filewrite f src n s ≠ .error (.panic "too big a transaction") s' := by
  have hroom : ChunkRoom s := by
    have hmaps := card_freeMaps_le s
    rw [hbitmap] at hmaps
    rw [ChunkRoom, hlog]
    show 15 + (freeMaps s).card < 30 ∧ ((15 + (freeMaps s).card : ℕ) : ℤ) < 30 - 1
    omega
  have hspec : wp (filewrite f src n) (fun _ _ => True)
      (fun x _ => x ≠ .panic "too big a transaction") s := by
    unfold filewrite
    rw [wp_bind, wp_get]
    dsimp only
    split_ifs
    · trivial
    cases (s.ftable f).type with
    | none =>
      show Stop.panic "filewrite" ≠ .panic "too big a transaction"
      decide
    | pipe => trivial
    | inode =>
      refine wp_seq (wp_mono' (filewriteLoop_stop src n n.toNat 0 h hroom) (fun _ _ => id) ?_)
        fun _ _ _ => trivial
      rintro x _ rfl
      decide
  exact fun hrun => wp_error hspec hrun rfl

end

/-! ## An open file -/

/-- The invariant of a call when one slot is in use, not locked, and every inode has a link. -/
theorem inv_single {s : FS} {i : ℕ} {d : Dinode} (h : Store none s)
    (hslot : ∀ k, s.icache k = if k = 0 then ⟨ROOTDEV, i, 1, false, true, d⟩ else Inode.unused)
    (hlink : ∀ l, (view s l).type ≠ 0 → (view s l).nlink ≠ 0) : Inv {(0, i)} {(0, i)} ∅ s := by
  refine ⟨h, le_rfl, fun k => ?_, ?_, fun k => ?_, fun k hk => absurd hk (notMem_empty k),
    fun l _ htype hnlink => absurd hnlink (hlink l htype)⟩
  · rw [hslot, Multiset.map_singleton, Multiset.count_singleton]
    split_ifs <;> rfl
  · intro q hq
    rw [Multiset.mem_singleton.1 hq, hslot, if_pos rfl]
  · rw [hslot]
    refine iff_of_false ?_ (notMem_empty k)
    split_ifs <;> decide

/-- The file system with an empty regular file, open for writing. -/
def opened : FS :=
  { (blank T_FILE).setSlot 0 ⟨ROOTDEV, 1, 1, false, true, blankInode T_FILE⟩ with
    log := ⟨30, 0, [], []⟩
    ftable := fun f => if f.val = 0 then ⟨.inode, 1, false, true, 0, 0, 0⟩
      else ⟨.none, 0, false, false, 0, 0, 0⟩ }

theorem blank_unlocked : Store none ((blank T_FILE).setSlot 0
      ⟨ROOTDEV, 1, 1, false, true, blankInode T_FILE⟩) ∧
    Quiet (blank T_FILE) ((blank T_FILE).setSlot 0
      ⟨ROOTDEV, 1, 1, false, true, blankInode T_FILE⟩) := by
  refine (blank_store (by decide)).setSlot 0 _ (fun _ => ⟨rfl, le_rfl, ?_, ?_⟩) ?_ ?_
  · show 1 < ninum blankSb
    decide
  · exact fun l hl href => absurd (blank_ref href) hl
  · rintro i ⟨-, -, hi⟩ -
    exact ⟨rfl, hi, rfl⟩
  · exact fun _ _ => .inl blank_loaded

theorem opened_view : view opened = view (blank T_FILE) :=
  blank_unlocked.2.view_eq

theorem opened_inv : Inv {(0, 1)} {(0, 1)} ∅ opened := by
  obtain ⟨hgeo, hsuper, hdist, htyped, hclean, howned⟩ := blank_unlocked.1
  refine inv_single (d := blankInode T_FILE) ⟨hgeo, hsuper, hdist, htyped, hclean, howned⟩
    (fun k => ?_) fun i htype hnlink => ?_
  · by_cases hk : k = 0
    · subst hk
      rfl
    · rw [show opened.icache k = (blank T_FILE).icache k from setSlot_of_ne _ _ hk, if_neg hk]
      exact if_neg fun h => hk (Fin.ext h)
  · rw [opened_view, view, blank_cur] at htype hnlink
    split_ifs at htype hnlink
    · exact absurd hnlink (by decide)
    · exact absurd rfl htype

theorem opened_alone : Alone ∅ {(0, 1)} {(0, 1)} ∅ 0 0 1 opened where
  inv := opened_inv
  mem := Multiset.mem_singleton_self _
  unlocked := notMem_empty _
  ip := rfl
  file := by
    rw [opened_view]
    exact (blank_view (by decide)).1
  outstanding := rfl
  lh := rfl

/-- A write of more than the largest file. -/
theorem filewrite_not_too_big_opened : nbitmap opened.sb = 1 ∧ opened.log.size = LOGSIZE ∧
    ∀ s', filewrite 0 (fun _ => 7) 100000 opened ≠ .error (.panic "too big a transaction") s' := by
  have hbitmap : nbitmap opened.sb = 1 := by decide
  have hlog : opened.log.size = LOGSIZE := rfl
  exact ⟨hbitmap, hlog, filewrite_not_too_big opened_alone hbitmap hlog (fun _ => 7) 100000⟩

end Xv6
