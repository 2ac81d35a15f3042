import Xv6.MkfsBuild

/-!
# The limits of an image

`mkfs` counts inodes and blocks with two counters that nothing holds below `sb.ninodes` and
`sb.size`. A run that succeeds has read every block it handed out, so the blocks are within the
image, but inode 200 is past the last one the superblock admits (`within_iff`).

`main` rounds the size of the root directory up past its last block, one block too far when the
entries fill whole blocks. From 207 files on, inode 208 is read from the bitmap
(`image_full_iff`).
-/

open Function Prog Layout List

namespace Xv6.Mkfs

variable {s : State} {i n : ℕ} {files : List (List UInt8 × List UInt8)}

/-! ## The counters -/

/-- No inode is allocated, and blocks may be. -/
def Counts (s s' : State) : Prop :=
  s'.freeinode = s.freeinode ∧ s.freeblock ≤ s'.freeblock

theorem Counts.refl (s : State) : Counts s s :=
  ⟨rfl, le_rfl⟩

theorem Counts.trans (s s' s'' : State) (h : Counts s s') (h' : Counts s' s'') : Counts s s'' :=
  ⟨h'.1.trans h.1, h.2.trans h'.2⟩

theorem always_wsect (b : ℕ) (data : Block) : Always Counts (wsect b data) :=
  always_modify fun _ => ⟨rfl, le_rfl⟩

theorem always_rsect (b : ℕ) : Always Counts (rsect b) :=
  always_bind Counts.trans (always_get Counts.refl) fun _ =>
    always_ite (always_pure Counts.refl _) (always_throw Counts.refl _)

theorem always_nextBlock : Always Counts nextBlock :=
  always_bind Counts.trans (always_get Counts.refl) fun _ =>
    always_bind Counts.trans (always_modify fun _ => ⟨rfl, Nat.le_succ _⟩) fun _ =>
      always_pure Counts.refl _

theorem always_winode (i : ℕ) (d : Dinode) : Always Counts (winode i d) :=
  always_bind Counts.trans (always_rsect _) fun _ => always_wsect _ _

theorem always_rinode (i : ℕ) : Always Counts (rinode i) :=
  always_bind Counts.trans (always_rsect _) fun _ => always_pure Counts.refl _

theorem always_iappendBlock (d : Dinode) (n : ℕ) : Always Counts (iappendBlock d n) := by
  have hrest : ∀ d : Dinode, Always Counts (do
      let indirect ← rsect (d.addr NDIRECT)
      let x := indWord indirect (n - NDIRECT)
      if x = 0 then do
        let x ← nextBlock
        wsect (d.addr NDIRECT)
          (Bytes.write Codec.u32 indirect (4 * (n - NDIRECT)) (UInt32.ofNat x))
        return (d, x)
      else
        return (d, x)) := fun d =>
    always_bind Counts.trans (always_rsect _) fun _ => always_ite
      (always_bind Counts.trans always_nextBlock fun _ =>
        always_bind Counts.trans (always_wsect _ _) fun _ => always_pure Counts.refl _)
      (always_pure Counts.refl _)
  exact always_ite
    (always_ite (always_bind Counts.trans always_nextBlock fun _ => always_pure Counts.refl _)
      (always_pure Counts.refl _))
    (always_ite (always_bind Counts.trans always_nextBlock fun _ => hrest _) (hrest _))

theorem always_iappendLoop (fuel : ℕ) : ∀ (d : Dinode) (off : ℕ) (p : List UInt8),
    Always Counts (iappendLoop fuel d off p) := by
  induction fuel with
  | zero => exact fun _ _ _ => always_pure Counts.refl _
  | succ fuel ih =>
    exact fun d off p => always_ite (always_pure Counts.refl _) (always_ite
      (always_bind Counts.trans (always_iappendBlock _ _) fun r =>
        always_bind Counts.trans (always_rsect _) fun _ =>
          always_bind Counts.trans (always_wsect _ _) fun _ => ih _ _ _)
      (always_throw Counts.refl _))

theorem always_iappend (i : ℕ) (p : List UInt8) : Always Counts (iappend i p) :=
  always_bind Counts.trans (always_rinode _) fun _ =>
    always_bind Counts.trans (always_iappendLoop _ _ _ _) fun _ => always_winode _ _

theorem addFile_counts (file : List UInt8 × List UInt8) :
    wp (addFile n file) (fun _ s' => s'.freeinode = s.freeinode + 1 ∧ s.freeblock ≤ s'.freeblock)
      (fun _ _ => True) s := by
  unfold addFile
  by_cases hslash : slash ∈ file.1
  · rw [if_pos hslash, wp_throw]
    trivial
  · rw [if_neg hslash]
    have hialloc : wp (ialloc T_FILE) (fun _ s' => s'.freeinode = s.freeinode + 1 ∧
        s.freeblock ≤ s'.freeblock) (fun _ _ => True) s := by
      unfold ialloc
      rw [wp_bind, wp_get, wp_bind, wp_modify]
      exact wp_seq (wp_of_always (always_winode _ _) (fun _ _ h => h) fun _ _ _ => trivial)
        fun _ _ h => h
    refine wp_seq hialloc fun r s1 h1 => ?_
    refine wp_seq (wp_of_always (always_iappend _ _) (fun _ _ h => h) fun _ _ _ => trivial)
      fun _ s2 h2 => ?_
    refine wp_mono (wp_forM _ (fun _ s' => Counts s2 s') _ (Counts.refl s2) fun p _ s' h' =>
      wp_of_always (always_iappend _ p) (fun _ s'' h'' => Counts.trans _ _ _ h' h'')
        fun _ _ _ => trivial) fun _ s3 h3 => ?_
    exact ⟨by rw [h3.1, h2.1, h1.1], h1.2.trans (h2.2.trans h3.2)⟩

theorem addFiles_counts (files : List (List UInt8 × List UInt8)) : ∀ {s : State},
    wp (forM files (addFile n)) (fun _ s' => s'.freeinode = s.freeinode + files.length ∧
      s.freeblock ≤ s'.freeblock) (fun _ _ => True) s := by
  induction files with
  | nil => exact fun {_} => ⟨rfl, le_rfl⟩
  | cons file files ih =>
    intro s
    rw [forM_cons]
    refine wp_seq (addFile_counts file) fun _ s1 h1 => wp_mono ih fun _ s2 h2 => ?_
    rw [length_cons]
    exact ⟨by omega, h1.2.trans h2.2⟩

/-- What `main` does after the host files. -/
theorem finish_counts : wp (do
      let d ← rinode ROOTINO
      let off := (d.size.toNat / BSIZE + 1) * BSIZE
      winode ROOTINO { d with size := UInt32.ofNat off }
      balloc (← get).freeblock)
    (fun _ s' => s'.freeinode = s.freeinode ∧ s.freeblock ≤ s'.freeblock ∧
      s'.img sb.bmapstart.toNat = usedBitmap s'.freeblock) (fun _ _ => True) s := by
  refine wp_seq (wp_of_always (always_rinode _) (fun _ _ h => h) fun _ _ _ => trivial)
    fun d s1 h1 => ?_
  refine wp_seq (wp_of_always (always_winode _ _) (fun _ _ h => h) fun _ _ _ => trivial)
    fun _ s2 h2 => ?_
  have h := Counts.trans _ _ _ h1 h2
  rw [wp_bind, wp_get]
  unfold balloc
  split_ifs
  · unfold wsect
    rw [wp_modify, setBlock_eq]
    exact ⟨h.1, h.2, by dsimp only; rw [update_self]⟩
  · trivial

theorem Built.blocks_le {c : ℕ → List UInt8} {z : ℕ → ℕ} (h : Built c z s)
    (hi : i < s.freeinode) : nmeta + blocks (c i).length ≤ s.freeblock := by
  have hf := h.image.file i hi
  have hcard := Finset.card_le_card_of_injOn (s := Finset.range (blocks (c i).length))
    (t := Finset.Ico nmeta s.freeblock) (fileAddr s.img (dinode s.img sb i)) (fun n hn => ?_)
    fun n hn n' hn' he => ?_
  · have := h.image.block_ge
    rw [Finset.card_range, Nat.card_Ico] at hcard
    omega
  · have hn := Finset.mem_range.1 hn
    have hnM := hn.trans_le hf.max
    exact Finset.mem_coe.2 (Finset.mem_Ico.2
      (h.image.own i hi _ (fileSlot_lt hnM) ((hf.used n hnM).2 hn)))
  · have hn := Finset.mem_range.1 hn
    have hnM := hn.trans_le hf.max
    have hnM' := (Finset.mem_range.1 hn').trans_le hf.max
    exact fileSlot_inj (h.image.inj i hi _ (fileSlot_lt hnM) i hi _ (fileSlot_lt hnM')
      ((hf.used n hnM).2 hn) he).2

/-- A run that succeeds has one inode for each host file, and the bitmap tells the blocks it has
handed out. With 206 files the root directory has seven blocks. -/
theorem main_counts (h : main files start = .ok () s) :
    s.freeinode = files.length + 2 ∧ s.img sb.bmapstart.toNat = usedBitmap s.freeblock ∧
      (206 ≤ files.length → nmeta + 7 ≤ s.freeblock) := by
  generalize hm : main files = m at h
  refine wp_ok (wp_main (E := fun _ _ => True) (Q := fun _ s => s.freeinode = files.length + 2 ∧
    s.img sb.bmapstart.toNat = usedBitmap s.freeblock ∧
    (206 ≤ files.length → nmeta + 7 ≤ s.freeblock)) hm.symm fun s0 h0 hino0 _ => ?_) h
  have hone : ROOTINO = 1 := rfl
  have hsplit : forM files (addFile ROOTINO) = (do
      forM (files.take 206) (addFile ROOTINO)
      forM (files.drop 206) (addFile ROOTINO)) := by
    rw [← forM_append, take_append_drop]
  have htake : (files.take 206).length = min 206 files.length := length_take ..
  rw [hsplit, wp_bind, wp_bind]
  refine wp_mono' (addFiles_spec (files.take 206) h0 (by omega) (by rw [ninum_sb]; omega))
    (fun _ s1 hr => ?_) fun _ _ _ => trivial
  obtain ⟨h1, hino1, -, -, -⟩ := hr
  refine wp_mono (addFiles_counts (files.drop 206)) fun _ s2 h2 => ?_
  rw [length_drop] at h2
  refine wp_mono finish_counts fun _ s3 h3 => ⟨by omega, h3.2.2, fun hlen => ?_⟩
  have hroot := h1.blocks_le (by omega : ROOTINO < s1.freeinode)
  rw [length_grow_root _ (by omega), length_base, htake, Nat.min_eq_left hlen] at hroot
  have hseven : blocks (2 * DIRENT + DIRENT * 206) = 7 := by decide
  omega

theorem made_of_ok (h : main files start = .ok () s) (hn : files.length ≤ 206) :
    Made files s := by
  generalize hm : main files = m at h
  exact wp_ok (main_spec hm.symm hn) h

/-- Files that fit make an image. -/
theorem exists_made (hn : files.length ≤ 206) (hfits : Fits files) :
    ∃ s, main files start = .ok () s ∧ Made files s := by
  generalize hm : main files = m
  obtain ⟨_, s, h, hmade⟩ := exists_ok_of_wp (wp_mono' (main_spec hm.symm hn) (fun _ _ h => h)
    fun _ _ he => he hfits)
  exact ⟨s, h, hmade⟩

/-! ## Inode numbers and block numbers -/

/-- A run of `mkfs` that succeeds keeps the inode numbers below `sb.ninodes` and the block numbers
below `sb.size` if and only if there are at most 198 host files. -/
theorem within_iff (h : main files start = .ok () s) :
    (∀ i, start.freeinode ≤ i → i < s.freeinode → i < sb.ninodes.toNat) ∧
      (∀ b, start.freeblock ≤ b → b < s.freeblock → b < sb.size.toNat) ↔ files.length ≤ 198 := by
  have hino := (main_counts h).1
  have hnum : sb.ninodes.toNat = 200 := rfl
  have hsize : sb.size.toNat = FSSIZE := rfl
  have hfirst : start.freeinode = 1 := rfl
  constructor
  · rintro ⟨hi, -⟩
    by_contra hlt
    have := hi 200 (by omega) (by omega)
    omega
  · intro hlen
    have hb := (made_of_ok h (by omega)).built.block_le
    exact ⟨fun i _ hi => by omega, fun b _ hb' => by omega⟩

/-- Empty host files with names of two letters. -/
def emptyFiles (n : ℕ) : List (List UInt8 × List UInt8) :=
  (List.range n).map fun k => ([UInt8.ofNat (97 + k / 26), UInt8.ofNat (97 + k % 26)], [])

theorem length_emptyFiles (n : ℕ) : (emptyFiles n).length = n := by
  rw [emptyFiles, length_map, length_range]

theorem fits_emptyFiles (hn : n ≤ 206) : Fits (emptyFiles n) := by
  refine ⟨fun file hf => ?_, ?_⟩
  · obtain ⟨k, hk, rfl⟩ := mem_map.1 hf
    have hk' := mem_range.1 hk
    refine ⟨fun hs => ?_, Nat.zero_le _⟩
    have hne : ∀ x, 97 ≤ x → x < 256 → slash ≠ UInt8.ofNat x := fun x hx hx' he => by
      have := congrArg UInt8.toNat he
      rw [UInt8.toNat_ofNat_of_lt' hx'] at this
      have h47 : slash.toNat = 47 := rfl
      omega
    rcases mem_cons.1 hs with he | hs
    · exact hne _ (by omega) (by omega) he
    · exact hne _ (by omega) (by omega) (mem_singleton.1 hs)
  · have hcost : (emptyFiles n).map cost = List.replicate n 4 := by
      refine eq_replicate_iff.2 ⟨by rw [length_map, length_emptyFiles], fun x hx => ?_⟩
      obtain ⟨file, hf, rfl⟩ := mem_map.1 hx
      obtain ⟨k, -, rfl⟩ := mem_map.1 hf
      rfl
    rw [hcost, sum_replicate]
    show 59 + 8 + n * 4 ≤ 1000
    omega

/-- 199 empty files : `mkfs` succeeds and inode 200 is in use. -/
theorem mkfs_overfills : ∃ s, main (emptyFiles 199) start = .ok () s ∧
    ∃ i, start.freeinode ≤ i ∧ i < s.freeinode ∧ ¬ i < sb.ninodes.toNat := by
  have hlen := length_emptyFiles 199
  obtain ⟨s, h, hmade⟩ := exists_made (by omega) (fits_emptyFiles (by omega : 199 ≤ 206))
  exact ⟨s, h, 200, by decide, by rw [hmade.inode, hlen]; decide, by decide⟩

theorem within_iff_two : ∃ s, main (emptyFiles 2) start = .ok () s ∧
    ((∀ i, start.freeinode ≤ i → i < s.freeinode → i < sb.ninodes.toNat) ∧
      ∀ b, start.freeblock ≤ b → b < s.freeblock → b < sb.size.toNat) := by
  obtain ⟨s, h, -⟩ := exists_made (by rw [length_emptyFiles]; omega)
    (fits_emptyFiles (by omega : 2 ≤ 206))
  exact ⟨s, h, (within_iff h).2 (by rw [length_emptyFiles]; omega)⟩

/-! ## Holes -/

theorem Built.full {c : ℕ → List UInt8} {z : ℕ → ℕ} (h : Built c z s) (hi : i < s.freeinode)
    (hz : z i ≤ blocks (c i).length * BSIZE) : Full s.img (dinode s.img sb i) := by
  have hf := h.image.file i hi
  rw [Full, h.size i hi]
  refine ⟨hz.trans (Nat.mul_le_mul_right _ hf.max), fun n hn => ?_⟩
  have hlt : n < blocks (c i).length := Nat.lt_of_mul_lt_mul_right (hn.trans_le hz)
  exact (hf.used n (hlt.trans_le hf.max)).2 hlt

theorem full_zero (img : ℕ → Block) : Full img Dinode.zero :=
  ⟨Nat.zero_le _, fun _ hn => absurd hn (Nat.not_lt_zero _)⟩

theorem le_blocks (n : ℕ) : n ≤ blocks n * BSIZE := by
  unfold blocks
  simp only [BSIZE]
  omega

theorem get_usedBitmap_of_le {k : ℕ} (hn : n ≤ 8 * k) : (usedBitmap n).get k = 0 := by
  induction n with
  | zero => exact get_zeroBlock k
  | succ n ih =>
    have hstep : usedBitmap (n + 1) = setBit (usedBitmap n) n := by
      rw [usedBitmap, range_succ, foldl_append]
      rfl
    rw [hstep, setBit, Bytes.get_blit_of_not_mem _ _ (by omega)]
    exact ih (by omega)

theorem get_usedBitmap_ne_zero {k : ℕ} (hk : k < BSIZE) (hn : 8 * k < n) :
    (usedBitmap n).get k ≠ 0 := by
  intro h0
  have hb : 8 * k < BPB := by
    simp only [BPB, BSIZE] at *
    omega
  have hclear := (isClear_usedBitmap n hb).not.2 (Nat.not_le.2 hn)
  rw [isClear, Nat.mul_div_cancel_left k (by decide), h0] at hclear
  simp at hclear

theorem not_full_bitmap {img : ℕ → Block} (hn : 66 ≤ n) :
    ¬ Full img (Bytes.read Dinode.codec (usedBitmap n) 0) := by
  have hsize : (Bytes.read Dinode.codec (usedBitmap n) 0).size = UInt32.ofNat
      (((usedBitmap n).get 8).toNat + 256 * ((usedBitmap n).get 9).toNat +
        65536 * ((usedBitmap n).get 10).toNat + 16777216 * ((usedBitmap n).get 11).toNat) := rfl
  have haddr : (Bytes.read Dinode.codec (usedBitmap n) 0).addrs 0 = UInt32.ofNat
      (((usedBitmap n).get 12).toNat + 256 * ((usedBitmap n).get 13).toNat +
        65536 * ((usedBitmap n).get 14).toNat + 16777216 * ((usedBitmap n).get 15).toNat) := rfl
  have hpos : ∀ k < BSIZE, 8 * k < n → 0 < ((usedBitmap n).get k).toNat := fun k hk hlt => by
    refine Nat.pos_of_ne_zero fun h0 => get_usedBitmap_ne_zero hk hlt ?_
    exact UInt8.toNat_inj.1 h0
  have hlt : ∀ k, ((usedBitmap n).get k).toNat < 256 := fun k => UInt8.toNat_lt _
  have hsize' := congrArg UInt32.toNat hsize
  rw [UInt32.toNat_ofNat_of_lt' (by
    have := hlt 8; have := hlt 9; have := hlt 10; have := hlt 11
    show _ < 2 ^ 32
    omega)] at hsize'
  rintro ⟨hmax, hfull⟩
  rw [hsize'] at hmax hfull
  by_cases h96 : n ≤ 96
  · -- the size is not zero and the first address is
    refine hfull 0 (by have := hpos 8 (by decide) (by omega); omega) ?_
    show (Bytes.read Dinode.codec (usedBitmap n) 0).addr 0 = 0
    rw [Dinode.addr, dif_pos (by decide)]
    show ((Bytes.read Dinode.codec (usedBitmap n) 0).addrs 0).toNat = 0
    rw [haddr, get_usedBitmap_of_le (by omega), get_usedBitmap_of_le (by omega),
      get_usedBitmap_of_le (by omega), get_usedBitmap_of_le (by omega)]
    rfl
  · have := hpos 11 (by decide) (by omega)
    have hM : MAXFILE * BSIZE = 71680 := rfl
    omega

/-- A run of `mkfs` that succeeds leaves inodes without holes if and only if there are at most 206
host files and the entries of the root directory do not fill its last block. -/
theorem image_full_iff (h : main files start = .ok () s) :
    (∀ i, i < sb.ninodes.toNat ∨ i < s.freeinode → Full s.img (dinode s.img sb i)) ↔
      files.length ≤ 206 ∧ (files.length + 2) % 32 ≠ 0 := by
  obtain ⟨hino, hbitmap, hseven⟩ := main_counts h
  have hlen := length_made_root files
  have hroot : sizes files ROOTINO = ((made files ROOTINO).length / BSIZE + 1) * BSIZE :=
    update_self ..
  have hone : ROOTINO = 1 := rfl
  rw [hlen] at hroot
  constructor
  · intro hfull
    have hle : files.length ≤ 206 := by
      by_contra hlt
      have hblock : IBLOCK 208 sb = sb.bmapstart.toNat := rfl
      have h208 := hfull 208 (.inr (by omega))
      rw [dinode, hblock, hbitmap] at h208
      exact not_full_bitmap ((by decide : 66 ≤ nmeta + 7).trans (hseven (by omega))) h208
    have hmade := (made_of_ok h hle).built
    have hrootlt : ROOTINO < s.freeinode := by omega
    have hf := hmade.image.file ROOTINO hrootlt
    refine ⟨hle, fun hmod => ?_⟩
    have haddr := (hfull ROOTINO (.inr hrootlt)).2 ((files.length + 2) / 32) (by
      rw [hmade.size ROOTINO hrootlt, hroot]
      simp only [BSIZE, DIRENT]
      omega)
    have hlt := (hf.used _ (by simp only [MAXFILE, NDIRECT, NINDIRECT]; omega)).1 haddr
    rw [hlen, blocks] at hlt
    simp only [BSIZE, DIRENT] at hlt
    omega
  · rintro ⟨hle, hmod⟩ i hi
    have hmade := (made_of_ok h hle).built
    by_cases hzero : i = 0 ∨ s.freeinode ≤ i
    · have hnum : sb.ninodes.toNat = 200 := rfl
      rw [hmade.zero i (by rw [ninum_sb]; omega) hzero]
      exact full_zero _
    · refine hmade.full (by omega) ?_
      by_cases hiroot : i = ROOTINO
      · rw [hiroot, hroot, hlen, blocks]
        simp only [BSIZE, DIRENT]
        omega
      · rw [sizes, update_of_ne hiroot]
        exact le_blocks _

/-- 30 empty files : the root directory has 1024 bytes and one block. -/
theorem mkfs_leaves_hole : ∃ s, main (emptyFiles 30) start = .ok () s ∧
    ¬ Full s.img (dinode s.img sb ROOTINO) := by
  have hlen := length_emptyFiles 30
  obtain ⟨s, h, hmade⟩ := exists_made (by omega) (fits_emptyFiles (by omega : 30 ≤ 206))
  have hroot : ROOTINO < s.freeinode := by
    rw [hmade.inode, hlen]
    decide
  refine ⟨s, h, fun hfull => ?_⟩
  have hmlen := length_made_root (emptyFiles 30)
  rw [hlen] at hmlen
  have hsize := hmade.built.size ROOTINO hroot
  rw [sizes, update_self, hmlen] at hsize
  have haddr := hfull.2 1 (by rw [hsize]; decide)
  have hlt := ((hmade.built.image.file ROOTINO hroot).used 1 (by decide)).1 haddr
  rw [hmlen] at hlt
  exact absurd hlt (by decide)

theorem image_full_iff_two : ∃ s, main (emptyFiles 2) start = .ok () s ∧
    ∀ i, i < sb.ninodes.toNat ∨ i < s.freeinode → Full s.img (dinode s.img sb i) := by
  obtain ⟨s, h, -⟩ := exists_made (by rw [length_emptyFiles]; omega)
    (fits_emptyFiles (by omega : 2 ≤ 206))
  exact ⟨s, h, (image_full_iff h).2 (by rw [length_emptyFiles]; decide)⟩

end Xv6.Mkfs
