import Xv6.MkfsImage

/-!
# What `mkfs` makes of the host files

Between two operations of `mkfs` the inodes of the image are those of the files (`Built`) : inode
`i` has the blocks that hold `c i` and the size `z i`, and the inodes not yet allocated are zero.
`iappend` adds its bytes to the file, `ialloc` makes an empty one, and so `main` leaves the host
files and a root directory that names them (`main_spec`), with its size rounded up past its last
block.

Nothing in `mkfs` keeps the number of files below the number of inodes. Up to 206 files the
inodes are in the inode blocks. Inode 208 is written to the bitmap block, which `balloc` then
writes over.
-/

open Function Prog Layout List

namespace Xv6.Mkfs

theorem ninum_sb : ninum sb = 208 := by decide

variable {c : ℕ → List UInt8} {z : ℕ → ℕ} {s : State} {i j n b : ℕ} {d : Dinode}
  {E : Fail → State → Prop}

theorem IBLOCK_sb (i : ℕ) : IBLOCK i sb = i / 8 + 32 :=
  rfl

theorem IBLOCK_lt (hi : i < ninum sb) : IBLOCK i sb < nmeta - 1 := by
  rw [ninum_sb] at hi
  rw [IBLOCK_sb]
  show i / 8 + 32 < 58
  omega

theorem one_ne_IBLOCK (i : ℕ) : 1 ≠ IBLOCK i sb := by
  rw [IBLOCK_sb]
  omega

/-- Inode `i` has the blocks of the file `c i` and the size `z i`. -/
structure Built (c : ℕ → List UInt8) (z : ℕ → ℕ) (s : State) : Prop where
  image : Image (dinode s.img sb) c (fun i => blocks (c i).length) s
  block_le : s.freeblock ≤ FSSIZE
  inode_le : s.freeinode ≤ ninum sb
  inode_pos : 0 < s.freeinode
  size : ∀ i < s.freeinode, (dinode s.img sb i).size.toNat = z i
  type : ∀ i < s.freeinode, 0 < i →
    (dinode s.img sb i).type = if i = ROOTINO then T_DIR else T_FILE
  zero : ∀ i < ninum sb, i = 0 ∨ s.freeinode ≤ i → dinode s.img sb i = Dinode.zero
  super : readsb s.img = sb

theorem Built.len (h : Built c z s) : s.len = FSSIZE :=
  h.image.len

/-! ## Inodes -/

theorem wp_winode {Q : Unit → State → Prop} (hlen : s.len = FSSIZE) (hi : i < ninum sb) :
    wp (winode i d) Q E s ↔
      Q () { s with img := update s.img (IBLOCK i sb) (putDinode s.img sb i d) } := by
  have hlt : IBLOCK i sb < s.len := (IBLOCK_lt hi).trans_le (hlen ▸ by decide)
  unfold winode rsect
  simp only [wp_bind, wp_get, if_pos hlt, wp_pure, wp_wsect hlt]
  rfl

theorem wp_rinode {Q : Dinode → State → Prop} (hlen : s.len = FSSIZE) (hi : i < ninum sb) :
    wp (rinode i) Q E s ↔ Q (dinode s.img sb i) s := by
  have hlt : IBLOCK i sb < s.len := (IBLOCK_lt hi).trans_le (hlen ▸ by decide)
  unfold rinode rsect
  simp only [wp_bind, wp_get, if_pos hlt, wp_pure]
  rfl

/-- The inode of a file is written back with its new size. -/
theorem Built.winode (h : Built c z s) (hi : i < s.freeinode) (hi0 : 0 < i)
    {c' : ℕ → List UInt8} {s1 : State} {k : ℕ}
    (himg : Image (update (dinode s.img sb) i d) c' (fun i => blocks (c' i).length) s1)
    (hkept : Kept k s s1) (hb : s1.freeblock ≤ FSSIZE) (hd : SameMeta (dinode s.img sb i) d)
    (hn : n < 2 ^ 32) :
    Built c' (update z i n)
      { s1 with
        img := update s1.img (IBLOCK i sb)
          (putDinode s1.img sb i { d with size := UInt32.ofNat n }) } := by
  have hiN : i < ninum sb := hi.trans_le h.inode_le
  have hdin : ∀ j < ninum sb, dinode (update s1.img (IBLOCK i sb)
      (putDinode s1.img sb i { d with size := UInt32.ofNat n })) sb j =
        if j = i then { d with size := UInt32.ofNat n } else dinode s.img sb j := fun j hj => by
    rw [dinode_put, dinode_congr (hkept.low _ ((IBLOCK_lt hj).trans (by decide)))]
  have hino : s1.freeinode = s.freeinode := hkept.inode
  have hold : ∀ j < s1.freeinode, j < ninum sb := fun j hj => (hino ▸ hj).trans_le h.inode_le
  refine ⟨himg.congr rfl rfl (fun b hb => update_of_ne ?_ _ _) fun j hj => .inl ?_, hb,
    hino ▸ h.inode_le, hino ▸ h.inode_pos, fun j hj => ?_, fun j hj hj0 => ?_,
    fun j hjN hj => ?_, ?_⟩
  · have := IBLOCK_lt hiN
    omega
  · refine ⟨hj, ?_, rfl, rfl⟩
    show (dinode (update s1.img (IBLOCK i sb) _) sb j).addrs = _
    rw [hdin j (hold j hj), update_apply]
    split_ifs <;> rfl
  · show (dinode (update s1.img (IBLOCK i sb) _) sb j).size.toNat = _
    rw [hdin j (hold j hj), update_apply]
    split_ifs with hji
    · exact UInt32.toNat_ofNat_of_lt' hn
    · exact h.size j (hino ▸ hj)
  · show (dinode (update s1.img (IBLOCK i sb) _) sb j).type = _
    rw [hdin j (hold j hj)]
    split_ifs with hji hroot hroot
    · rw [hd]
      exact (h.type i hi hi0).trans (if_pos (hji ▸ hroot))
    · rw [hd]
      exact (h.type i hi hi0).trans (if_neg (hji ▸ hroot))
    · exact (h.type j (hino ▸ hj) hj0).trans (if_pos hroot)
    · exact (h.type j (hino ▸ hj) hj0).trans (if_neg hroot)
  · show dinode (update s1.img (IBLOCK i sb) _) sb j = _
    have hj' : j = 0 ∨ s1.freeinode ≤ j := hj
    rw [hdin j hjN, if_neg (by omega)]
    exact h.zero j hjN (by omega)
  · show readsb (update s1.img (IBLOCK i sb) _) = sb
    rw [readsb_congr (update_of_ne (one_ne_IBLOCK i) _ _),
      readsb_congr (hkept.low 1 (by decide)), h.super]

theorem Built.resize (h : Built c z s) (hi : i < s.freeinode) (hi0 : 0 < i) (hn : n < 2 ^ 32) :
    Built c (update z i n)
      { s with
        img := update s.img (IBLOCK i sb)
          (putDinode s.img sb i { dinode s.img sb i with size := UInt32.ofNat n }) } := by
  refine h.winode hi hi0 ?_ (Kept.refl s) h.block_le rfl hn
  rw [update_eq_self]
  exact h.image

theorem turns_le (off : ℕ) (hn : n ≤ BSIZE) : turns off n ≤ 2 := by
  unfold turns
  simp only [BSIZE] at *
  split_ifs <;> omega

/-- The sizes of the files. -/
abbrev lens (c : ℕ → List UInt8) : ℕ → ℕ :=
  fun i => (c i).length

theorem lens_update (c : ℕ → List UInt8) (i : ℕ) (l : List UInt8) :
    lens (update c i l) = update (lens c) i l.length := by
  funext j
  simp only [lens, update_apply]
  split_ifs <;> rfl

/-- `iappend` of at most a block takes at most four blocks. -/
theorem iappend_spec (h : Built c (lens c) s) (hi : i < s.freeinode) (hi0 : 0 < i)
    {p : List UInt8} (hp : p.length ≤ BSIZE) :
    wp (iappend i p) (fun _ s' => Built (update c i (c i ++ p))
        (lens (update c i (c i ++ p))) s' ∧ s'.freeinode = s.freeinode ∧
        s.freeblock ≤ s'.freeblock ∧ s'.freeblock ≤ s.freeblock + 4)
      (fun _ _ => FSSIZE < s.freeblock + 4 ∨ MAXFILE * BSIZE < (c i).length + p.length) s := by
  have hturns := turns_le (c i).length hp
  have hiN : i < ninum sb := hi.trans_le h.inode_le
  unfold iappend
  rw [wp_bind, wp_rinode h.len hiN, h.size i hi]
  refine wp_seq (wp_mono' (iappendLoop_spec p.length h.image hi rfl h.block_le le_rfl)
    (fun _ _ hr => hr) fun _ _ he => by omega) ?_
  rintro ⟨d, off⟩ s1 ⟨himg, hoff, hd, hb, hk⟩
  dsimp only at himg hoff hd ⊢
  subst hoff
  rw [wp_winode himg.len hiN, lens_update]
  have hm : update (fun i => blocks (c i).length) i (blocks (c i ++ p).length) =
      fun j => blocks (update c i (c i ++ p) j).length := by
    funext j
    simp only [update_apply]
    split_ifs <;> rfl
  rw [hm] at himg
  refine ⟨h.winode hi hi0 himg hk hb hd ?_, hk.inode, hk.le, ?_⟩
  · have hf := himg.file i (hk.inode ▸ hi)
    have hle := hf.le.trans (Nat.mul_le_mul_right _ hf.max)
    rw [update_self] at hle
    exact hle.trans_lt (by decide)
  · have := hk.ge
    show s1.freeblock ≤ s.freeblock + 4
    omega

/-- `ialloc` makes an empty file. -/
theorem ialloc_spec (h : Built c (lens c) s) (hi : s.freeinode < ninum sb) {type : Int16}
    (htype : type = if s.freeinode = ROOTINO then T_DIR else T_FILE) :
    wp (ialloc type) (fun r s' => r = s.freeinode ∧ Built (update c r [])
      (lens (update c r [])) s' ∧ s'.freeinode = s.freeinode + 1 ∧
      s'.freeblock = s.freeblock) E s := by
  have hlen : ({ s with freeinode := s.freeinode + 1 } : State).len = FSSIZE := h.len
  unfold ialloc
  rw [wp_bind, wp_get, wp_bind, wp_modify, wp_bind, wp_winode hlen hi, wp_pure]
  have hdin : ∀ j, dinode (update s.img (IBLOCK s.freeinode sb) (putDinode s.img sb
      s.freeinode { Dinode.zero with type := type, nlink := 1 })) sb j =
        if j = s.freeinode then { Dinode.zero with type := type, nlink := 1 }
        else dinode s.img sb j := fun j => dinode_put ..
  refine ⟨rfl, ⟨h.image.congr rfl rfl (fun b hb => update_of_ne ?_ _ _) fun j hj => ?_,
    h.block_le, hi, Nat.succ_pos _, fun j hj => ?_, fun j hj hj0 => ?_, fun j hjN hj => ?_,
    (readsb_congr (update_of_ne (one_ne_IBLOCK _) _ _)).trans h.super⟩, rfl, rfl⟩
  · have := IBLOCK_lt hi
    omega
  · have hj' : j < s.freeinode + 1 := hj
    show j < s.freeinode ∧
      (dinode (update s.img (IBLOCK s.freeinode sb) _) sb j).addrs = _ ∧ _ ∨
        (dinode (update s.img (IBLOCK s.freeinode sb) _) sb j).addrs = _ ∧ _
    rw [hdin]
    by_cases hjs : j = s.freeinode
    · right
      rw [if_pos hjs, hjs, update_self]
      exact ⟨rfl, rfl, by decide⟩
    · left
      rw [if_neg hjs, update_of_ne hjs]
      exact ⟨by omega, rfl, rfl, rfl⟩
  · have hj' : j < s.freeinode + 1 := hj
    show (dinode (update s.img (IBLOCK s.freeinode sb) _) sb j).size.toNat = _
    rw [hdin, lens_update, update_apply]
    split_ifs with hjs
    · rfl
    · exact h.size j (by omega)
  · have hj' : j < s.freeinode + 1 := hj
    show (dinode (update s.img (IBLOCK s.freeinode sb) _) sb j).type = _
    rw [hdin]
    by_cases hjs : j = s.freeinode
    · rw [if_pos hjs, hjs]
      exact htype
    · rw [if_neg hjs]
      exact h.type j (by omega) hj0
  · have hj' : j = 0 ∨ s.freeinode + 1 ≤ j := hj
    have := h.inode_pos
    show dinode (update s.img (IBLOCK s.freeinode sb) _) sb j = _
    rw [hdin, if_neg (by omega)]
    exact h.zero j hjN (by omega)

/-! ## Host files -/

theorem flatten_chunks (fuel : ℕ) : ∀ {l : List UInt8}, l.length ≤ fuel →
    (chunks fuel l).flatten = l := by
  induction fuel with
  | zero =>
    intro l hl
    exact (eq_nil_of_length_eq_zero (Nat.le_zero.1 hl)).symm
  | succ fuel ih =>
    intro l hl
    unfold chunks
    split_ifs with h0
    · exact h0.symm
    · have hpos : 0 < l.length := length_pos_iff.2 h0
      rw [flatten_cons, ih, take_append_drop]
      rw [length_drop]
      simp only [BSIZE]
      omega

theorem length_of_mem_chunks (fuel : ℕ) : ∀ {l p : List UInt8}, p ∈ chunks fuel l →
    p.length ≤ BSIZE := by
  induction fuel with
  | zero =>
    intro l p hp
    exact absurd hp not_mem_nil
  | succ fuel ih =>
    intro l p hp
    unfold chunks at hp
    split_ifs at hp with h0
    · exact absurd hp not_mem_nil
    · rcases mem_cons.1 hp with rfl | hp
      · exact length_take_le _ _
      · exact ih hp

theorem appendAll_spec (l : List (List UInt8)) : ∀ {c : ℕ → List UInt8} {s : State},
    Built c (lens c) s → i < s.freeinode → 0 < i → (∀ p ∈ l, p.length ≤ BSIZE) →
    wp (forM l (iappend i)) (fun _ s' => Built (update c i (c i ++ l.flatten))
        (lens (update c i (c i ++ l.flatten))) s' ∧ s'.freeinode = s.freeinode ∧
        s.freeblock ≤ s'.freeblock ∧ s'.freeblock ≤ s.freeblock + 4 * l.length)
      (fun _ _ => FSSIZE < s.freeblock + 4 * l.length ∨
        MAXFILE * BSIZE < (c i).length + l.flatten.length) s := by
  induction l with
  | nil =>
    intro c s h hi hi0 hl
    rw [flatten_nil, append_nil, update_eq_self]
    exact ⟨h, rfl, le_rfl, le_rfl⟩
  | cons p l ih =>
    intro c s h hi hi0 hl
    rw [forM_cons]
    refine wp_seq (wp_mono' (iappend_spec h hi hi0 (hl p mem_cons_self)) (fun _ _ hr => hr)
      fun _ _ he => ?_) ?_
    · rw [length_cons, flatten_cons, length_append]
      omega
    · rintro _ s1 ⟨h1, hino, hle, hge⟩
      refine wp_mono' (ih h1 (hino ▸ hi) hi0 fun q hq => hl q (mem_cons_of_mem _ hq))
        (fun _ s2 hr => ?_) fun _ _ he => ?_
      · rw [update_self, update_idem, append_assoc] at hr
        obtain ⟨h2, hino2, hle2, hge2⟩ := hr
        rw [flatten_cons, length_cons]
        exact ⟨h2, hino2.trans hino, hle.trans hle2, by omega⟩
      · rw [update_self, length_append] at he
        rw [length_cons, flatten_cons, length_append]
        omega

/-- The name that a host file gets in the root directory. -/
def hostName (file : List UInt8 × List UInt8) : List UInt8 :=
  if file.1.head? = some 95 then file.1.tail else file.1

theorem length_direntBytes (inum : ℕ) (name : ℕ → UInt8) :
    (direntBytes inum name).length = DIRENT := by
  rw [direntBytes, length_map, length_range]

/-- The files once inode `k` has the content of `file` and its entry is in the root directory. -/
def added (c : ℕ → List UInt8) (k : ℕ) (file : List UInt8 × List UInt8) : ℕ → List UInt8 :=
  update (update c ROOTINO
    (c ROOTINO ++ direntBytes k (cstr (hostName file)))) k file.2

/-- A bound on the blocks that a host file takes. -/
def cost (file : List UInt8 × List UInt8) : ℕ :=
  4 + 4 * (chunks file.2.length file.2).length

/-- `mkfs` adds a file. -/
theorem addFile_spec (h : Built c (lens c) s) (hroot : ROOTINO < s.freeinode)
    (hi : s.freeinode < ninum sb) (file : List UInt8 × List UInt8) :
    wp (addFile ROOTINO file) (fun _ s' => Built (added c s.freeinode file)
        (lens (added c s.freeinode file)) s' ∧ s'.freeinode = s.freeinode + 1 ∧
        s.freeblock ≤ s'.freeblock ∧ s'.freeblock ≤ s.freeblock + cost file ∧ slash ∉ file.1)
      (fun _ _ => slash ∈ file.1 ∨ FSSIZE < s.freeblock + cost file ∨
        MAXFILE * BSIZE < (c ROOTINO).length + DIRENT ∨ MAXFILE * BSIZE < file.2.length) s := by
  have hne : ROOTINO ≠ s.freeinode := hroot.ne
  unfold addFile
  by_cases hslash : slash ∈ file.1
  · rw [if_pos hslash, wp_throw]
    exact .inl hslash
  · rw [if_neg hslash]
    show wp (do
      let inum ← ialloc T_FILE
      iappend ROOTINO (direntBytes inum (cstr (hostName file)))
      forM (chunks file.2.length file.2) (iappend inum)) _ _ s
    refine wp_seq (ialloc_spec h hi (if_neg hne.symm).symm) ?_
    rintro r s1 ⟨rfl, h1, hino1, hfree1⟩
    have hroot1 : ROOTINO < s1.freeinode := by omega
    refine wp_seq (wp_mono' (iappend_spec h1 hroot1 (by decide)
      (by rw [length_direntBytes]; decide)) (fun _ _ hr => hr) fun _ _ he => ?_) ?_
    · rw [update_of_ne hne, length_direntBytes] at he
      unfold cost
      omega
    · rintro _ s2 ⟨h2, hino2, hle2, hge2⟩
      rw [update_of_ne hne, update_comm hne.symm] at h2
      refine wp_mono' (appendAll_spec _ h2 (by omega) (by omega : 0 < s.freeinode)
        fun p hp => length_of_mem_chunks _ hp) (fun _ s3 hr => ?_) fun _ _ he => ?_
      · rw [update_self, nil_append, flatten_chunks _ le_rfl,
          update_idem] at hr
        obtain ⟨h3, hino3, hle3, hge3⟩ := hr
        exact ⟨h3, by omega, by omega, by unfold cost; omega, hslash⟩
      · rw [update_self, flatten_chunks _ le_rfl, length_nil] at he
        unfold cost
        omega

/-- The files once the host files have got the inodes from `k` on. -/
def grow (c : ℕ → List UInt8) (k : ℕ) : List (List UInt8 × List UInt8) → ℕ → List UInt8
  | [] => c
  | file :: files => grow (added c k file) (k + 1) files

theorem length_added_root (hk : ROOTINO < n) (file : List UInt8 × List UInt8) :
    (added c n file ROOTINO).length = (c ROOTINO).length + DIRENT := by
  rw [added, update_of_ne hk.ne, update_self, length_append,
    length_direntBytes]

/-- It adds them in order. -/
theorem addFiles_spec (files : List (List UInt8 × List UInt8)) :
    ∀ {c : ℕ → List UInt8} {s : State}, Built c (lens c) s → ROOTINO < s.freeinode →
    s.freeinode + files.length ≤ ninum sb →
    wp (forM files (addFile ROOTINO)) (fun _ s' => Built (grow c s.freeinode files)
        (lens (grow c s.freeinode files)) s' ∧ s'.freeinode = s.freeinode + files.length ∧
        s.freeblock ≤ s'.freeblock ∧ s'.freeblock ≤ s.freeblock + (files.map cost).sum ∧
        ∀ file ∈ files, slash ∉ file.1)
      (fun _ _ => (∃ file ∈ files, slash ∈ file.1 ∨ MAXFILE * BSIZE < file.2.length) ∨
        FSSIZE < s.freeblock + (files.map cost).sum ∨
        MAXFILE * BSIZE < (c ROOTINO).length + DIRENT * files.length) s := by
  induction files with
  | nil =>
    intro c s h hroot hle
    exact ⟨h, rfl, le_rfl, le_rfl, fun _ hf => absurd hf not_mem_nil⟩
  | cons file files ih =>
    intro c s h hroot hle
    rw [length_cons] at hle
    rw [forM_cons]
    refine wp_seq (wp_mono' (addFile_spec h hroot (by omega) file) (fun _ _ hr => hr)
      fun _ _ he => ?_) ?_
    · rw [map_cons, sum_cons, length_cons]
      rcases he with he | he | he | he
      · exact .inl ⟨file, mem_cons_self, .inl he⟩
      · exact .inr (.inl (by omega))
      · exact .inr (.inr (by simp only [DIRENT] at *; omega))
      · exact .inl ⟨file, mem_cons_self, .inr he⟩
    · rintro _ s1 ⟨h1, hino, hle1, hge1, hslash⟩
      refine wp_mono' (ih h1 (by omega) (by omega)) (fun _ s2 hr => ?_) fun _ _ he => ?_
      · rw [hino] at hr
        obtain ⟨h2, hino2, hle2, hge2, hslashes⟩ := hr
        rw [map_cons, sum_cons, length_cons]
        exact ⟨h2, by omega, by omega, by omega, forall_mem_cons.2 ⟨hslash, hslashes⟩⟩
      · rw [length_added_root hroot] at he
        rw [map_cons, sum_cons, length_cons]
        rcases he with ⟨f, hf, he⟩ | he | he
        · exact .inl ⟨f, mem_cons_of_mem _ hf, he⟩
        · exact .inr (.inl (by omega))
        · exact .inr (.inr (by simp only [DIRENT] at *; omega))

/-! ## `main` -/

theorem format_spec {l : List ℕ} (hl : l = List.range n) :
    wp (forM l fun i => wsect i zeroBlock) (fun _ s' => s' = { start with len := n }) E start := by
  subst hl
  refine wp_forM_range (fun i => wsect i zeroBlock) n (fun i s => s = { start with len := i })
    rfl fun i _ s hs => ?_
  subst hs
  unfold wsect
  rw [wp_modify, setBlock_eq]
  have himg : update start.img i zeroBlock = start.img := update_eq_self i _
  rw [himg, Nat.max_eq_right (Nat.le_succ i)]

/-- The root directory with its first two entries. -/
def base : ℕ → List UInt8 :=
  update (fun _ => []) ROOTINO (direntBytes ROOTINO dot ++ direntBytes ROOTINO dotdot)

theorem image_start : Image (fun _ => Dinode.zero) (fun _ => []) (fun _ => 0)
    { start with len := FSSIZE, freeinode := 0 } :=
  ⟨rfl, le_rfl, by decide, fun _ _ => rfl, fun i hi => absurd hi (Nat.not_lt_zero i),
    fun i hi => absurd hi (Nat.not_lt_zero i), fun i hi => absurd hi (Nat.not_lt_zero i)⟩

theorem readsb_write (img : ℕ → Block) :
    readsb (update img 1 (Bytes.write Superblock.codec zeroBlock 0 sb)) = sb := by
  rw [readsb, update_self]
  exact Bytes.read_write Superblock.codec zeroBlock sb (by decide)

theorem built_start : Built (fun _ => []) (lens fun _ => [])
    { start with
      len := FSSIZE
      img := update start.img 1 (Bytes.write Superblock.codec zeroBlock 0 sb) } := by
  have hdin : ∀ i, dinode (update start.img 1
      (Bytes.write Superblock.codec zeroBlock 0 sb)) sb i = Dinode.zero := fun i => by
    rw [dinode, update_of_ne (one_ne_IBLOCK i).symm]
    exact read_dinode_zeroBlock _
  refine ⟨image_start.congr rfl rfl (fun b hb => update_of_ne ?_ _ _)
    fun k hk => .inr ⟨by rw [hdin k], rfl, rfl⟩, by decide, by decide, by decide,
    fun i hi => by rw [hdin i]; rfl, fun i hi hi0 => absurd hi (Nat.not_lt.2 hi0),
    fun i _ _ => hdin i, readsb_write _⟩
  have : 1 < nmeta := by decide
  omega

/-- What `main` does before it comes to the host files. The program is a variable, or else Lean
would run its loop over the sectors. -/
theorem wp_main {files : List (List UInt8 × List UInt8)} {m : MkM Unit} (hm : m = main files)
    {Q : Unit → State → Prop} (h : ∀ s, Built base (lens base) s → s.freeinode = 2 →
      s.freeblock ≤ nmeta + 8 → wp (do
        forM files (addFile ROOTINO)
        let d ← rinode ROOTINO
        let off := (d.size.toNat / BSIZE + 1) * BSIZE
        winode ROOTINO { d with size := UInt32.ofNat off }
        balloc (← get).freeblock) Q E s) : wp m Q E start := by
  subst hm
  unfold main
  generalize hl : List.range FSSIZE = l
  refine wp_seq (format_spec hl.symm) ?_
  rintro _ s rfl
  rw [wp_bind, wp_wsect (by decide : 1 < ({ start with len := FSSIZE } : State).len)]
  refine wp_seq (ialloc_spec built_start (by decide) rfl) ?_
  rintro r s1 ⟨rfl, h1, hino1, hfree1⟩
  dsimp only [start] at h1 hino1 hfree1 ⊢
  split_ifs with hne
  · exact absurd rfl hne
  have hlen : ∀ name, (direntBytes ROOTINO name).length ≤ BSIZE := fun name => by
    rw [length_direntBytes]
    decide
  refine wp_seq (wp_mono' (iappend_spec h1 (by omega : ROOTINO < s1.freeinode) (by decide)
    (hlen dot)) (fun _ _ hr => hr) fun _ _ he => ?_) ?_
  · rw [update_self, length_direntBytes, length_nil] at he
    exact absurd he (by rw [hfree1]; decide)
  rintro _ s2 ⟨h2, hino2, hle2, hge2⟩
  refine wp_seq (wp_mono' (iappend_spec h2 (by omega : ROOTINO < s2.freeinode) (by decide)
    (hlen dotdot)) (fun _ _ hr => hr) fun _ _ he => ?_) ?_
  · rw [update_self, update_self, nil_append, length_direntBytes,
      length_direntBytes] at he
    have hb : ¬ FSSIZE < nmeta + 8 := by decide
    have hm : ¬ MAXFILE * BSIZE < DIRENT + DIRENT := by decide
    omega
  rintro _ s3 ⟨h3, hino3, hle3, hge3⟩
  rw [update_self, update_self, nil_append, update_idem,
    update_idem] at h3
  exact h s3 h3 (by omega) (by omega)

theorem Built.writeBitmap (h : Built c z s) (data : Block) :
    Built c z { s with img := update s.img sb.bmapstart.toNat data } := by
  have hdin : ∀ i < ninum sb, dinode (update s.img sb.bmapstart.toNat data) sb i =
      dinode s.img sb i := fun i hi =>
    dinode_congr (update_of_ne (IBLOCK_lt hi).ne _ _)
  have hold : ∀ i < s.freeinode, i < ninum sb := fun i hi => hi.trans_le h.inode_le
  refine ⟨h.image.congr rfl rfl (fun b hb => update_of_ne ?_ _ _)
    fun k hk => .inl ⟨hk, congrArg Dinode.addrs (hdin k (hold k hk)), rfl, rfl⟩, h.block_le,
    h.inode_le, h.inode_pos, fun i hi => ?_, fun i hi hi0 => ?_, fun i hiN hi => ?_,
    (readsb_congr (update_of_ne (by decide) _ _)).trans h.super⟩
  · have : sb.bmapstart.toNat < nmeta := by decide
    omega
  · exact (congrArg (fun d => d.size.toNat) (hdin i (hold i hi))).trans (h.size i hi)
  · exact (congrArg Dinode.type (hdin i (hold i hi))).trans (h.type i hi hi0)
  · exact (hdin i hiN).trans (h.zero i hiN hi)

/-- The files `mkfs` makes of the host files. -/
def made (files : List (List UInt8 × List UInt8)) : ℕ → List UInt8 :=
  grow base 2 files

/-- The sizes of the files, with that of the root directory rounded. -/
def sizes (files : List (List UInt8 × List UInt8)) : ℕ → ℕ :=
  update (lens (made files)) ROOTINO (((made files ROOTINO).length / BSIZE + 1) * BSIZE)

/-- What `mkfs` leaves. -/
structure Made (files : List (List UInt8 × List UInt8)) (s : State) : Prop where
  built : Built (made files) (sizes files) s
  inode : s.freeinode = files.length + 2
  bitmap : s.img sb.bmapstart.toNat = usedBitmap s.freeblock
  slashes : ∀ file ∈ files, slash ∉ file.1

/-- The host files have no slash in their names, their sizes are those of a file, and there are
blocks for all of them. -/
def Fits (files : List (List UInt8 × List UInt8)) : Prop :=
  (∀ file ∈ files, slash ∉ file.1 ∧ file.2.length ≤ MAXFILE * BSIZE) ∧
    nmeta + 8 + (files.map cost).sum ≤ FSSIZE

theorem length_grow_root (files : List (List UInt8 × List UInt8)) :
    ∀ {c : ℕ → List UInt8} {k : ℕ}, ROOTINO < k →
      (grow c k files ROOTINO).length = (c ROOTINO).length + DIRENT * files.length := by
  induction files with
  | nil => exact fun _ => rfl
  | cons file files ih =>
    intro c k hk
    rw [grow, ih (hk.trans (Nat.lt_succ_self k)), length_added_root hk, length_cons]
    simp only [DIRENT]
    omega

theorem length_base : (base ROOTINO).length = 2 * DIRENT := by
  rw [base, update_self, length_append, length_direntBytes, length_direntBytes]
  rfl

theorem length_made_root (files : List (List UInt8 × List UInt8)) :
    (made files ROOTINO).length = DIRENT * (files.length + 2) := by
  rw [made, length_grow_root files (by decide), length_base]
  simp only [DIRENT]
  omega

/-- `mkfs` on at most 206 host files. -/
theorem main_spec {files : List (List UInt8 × List UInt8)} {m : MkM Unit} (hm : m = main files)
    (hn : files.length ≤ 206) :
    wp m (fun _ => Made files) (fun _ _ => ¬ Fits files) start := by
  refine wp_main hm fun s h hino hfree => ?_
  have hlen := length_made_root files
  have hone : ROOTINO = 1 := rfl
  refine wp_seq (wp_mono' (addFiles_spec files h (by omega : ROOTINO < s.freeinode)
    (by rw [ninum_sb]; omega)) (fun _ _ hr => hr) fun _ _ he hfits => ?_) ?_
  · rcases he with ⟨file, hf, he⟩ | he | he
    · exact he.elim (hfits.1 file hf).1 (Nat.not_lt.2 (hfits.1 file hf).2)
    · have := hfits.2
      omega
    · rw [length_base, show MAXFILE * BSIZE = 71680 from rfl] at he
      simp only [DIRENT] at he
      omega
  · rintro _ s1 ⟨h1, hino1, hle1, hge1, hslashes⟩
    rw [hino, ← made] at h1
    have hroot : ROOTINO < s1.freeinode := by omega
    have hrootN : ROOTINO < ninum sb := by decide
    rw [wp_bind, wp_rinode h1.len hrootN, wp_bind, wp_winode h1.len hrootN, wp_bind, wp_get,
      h1.size ROOTINO hroot]
    have h2 := h1.resize hroot (by decide)
      (n := ((made files ROOTINO).length / BSIZE + 1) * BSIZE) (by
        rw [hlen]
        simp only [BSIZE, DIRENT]
        omega)
    unfold balloc
    rw [if_pos (h1.block_le.trans_lt (by decide)), wp_wsect (by rw [h2.len]; decide)]
    exact ⟨h2.writeBitmap _, hino1.trans (by omega), by dsimp only; rw [update_self],
      hslashes⟩

end Xv6.Mkfs
