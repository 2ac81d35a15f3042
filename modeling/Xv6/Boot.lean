import Xv6.Links
import Xv6.FileArray
import Xv6.Mkfs

/-!
# The first calls after boot

A disk whose inodes, blocks and directories are in order (`Formed`) boots into a state in which
the first process can make calls (`Formed.ready`) : the one reference is that of its current
directory, the root.

A small disk of this kind, with one empty file in its root directory, is where runs of later
modules start (`smallDisk_formed`). Its files depend on no run, so what the kernel reads of them
is computed.
-/

open Prog Layout SlotMap

namespace Xv6

/-! ## Booting from a disk -/

/-- The inodes on a disk. -/
def inodesOf (img : ℕ → Block) (i : ℕ) : Dinode :=
  if i < ninum (readsb img) then dinode img (readsb img) i else Dinode.zero

/-- The files on a disk. -/
def filesOf (img : ℕ → Block) (i : ℕ) : Node :=
  node img (inodesOf img i)

/-- A disk in order : the areas do not overlap, the data blocks in use are those of the files, every
file has a link, and the directories begin with their dots. -/
structure Formed (img : ℕ → Block) : Prop where
  geometry : Geometry (readsb img)
  owned : Owned (readsb img) (inodesOf img) img
  linked : ∀ i, (filesOf img i).type ≠ 0 → (filesOf img i).nlink ≠ 0
  dots : Dots (ninum (readsb img)) (filesOf img)
  root : (filesOf img ROOTINO).type = T_DIR

/-- The references after boot : the current directory of the first process. -/
def bootRefs : Multiset (Iptr × ℕ) :=
  {(0, ROOTINO)}

section

variable {img : ℕ → Block} {devices : Devices} {stack : ℕ → UInt8} {k : Iptr} {i : ℕ}

theorem boot_valid (k : Iptr) : ((bootState img devices stack).icache k).valid = false := by
  unfold bootState
  dsimp only
  split_ifs <;> rfl

/-- No inode is loaded after the boot. -/
theorem boot_not_loaded : ¬ Loaded (bootState img devices stack) k i := fun h =>
  Bool.false_ne_true ((boot_valid k).symm.trans h.2.1)

theorem boot_ref (h : 0 < ((bootState img devices stack).icache k).ref) : k = 0 := by
  by_contra hne
  have h0 : k.val ≠ 0 := fun h => hne (Fin.ext h)
  simp only [bootState, if_neg h0, Inode.unused] at h
  exact absurd h (lt_irrefl 0)

/-- The inodes are those of the image. -/
theorem cur_boot : cur (bootState img devices stack) = inodesOf img := by
  funext i
  unfold inodesOf
  split_ifs with hi
  · exact cur_of_not_loaded (s := bootState img devices stack) hi fun _ => boot_not_loaded
  · exact cur_of_le (s := bootState img devices stack) (not_lt.1 hi)

/-- The files are those of the image. -/
theorem view_boot : view (bootState img devices stack) = filesOf img := by
  funext i
  rw [view, cur_boot]
  rfl

namespace Formed

variable (h : Formed img)
include h

theorem root_lt : ROOTINO < ninum (readsb img) := by
  by_contra hge
  have htype := h.root
  rw [filesOf, inodesOf, if_neg hge, node_type] at htype
  exact absurd htype (by decide)

/-- The store is well formed after the boot. -/
theorem store : Store none (bootState img devices stack) where
  geometry := h.geometry
  super := rfl
  distinct := by
    refine ⟨fun k hk => ?_, fun k hk => ?_, fun k hk => ?_, fun k l hk hl _ => ?_⟩
    · rw [boot_ref hk]
      rfl
    · rw [boot_ref hk]
      exact le_rfl
    · rw [boot_ref hk]
      exact h.root_lt
    · rw [boot_ref hk, boot_ref hl]
  typed k i hk := absurd hk boot_not_loaded
  clean k i hk := absurd hk boot_not_loaded
  owned := by
    rw [cur_boot]
    exact h.owned

/-- The invariant of a call holds after the boot. -/
theorem inv : Inv bootRefs bootRefs ∅ (bootState img devices stack) where
  store := h.store
  le := le_rfl
  ref k := by
    rw [bootRefs, Multiset.map_singleton, Multiset.count_singleton]
    by_cases hk : k = 0
    · subst hk
      rfl
    · have h0 : k.val ≠ 0 := fun h => hk (Fin.ext h)
      rw [if_neg hk]
      simp only [bootState, if_neg h0]
      rfl
  inum q hq := by
    obtain rfl := Multiset.mem_singleton.1 hq
    rfl
  busy k := by
    refine iff_of_false ?_ (Finset.notMem_empty k)
    unfold bootState
    dsimp only
    split_ifs <;> exact Bool.false_ne_true
  locked k hk := absurd hk (Finset.notMem_empty k)
  anchored i _ htype hnlink := by
    rw [view_boot] at htype hnlink
    exact absurd hnlink (h.linked i htype)

/-- Every process is ready for a call after the boot. -/
theorem ready (p : Fin NPROC) : Ready p bootRefs (bootState img devices stack) where
  inv := h.inv
  dots := by
    rw [view_boot]
    exact h.dots
  root := h.root_lt
  cwd k hk := by
    have hcwd : (if p.val = 0 then some (0 : Iptr) else none) = some k := hk
    split_ifs at hcwd
    exact ⟨ROOTINO, Option.some.inj hcwd ▸ Multiset.mem_singleton_self _⟩

end Formed

theorem Ready.congr {p : Fin NPROC} {L : Multiset (Iptr × ℕ)} {s s' : FS} (h : Ready p L s)
    (hd : s'.disk = s.disk) (hsb : s'.sb = s.sb) (hc : s'.icache = s.icache)
    (hcwd : (s'.procs p).cwd = (s.procs p).cwd) : Ready p L s' where
  inv := h.inv.congr hd hsb hc
  dots := by
    rw [view_congr hd hsb hc, hsb]
    exact h.dots
  root := by
    rw [hsb]
    exact h.root
  cwd k hk := h.cwd k (hcwd ▸ hk)

end

/-! ## A small disk -/

/-- The root directory, in one block, and an empty file. -/
def smallInode (i : ℕ) : Dinode :=
  if i = 1 then
    { Dinode.zero with
      type := T_DIR
      nlink := 1
      size := 48
      addrs := fun j => if j.val = 0 then 34 else 0 }
  else if i = 2 then blankInode T_FILE
  else Dinode.zero

/-- The entries `.`, `..` and `f`. -/
def smallRoot : Block :=
  Bytes.write Dirent.codec (Bytes.write Dirent.codec (Bytes.write Dirent.codec zeroBlock
    (16 * 0) (newDirent dot 1)) (16 * 1) (newDirent dotdot 1)) (16 * 2) (newDirent (cstr [102]) 2)

/-- A disk of 74 blocks, 40 of them data blocks, with an empty file `f` in its root directory. -/
def smallDisk (b : ℕ) : Block :=
  if b = 1 then Bytes.write Superblock.codec zeroBlock 0 blankSb
  else if b = 32 then
    Bytes.write Dinode.codec (Bytes.write Dinode.codec zeroBlock (64 * 1) (smallInode 1))
      (64 * 2) (smallInode 2)
  else if b = 33 then Mkfs.usedBitmap 35
  else if b = 34 then smallRoot
  else zeroBlock

theorem readsb_smallDisk : readsb smallDisk = blankSb :=
  Bytes.read_write Superblock.codec zeroBlock blankSb (by decide)

theorem smallDisk_used {b : ℕ} (hb : b < 74) : Used smallDisk blankSb b ↔ b < 35 := by
  have hblk : smallDisk (BBLOCK b blankSb) = Mkfs.usedBitmap 35 := by
    have h33 : BBLOCK b blankSb = 33 := by
      show b / 4096 + 33 = 33
      omega
    rw [h33]
    rfl
  have hmod : b % BPB = b := Nat.mod_eq_of_lt (by show b < 4096; omega)
  rw [Used, hblk, hmod, ← Bool.not_eq_true, isClear_usedBitmap 35 (by show b < 4096; omega)]
  omega

theorem inodesOf_smallDisk : inodesOf smallDisk = smallInode := by
  funext i
  unfold inodesOf
  rw [readsb_smallDisk]
  by_cases hi : i < ninum blankSb
  · have hi8 : i < 8 := hi
    have hblk : smallDisk (IBLOCK i blankSb) =
        Bytes.write Dinode.codec (Bytes.write Dinode.codec zeroBlock (64 * 1) (smallInode 1))
          (64 * 2) (smallInode 2) := by
      have h32 : IBLOCK i blankSb = 32 := by
        show i / 8 + 32 = 32
        omega
      rw [h32]
      rfl
    rw [if_pos hi, dinode, hblk, show i % IPB = i from Nat.mod_eq_of_lt hi8]
    refine (Bytes.read_write_index Dinode.codec _ (smallInode 2) (by decide)).trans ?_
    rw [show Bytes.read Dinode.codec (Bytes.write Dinode.codec zeroBlock (64 * 1) (smallInode 1))
        (Dinode.codec.size * i) = if i = 1 then smallInode 1 else Dinode.zero from
      (Bytes.read_write_index Dinode.codec zeroBlock (smallInode 1) (by decide)).trans
        (by rw [read_dinode_zeroBlock])]
    unfold smallInode
    by_cases h1 : i = 1
    · simp [h1]
    · simp [h1]
  · have hi8 : 8 ≤ i := not_lt.1 hi
    rw [if_neg hi, smallInode, if_neg (by omega), if_neg (by omega)]

theorem smallInode_type (i : ℕ) : (smallInode i).type ≠ 0 ↔ i = 1 ∨ i = 2 := by
  unfold smallInode
  split_ifs with h1 h2
  · exact iff_of_true (show T_DIR ≠ 0 by decide) (.inl h1)
  · exact iff_of_true (show T_FILE ≠ 0 by decide) (.inr h2)
  · exact iff_of_false (fun h => h rfl) (by omega)

theorem smallInode_addr (i j : ℕ) :
    (smallInode i).addr j = if i = 1 ∧ j = 0 then 34 else 0 := by
  unfold Dinode.addr smallInode
  by_cases h1 : i = 1
  · by_cases h0 : j = 0
    · subst h1 h0
      rfl
    · simp [h1, h0]
  · have hno : ¬ (i = 1 ∧ j = 0) := fun h => h1 h.1
    rw [if_neg h1, if_neg hno]
    split_ifs <;> rfl

theorem smallInode_slotAddr (disk : ℕ → Block) (i j : ℕ) :
    slotAddr disk (smallInode i) j = if i = 1 ∧ j = 0 then 34 else 0 := by
  have hind : (smallInode i).addr NDIRECT = 0 := by
    rw [smallInode_addr]
    exact if_neg fun h => absurd h.2 (by decide)
  unfold slotAddr
  rw [hind, if_pos rfl, smallInode_addr]
  split_ifs with hj h
  · rfl
  · rfl
  · rename_i h
    exact absurd (h.2 ▸ Nat.succ_pos _) hj
  · rfl

/-- Each block of the small disk has one owner. -/
theorem smallDisk_owned : Owned blankSb smallInode smallDisk where
  exact := by
    refine ⟨?_, ?_, ?_⟩
    · rintro b ⟨i, j⟩ ⟨-, -, -, hb, hs⟩
      rw [smallInode_slotAddr] at hs
      split_ifs at hs
      · subst hs
        exact ⟨⟨by decide, by decide⟩, (smallDisk_used (by decide)).2 (by decide)⟩
      · exact absurd hs.symm hb
    · rintro b ⟨i, j⟩ ⟨i', j'⟩ ⟨-, -, -, hb, hs⟩ ⟨-, -, -, -, hs'⟩
      rw [smallInode_slotAddr] at hs hs'
      split_ifs at hs hs' with h h'
      · exact Prod.ext (h.1.trans h'.1.symm) (h.2.trans h'.2.symm)
      · exact absurd hs'.symm hb
      · exact absurd hs.symm hb
      · exact absurd hs.symm hb
    · intro b hb hused
      have hlt : b < 35 := (smallDisk_used hb.2).1 hused
      have hge : 34 ≤ b := hb.1
      obtain rfl : b = 34 := by omega
      exact ⟨(1, 0), by decide, by decide, by decide, by decide, smallInode_slotAddr _ 1 0⟩
  metadata b hb hn := by
    refine (smallDisk_used hb).2 ?_
    by_contra h35
    exact hn ⟨by show 34 ≤ b; omega, hb⟩
  full i _ htype _ := by
    rcases (smallInode_type i).1 htype with rfl | rfl
    · refine ⟨by decide, fun n hn => ?_⟩
      have hn0 : n * 512 < 48 := hn
      obtain rfl : n = 0 := by omega
      rw [fileAddr, smallInode_slotAddr]
      decide
    · exact ⟨by decide, fun n hn => absurd hn (Nat.not_lt_zero _)⟩

theorem filesOf_smallDisk (i : ℕ) : filesOf smallDisk i = node smallDisk (smallInode i) := by
  rw [filesOf, inodesOf_smallDisk]

theorem smallDisk_type (i : ℕ) : (filesOf smallDisk i).type = (smallInode i).type := by
  rw [filesOf_smallDisk, node_type]

/-- The names in the root directory. -/
def smallName (e : ℕ) : Name :=
  nameOf (if e = 0 then dot else if e = 1 then dotdot else cstr [102])

theorem smallDisk_slot {e : ℕ} (he : e < 3) :
    (filesOf smallDisk 1).slot e = some (smallName e, if e = 2 then 2 else 1) := by
  have hslot : ∀ e < 3, (node smallDisk (smallInode 1)).slot e =
      some (smallName e, if e = 2 then 2 else 1) := by
    decide +kernel
  rw [filesOf_smallDisk]
  exact hslot e he

theorem smallDisk_nent : (filesOf smallDisk 1).size = 48 ∧ (filesOf smallDisk 1).nent = 3 := by
  rw [filesOf_smallDisk]
  exact ⟨rfl, rfl⟩

theorem smallDisk_dir {i : ℕ} (h : (filesOf smallDisk i).type = T_DIR) : i = 1 := by
  rw [smallDisk_type] at h
  rcases (smallInode_type i).1 (by rw [h]; decide) with rfl | rfl
  · rfl
  · exact absurd h (by decide)

/-- The small disk is well formed. -/
theorem smallDisk_formed : Formed smallDisk where
  geometry := by
    rw [readsb_smallDisk]
    exact blank_geometry
  owned := by
    rw [readsb_smallDisk, inodesOf_smallDisk]
    exact smallDisk_owned
  linked i htype := by
    rw [smallDisk_type, smallInode_type] at htype
    rw [filesOf_smallDisk]
    rcases htype with rfl | rfl <;> decide
  dots i htype := by
    obtain rfl := smallDisk_dir htype
    rw [readsb_smallDisk]
    have hnent := smallDisk_nent.2
    refine ⟨⟨by rw [smallDisk_nent.1]; decide, fun e he name j hslot => ?_⟩, by rw [hnent]; decide,
      smallDisk_slot (by decide), ⟨1, smallDisk_slot (by decide)⟩, ?_⟩
    · rw [hnent] at he
      rw [smallDisk_slot he, Option.some.injEq, Prod.mk.injEq] at hslot
      rw [← hslot.2]
      split_ifs <;> decide
    · intro e he e' he' name j j' hslot hslot'
      rw [hnent] at he he'
      rw [smallDisk_slot he, Option.some.injEq, Prod.mk.injEq] at hslot
      rw [smallDisk_slot he', Option.some.injEq, Prod.mk.injEq] at hslot'
      have hnames : ∀ e < 3, ∀ e' < 3, smallName e = smallName e' → e = e' := by decide
      exact hnames e he e' he' (hslot.1.trans hslot'.1.symm)
  root := smallDisk_type 1

/-- The kernel after it has booted from the small disk. -/
def small : FS :=
  bootState smallDisk ⟨fun _ => none, fun _ => none, fun _ _ => none, fun _ _ _ => none⟩
    fun _ => 0

/-- The first process is ready on the small disk. -/
theorem small_ready : Ready 0 bootRefs small :=
  smallDisk_formed.ready 0

theorem view_small (i : ℕ) : view small i = node smallDisk (smallInode i) := by
  rw [small, view_boot, filesOf_smallDisk]

/-- No name on the small disk dangles. -/
theorem small_noDangling : NoDangling (view small) := by
  rw [small, view_boot]
  intro i htype e he name j hslot
  obtain rfl := smallDisk_dir htype
  rw [smallDisk_nent.2] at he
  rw [smallDisk_slot he, Option.some.injEq, Prod.mk.injEq] at hslot
  rw [← hslot.2, smallDisk_type, smallInode_type]
  split_ifs
  · exact .inr rfl
  · exact .inl rfl

end Xv6
