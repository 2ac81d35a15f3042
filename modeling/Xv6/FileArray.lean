import Xv6.Content
import Xv6.Mkfs

/-!
# A file is an array of bytes

`readi` and `writei` of a regular file read and write the list of its bytes, `Node.data`,
and leave every other file. `writei` runs inside a transaction and logs every block it
changes, so it needs room in the log besides free blocks : a write that makes a file grow
by more blocks than the log has does not return, however many blocks are free.
-/

open Prog Layout Finset

namespace Xv6

section

variable {s : FS} {k : Iptr} {i : ℕ}

/-! ## Reading and writing the array -/

/-- A regular file is an array of bytes : `writei` replaces a range of it or appends, if there
are blocks and room in the log for it, and `readi` copies a range. -/
theorem file_is_array (h : Store none s) (hk : Loaded s k i) (htype : (view s i).type = T_FILE) :
    (∀ (src : ℕ → UInt8) (off n : UInt32), off.toNat ≤ (view s i).size →
      off.toNat + n.toNat ≤ MAXFILE * BSIZE → Enough s i off.toNat n.toNat →
      ∃ s', writei k src off n s = .ok (some n.toNat) s' ∧
        (view s' i).data = (view s i).data.take off.toNat ++ (List.range n.toNat).map src ++
          (view s i).data.drop (off.toNat + n.toNat) ∧
        ∀ l ≠ i, view s' l = view s l) ∧
    (∀ (src : ℕ → UInt8) (off n : UInt32),
      ¬ (off.toNat ≤ (view s i).size ∧ off.toNat + n.toNat ≤ MAXFILE * BSIZE) →
      writei k src off n s = .ok none s) ∧
    ∀ off n : UInt32, ∃ r, readi k off n s = .ok r s ∧
      (r = none ↔ (view s i).size < off.toNat ∨ 2 ^ 32 ≤ off.toNat + n.toNat) ∧
      ∀ bytes, r = some bytes → bytes = ((view s i).data.drop off.toNat).take n.toNat ∧
        bytes.length = min n.toNat ((view s i).size - off.toNat) := by
  have hdev : (view s i).type ≠ T_DEV := by
    rw [htype]
    decide
  refine ⟨fun src off n hoff hend hen => ?_, fun src off n hout => ?_, fun off n => ?_⟩
  · obtain ⟨r, s', hrun, hr⟩ := exists_ok_of_wp (wp_mono' (writei_spec h hk hdev src off n)
      (fun _ _ => id) fun _ _ hno => hno.2.2.not_and hen)
    rw [if_neg (by omega)] at hr
    obtain ⟨rfl, hs⟩ := hr
    exact ⟨s', hrun, hs.data hoff, hs.other⟩
  · obtain ⟨r, s', hrun, hr⟩ := exists_ok_of_wp (wp_mono' (writei_spec h hk hdev src off n)
      (fun _ _ => id) fun _ _ hno => hout ⟨hno.1, hno.2.1⟩)
    rw [if_pos (by omega)] at hr
    obtain ⟨rfl, rfl⟩ := hr
    exact hrun
  · obtain ⟨r, s', hrun, rfl, hr⟩ := exists_ok_of_wp (readi_spec h (.inl rfl) hk hdev off n)
    refine ⟨r, hrun, ?_, fun bytes hbytes => ?_⟩
    · rw [hr]
      split_ifs with hc
      · exact iff_of_true rfl hc
      · exact iff_of_false id hc
    · rw [hr] at hbytes
      split_ifs at hbytes
      obtain rfl := Option.some.inj hbytes
      refine ⟨rfl, ?_⟩
      rw [List.length_take, List.length_drop, Node.length_data]

end

/-! ## A disk with one file -/

theorem isClear_usedBitmap (n : ℕ) {b : ℕ} (hb : b < BPB) :
    isClear (Mkfs.usedBitmap n) b = true ↔ n ≤ b := by
  induction n with
  | zero => exact iff_of_true (by simp [isClear, Mkfs.usedBitmap, get_zeroBlock]) (Nat.zero_le b)
  | succ n ih =>
    have hstep : Mkfs.usedBitmap (n + 1) = setBit (Mkfs.usedBitmap n) n := by
      rw [Mkfs.usedBitmap, List.range_succ, List.foldl_append]
      rfl
    rw [hstep, isClear_setBit _ _ hb, ih]
    omega

theorem read_dinode_zeroBlock (off : ℕ) : Bytes.read Dinode.codec zeroBlock off = Dinode.zero := by
  have hzero : (fun j => Bytes.get zeroBlock (off + j)) = fun _ => 0 :=
    funext fun j => get_zeroBlock _
  rw [Bytes.read, hzero]
  rfl

/-- A cache with one slot in use. -/
theorem distinct_single {sb : Superblock} {c : Iptr → Inode} (h : ∀ {k}, 0 < (c k).ref → k = 0)
    (h0 : (c 0).dev = ROOTDEV ∧ 1 ≤ (c 0).inum ∧ (c 0).inum < ninum sb) : Distinct sb c :=
  ⟨fun _ hk => h hk ▸ h0.1, fun _ hk => h hk ▸ h0.2.1, fun _ hk => h hk ▸ h0.2.2,
    fun _ _ hk hl _ => (h hk).trans (h hl).symm⟩

/-- An empty file of some type. -/
def blankInode (type : Int16) : Dinode :=
  { Dinode.zero with type := type, nlink := 1 }

/-- A disk of 74 blocks, of which 40 are data blocks. -/
def blankSb : Superblock := ⟨74, 40, 8, 30, 2, 32, 33⟩

/-- A file system inside an operation, with one inode, that of an empty file of some type,
locked in slot `0`. -/
def blank (type : Int16) : FS where
  disk b := if b = 1 then Bytes.write Superblock.codec zeroBlock 0 blankSb
    else if b = 32 then Bytes.write Dinode.codec zeroBlock (64 * 1) (blankInode type)
    else if b = 33 then Mkfs.usedBitmap 34
    else zeroBlock
  sb := blankSb
  log := ⟨30, 1, [], []⟩
  icache k := if k.val = 0 then ⟨ROOTDEV, 1, 1, true, true, blankInode type⟩ else Inode.unused
  ftable _ := ⟨.none, 0, false, false, 0, 0, 0⟩
  procs _ := ⟨none, fun _ => none⟩
  devices := ⟨fun _ => none, fun _ => none, fun _ _ => none, fun _ _ _ => none⟩
  stack _ := 0

section

variable {type : Int16}

theorem blank_used {b : ℕ} (hb : b < 74) : Used (blank type).disk blankSb b ↔ b < 34 := by
  have hblk : (blank type).disk (BBLOCK b blankSb) = Mkfs.usedBitmap 34 := by
    have h33 : BBLOCK b blankSb = 33 := by
      show b / 4096 + 33 = 33
      omega
    rw [h33]
    rfl
  have hmod : b % BPB = b := Nat.mod_eq_of_lt (by show b < 4096; omega)
  rw [Used, hblk, hmod, ← Bool.not_eq_true, isClear_usedBitmap 34 (by show b < 4096; omega)]
  omega

theorem blank_dinode {i : ℕ} (hi : i < 8) :
    dinode (blank type).disk blankSb i = if i = 1 then blankInode type else Dinode.zero := by
  have hblk : (blank type).disk (IBLOCK i blankSb) =
      Bytes.write Dinode.codec zeroBlock (64 * 1) (blankInode type) := by
    have h32 : IBLOCK i blankSb = 32 := by
      show i / 8 + 32 = 32
      omega
    rw [h32]
    rfl
  rw [dinode, hblk, show i % IPB = i from Nat.mod_eq_of_lt hi]
  refine (Bytes.read_write_index Dinode.codec zeroBlock (blankInode type) (by decide)).trans ?_
  rw [read_dinode_zeroBlock]

theorem blank_loaded : Loaded (blank type) 0 1 :=
  ⟨Int.one_pos, rfl, rfl⟩

theorem blank_ref {k : Iptr} (hk : 0 < ((blank type).icache k).ref) : k = 0 := by
  by_contra hne
  have h0 : k.val ≠ 0 := fun h => hne (Fin.ext h)
  simp only [blank, if_neg h0, Inode.unused] at hk
  exact absurd hk (lt_irrefl 0)

theorem blank_slotAddr (disk : ℕ → Block) (j : ℕ) : slotAddr disk (blankInode type) j = 0 := by
  have haddr : ∀ m, (blankInode type).addr m = 0 := fun m => by
    unfold Dinode.addr
    split_ifs <;> rfl
  unfold slotAddr
  rw [haddr, haddr, if_pos rfl, ite_self]

theorem blank_geometry : Geometry blankSb := by
  constructor <;> decide

theorem blank_distinct : Distinct blankSb (blank type).icache :=
  distinct_single blank_ref ⟨rfl, le_rfl, show 1 < ninum blankSb by decide⟩

theorem blank_cur (i : ℕ) :
    cur (blank type) i = if i = 1 then blankInode type else Dinode.zero := by
  by_cases hi : i = 1
  · subst hi
    rw [cur_of_loaded blank_distinct blank_loaded, if_pos rfl]
    rfl
  rw [if_neg hi]
  rcases Nat.lt_or_ge i 8 with hlt | hge
  · rw [cur_of_not_loaded (s := blank type) hlt]
    · exact (blank_dinode hlt).trans (if_neg hi)
    · intro k hk
      rw [blank_ref hk.1] at hk
      exact hi hk.2.2.symm
  · exact cur_of_le (s := blank type) hge

theorem blank_store (htype : type ≠ 0) : Store none (blank type) where
  geometry := blank_geometry
  super := Bytes.read_write Superblock.codec zeroBlock blankSb (by decide)
  distinct := blank_distinct
  typed k i hk := by
    rw [blank_ref hk.1]
    exact htype
  clean k i hk _ := by
    obtain rfl := blank_ref hk.1
    obtain rfl : 1 = i := hk.2.2
    exact (blank_dinode (i := 1) (by decide)).symm
  owned := by
    have hno : ∀ b q, ¬ Own blankSb (cur (blank type)) (blank type).disk b q := by
      rintro b ⟨i, j⟩ ⟨-, hty, -, hb, hs⟩
      dsimp only at hty hs
      rw [blank_cur] at hty hs
      split_ifs at hty hs
      · exact hb (hs.symm.trans (blank_slotAddr _ _))
      · exact hty rfl
    refine ⟨⟨fun b q hown => absurd hown (hno b q), fun b q _ hown => absurd hown (hno b q),
      fun b hb hused => ?_⟩, fun b hb hn => ?_, fun i _ hty _ => ?_⟩
    · have h34 : 34 ≤ b := hb.1
      exact absurd ((blank_used hb.2).1 hused) (by omega)
    · refine (blank_used hb).2 ?_
      by_contra h34
      exact hn ⟨by show 34 ≤ b; omega, hb⟩
    · rw [blank_cur] at hty ⊢
      split_ifs at hty ⊢
      · exact ⟨Nat.zero_le _, fun n hn => absurd hn (Nat.not_lt_zero _)⟩
      · exact absurd rfl hty

theorem blank_view (htype : type ≠ 0) :
    (view (blank type) 1).type = type ∧ (view (blank type) 1).size = 0 := by
  rw [(blank_store htype).view_loaded blank_loaded]
  exact ⟨rfl, rfl⟩

theorem blank_missing (T : Finset ℕ) :
    missing T (blank type).disk (cur (blank type) 1) = T.card := by
  rw [missing, blank_cur, if_pos rfl, filter_true_of_mem fun j _ => blank_slotAddr _ j]

theorem blank_free : freeBlocks (blank type).disk blankSb = Finset.Ico 34 74 := by
  ext b
  rw [mem_freeBlocks, mem_Ico]
  constructor
  · rintro ⟨hb, hfree⟩
    have hb' : b < 74 := hb
    rw [blank_used hb'] at hfree
    omega
  · rintro ⟨h34, hb⟩
    exact ⟨hb, by rw [blank_used hb]; omega⟩

end

theorem blank_enough (type : Int16) {n : ℕ} (hn : n ≤ BSIZE) : Enough (blank type) 1 0 n := by
  have hspan : span 0 n ⊆ {0} := by
    have hn' : n ≤ 512 := hn
    unfold span
    split_ifs
    · exact empty_subset _
    · intro l hl
      have hlt : l < (0 + n - 1) / 512 + 1 := (mem_Ico.1 hl).2
      exact mem_singleton.2 (by omega)
  refine ⟨?_, ?_⟩
  · rw [EnoughBlocks, blank_missing, show (blank type).sb = blankSb from rfl, blank_free]
    exact (card_le_card (biUnion_subset_biUnion_of_subset_left bmapSlots
      hspan)).trans (by decide)
  · intro _
    have hlogged : logged (blank type) 1 0 n ⊆ {0} := by
      unfold logged
      split_ifs
      · exact (erase_subset _ _).trans hspan
      · exact hspan
    refine Fits.of_le (n := 3) (l := ⟨30, 1, [], []⟩) ⟨by decide, by decide, by decide⟩ rfl rfl ?_
    refine (load_nil _).trans_le ((card_writeSet_le _ _ _).trans ?_)
    have hcard : (logged (blank type) 1 0 n).card ≤ 1 := card_le_card hlogged
    have hmaps := (card_freeMaps_le (blank type)).trans_eq (show nbitmap blankSb = 1 by decide)
    omega

/-- Three bytes go into an empty file. -/
theorem file_is_array_blank : ∃ s', writei 0 (fun _ => 7) 0 3 (blank T_FILE) = .ok (some 3) s' ∧
    (view s' 1).data = [7, 7, 7] := by
  have hst := blank_store (show T_FILE ≠ 0 by decide)
  have hv := blank_view (show T_FILE ≠ 0 by decide)
  obtain ⟨s', hrun, hdata, -⟩ := (file_is_array hst blank_loaded hv.1).1 (fun _ => 7) 0 3
    (Nat.zero_le _) (by decide) (blank_enough T_FILE (by decide))
  refine ⟨s', hrun, hdata.trans ?_⟩
  have hnil : (view (blank T_FILE) 1).data = [] := by
    rw [Node.data, hv.2]
    rfl
  rw [hnil]
  rfl

/-- A write of 31 blocks into an empty file does not return, with 40 blocks free. -/
theorem writei_too_big : Store none (blank T_FILE) ∧ Loaded (blank T_FILE) 0 1 ∧
    (view (blank T_FILE) 1).type = T_FILE ∧ (view (blank T_FILE) 1).size = 0 ∧
    (15872 : UInt32).toNat ≤ MAXFILE * BSIZE ∧
    missing ((span 0 15872).biUnion bmapSlots) (blank T_FILE).disk (cur (blank T_FILE) 1) ≤
      (freeBlocks (blank T_FILE).disk (blank T_FILE).sb).card ∧
    ∀ s', writei 0 (fun _ => 7) 0 15872 (blank T_FILE) ≠ .ok (some 15872) s' := by
  have hst := blank_store (show T_FILE ≠ 0 by decide)
  have hv := blank_view (show T_FILE ≠ 0 by decide)
  refine ⟨hst, blank_loaded, hv.1, hv.2, by decide, ?_, fun s' hrun => ?_⟩
  · rw [blank_missing, show (blank T_FILE).sb = blankSb from rfl, blank_free]
    decide
  · have hdev : (view (blank T_FILE) 1).type ≠ T_DEV := by
      rw [hv.1]
      decide
    have hw := wp_ok (writei_spec hst blank_loaded hdev _ _ _) hrun
    rw [if_neg (by rw [hv.2]; decide)] at hw
    have hfits := hw.2.fits (by rw [hv.2]; decide)
    have hload : (fresh (blank T_FILE) 1 ((span 0 15872).biUnion bmapSlots)).card ≤
        load (writeSet (blank T_FILE) 1 (span 0 15872)) [] :=
      (card_le_card fun c hc => mem_writeSet.2 (.inl hc)).trans_eq (load_nil _).symm
    rw [fresh, card_lowest, blank_missing, show (blank T_FILE).sb = blankSb from rfl, blank_free,
      show min _ _ = 32 by decide] at hload
    exact absurd (hload.trans_lt hfits.2.1) (by decide)

end Xv6
