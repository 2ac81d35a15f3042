import Xv6.Lib.SlotMap
import Xv6.Refs

/-!
# Directories

A directory is a file of entries of `DIRENT` bytes. Entry `e` is the slot `Node.slot nd e`,
empty when its inode number is `0` and otherwise a name with an inode number, and the
directory is the table of its slots (`SlotMap`). A name is the key `nameOf` makes of a C
string, its first `DIRSIZ` bytes up to a terminator, filled with zeroes : `namecmp` compares the
keys of two strings, and `strncpy` stores the key in an entry.

`dirlookup` and `isdirempty` read the directory without changing the state, and `dirlink` changes
one entry of it (`Node.Put`).
-/

open Prog Layout SlotMap List

namespace Xv6

/-! ## Names -/

/-- A file name, as a directory entry has it. -/
abbrev Name := Fin DIRSIZ → UInt8

/-- The name of a C string. -/
def nameOf (t : ℕ → UInt8) : Name :=
  fun j => (strncpy t 0 DIRSIZ).getD j 0

theorem length_strncpy (t : ℕ → UInt8) : ∀ n i, (strncpy t i n).length = n
  | 0, _ => rfl
  | n + 1, i => by
    unfold strncpy
    split_ifs
    · exact length_replicate
    · rw [length_cons, length_strncpy t n]

/-- `strncmp` compares what `strncpy` copies. -/
theorem strncmp_eq_zero_iff (p q : ℕ → UInt8) :
    ∀ n i, strncmp p q i n = 0 ↔ strncpy p i n = strncpy q i n
  | 0, _ => by simp [strncmp, strncpy]
  | n + 1, i => by
    unfold strncmp
    by_cases h : p i ≠ 0 ∧ p i = q i
    · have hq : q i ≠ 0 := h.2 ▸ h.1
      rw [if_pos h, strncmp_eq_zero_iff p q n (i + 1), strncpy, strncpy, if_neg h.1, if_neg hq, h.2]
      simp
    · rw [if_neg h, Int.sub_eq_zero, Int.natCast_inj, UInt8.toNat_inj]
      constructor
      · intro he
        have hp : p i = 0 := by
          by_contra hp
          exact h ⟨hp, he⟩
        rw [strncpy, strncpy, if_pos hp, if_pos (he ▸ hp)]
      · intro he
        rw [strncpy, strncpy, replicate_succ] at he
        split_ifs at he with hp hq hq
        · rw [hp, hq]
        · exact absurd (List.cons.inj he).1.symm hq
        · exact absurd (List.cons.inj he).1 hp
        · exact (List.cons.inj he).1

theorem nameOf_eq_iff {s t : ℕ → UInt8} :
    nameOf s = nameOf t ↔ strncpy s 0 DIRSIZ = strncpy t 0 DIRSIZ := by
  constructor
  · intro h
    refine ext_getElem (by rw [length_strncpy, length_strncpy]) fun j hj hj' => ?_
    have hlt : j < DIRSIZ := by rwa [length_strncpy] at hj
    simpa [nameOf, getD_eq_getElem, hj, hj'] using congrFun h ⟨j, hlt⟩
  · intro h
    funext j
    rw [nameOf, nameOf, h]

theorem namecmp_eq_zero_iff {s t : ℕ → UInt8} : namecmp s t = 0 ↔ nameOf s = nameOf t := by
  rw [nameOf_eq_iff, namecmp, strncmp_eq_zero_iff]

theorem strncpy_congr {s t : ℕ → UInt8} : ∀ n i, (∀ j < n, s (i + j) = t (i + j)) →
    strncpy s i n = strncpy t i n
  | 0, _, _ => rfl
  | n + 1, i, h => by
    have h0 : s i = t i := h 0 (Nat.succ_pos n)
    rw [strncpy, strncpy, h0, strncpy_congr n (i + 1) fun j hj => ?_]
    rw [Nat.add_assoc, Nat.add_comm 1 j]
    exact h (j + 1) (Nat.succ_lt_succ hj)

theorem nameOf_congr {s t : ℕ → UInt8} (h : ∀ j < DIRSIZ, s j = t j) : nameOf s = nameOf t :=
  nameOf_eq_iff.2 (strncpy_congr DIRSIZ 0 fun j hj => by simpa using h j hj)

theorem getD_strncpy (t : ℕ → UInt8) : ∀ n i j, j < n →
    (strncpy t i n).getD j 0 = if ∃ m ≤ j, t (i + m) = 0 then 0 else t (i + j)
  | 0, _, _, hj => absurd hj (Nat.not_lt_zero _)
  | n + 1, i, j, hj => by
    unfold strncpy
    by_cases h0 : t i = 0
    · rw [if_pos h0, if_pos ⟨0, Nat.zero_le j, h0⟩]
      simp
    rw [if_neg h0]
    cases j with
    | zero =>
      have hno : ¬ ∃ m ≤ 0, t (i + m) = 0 := by
        rintro ⟨m, hm, h⟩
        obtain rfl := Nat.le_zero.1 hm
        exact h0 h
      rw [if_neg hno]
      rfl
    | succ j =>
      have hiff : (∃ m ≤ j + 1, t (i + m) = 0) ↔ ∃ m ≤ j, t (i + 1 + m) = 0 := by
        constructor
        · rintro ⟨m, hm, h⟩
          cases m with
          | zero => exact absurd h h0
          | succ m => exact ⟨m, Nat.le_of_succ_le_succ hm, by rwa [Nat.add_assoc, Nat.add_comm 1 m]⟩
        · rintro ⟨m, hm, h⟩
          exact ⟨m + 1, Nat.succ_le_succ hm, by rwa [Nat.add_assoc, Nat.add_comm 1 m] at h⟩
      rw [getD_cons_succ, getD_strncpy t n (i + 1) j (Nat.lt_of_succ_lt_succ hj),
        Nat.add_assoc, Nat.add_comm 1 j]
      exact if_congr hiff.symm rfl rfl

/-! ## Entries -/

/-- The name in an entry. -/
def Dirent.key (de : Dirent) : Name :=
  nameOf de.cname

/-- The entry as a slot of a table. -/
def Dirent.slot (de : Dirent) : Option (Name × ℕ) :=
  if de.inum = 0 then none else some (de.key, de.inum.toNat)

/-- The entry `dirlink` writes. -/
def newDirent (name : ℕ → UInt8) (inum : ℕ) : Dirent :=
  ⟨UInt16.ofNat inum, fun j => (strncpy name 0 DIRSIZ).getD j 0⟩

/-- The entry `sys_unlink` writes. -/
def noDirent : Dirent :=
  ⟨0, fun _ => 0⟩

theorem newDirent_key (name : ℕ → UInt8) (inum : ℕ) : (newDirent name inum).key = nameOf name := by
  have hlt : ∀ j < DIRSIZ, (newDirent name inum).cname j = (strncpy name 0 DIRSIZ).getD j 0 :=
    fun j hj => dif_pos hj
  funext ⟨j, hj⟩
  show (strncpy (newDirent name inum).cname 0 DIRSIZ).getD j 0 = (strncpy name 0 DIRSIZ).getD j 0
  rw [getD_strncpy _ _ _ _ hj, Nat.zero_add, hlt j hj]
  split_ifs with h
  · obtain ⟨m, hm, h0⟩ := h
    rw [Nat.zero_add, hlt m (hm.trans_lt hj), getD_strncpy _ _ _ _ (hm.trans_lt hj)] at h0
    rw [getD_strncpy _ _ _ _ hj, if_pos]
    split_ifs at h0 with hz
    · obtain ⟨l, hl, hz⟩ := hz
      exact ⟨l, hl.trans hm, hz⟩
    · exact ⟨m, hm, h0⟩
  · rfl

theorem newDirent_slot {inum : ℕ} (name : ℕ → UInt8) (h0 : inum ≠ 0) (hlt : inum < 2 ^ 16) :
    (newDirent name inum).slot = some (nameOf name, inum) := by
  have hin : (newDirent name inum).inum.toNat = inum := UInt16.toNat_ofNat_of_lt' hlt
  have hne : (newDirent name inum).inum ≠ 0 := by
    intro h
    rw [h] at hin
    exact h0 hin.symm
  rw [Dirent.slot, if_neg hne, newDirent_key, hin]

@[simp] theorem noDirent_slot : noDirent.slot = none :=
  rfl

theorem Dirent.slot_eq_none_iff {de : Dirent} : de.slot = none ↔ de.inum = 0 := by
  unfold Dirent.slot
  split_ifs with h <;> simp [h]

/-- Entry `e` of a directory. -/
def Node.dirent (nd : Node) (e : ℕ) : Dirent :=
  Dirent.codec.ofByte fun j => nd.byte (e * DIRENT + j)

/-- Slot `e` of a directory. -/
def Node.slot (nd : Node) (e : ℕ) : Option (Name × ℕ) :=
  (nd.dirent e).slot

/-- Number of entries of a directory. -/
def Node.nent (nd : Node) : ℕ :=
  nd.size / DIRENT

/-- The entry that has a name. -/
def Node.find (nd : Node) (name : Name) : Option ℕ :=
  SlotMap.find nd.slot nd.nent name

/-- The inode number a name stands for. -/
def Node.lookup (nd : Node) (name : Name) : Option ℕ :=
  SlotMap.lookup nd.slot nd.nent name

/-- The entry `dirlink` writes to. -/
def Node.vacant (nd : Node) : ℕ :=
  SlotMap.vacant nd.slot nd.nent

theorem Node.slot_eq_none_iff {nd : Node} {e : ℕ} : nd.slot e = none ↔ (nd.dirent e).inum = 0 :=
  Dirent.slot_eq_none_iff

theorem Node.slot_eq_some {nd : Node} {e i : ℕ} {name : Name} (h : nd.slot e = some (name, i)) :
    (nd.dirent e).inum ≠ 0 ∧ (nd.dirent e).key = name ∧ (nd.dirent e).inum.toNat = i := by
  unfold Node.slot Dirent.slot at h
  split_ifs at h with h0
  obtain ⟨hk, hi⟩ := Prod.mk.inj (Option.some.inj h)
  exact ⟨h0, hk, hi⟩

theorem Node.slot_of_ne {nd : Node} {e : ℕ} (h : (nd.dirent e).inum ≠ 0) :
    nd.slot e = some ((nd.dirent e).key, (nd.dirent e).inum.toNat) :=
  if_neg h

theorem Node.slot_pos {nd : Node} {e i : ℕ} {name : Name} (h : nd.slot e = some (name, i)) :
    1 ≤ i := by
  obtain ⟨h0, -, rfl⟩ := Node.slot_eq_some h
  exact Nat.pos_of_ne_zero fun hz => h0 (UInt16.toNat_inj.1 hz)

/-- Entry `e` of a directory is set, past the end or before it, and nothing else of the
file changes. -/
structure Node.Put (nd : Node) (e : ℕ) (de : Dirent) (nd' : Node) : Prop where
  type : nd'.type = nd.type
  major : nd'.major = nd.major
  minor : nd'.minor = nd.minor
  nlink : nd'.nlink = nd.nlink
  size : nd'.size = max nd.size ((e + 1) * DIRENT)
  dirent : ∀ e', nd'.dirent e' = if e' = e then de else nd.dirent e'

theorem Node.Put.fills {nd nd' : Node} {e : ℕ} {de : Dirent} (h : nd.Put e de nd')
    (hsize : DIRENT ∣ nd.size) (he : e ≤ nd.nent) :
    Fills nd.slot nd.nent e de.slot nd'.slot nd'.nent where
  le := he
  self := by rw [Node.slot, h.dirent, if_pos rfl]
  other e' _ hne := by rw [Node.slot, h.dirent, if_neg hne, Node.slot]
  size := by
    obtain ⟨m, hm⟩ := hsize
    rw [Node.nent, Node.nent, h.size, hm]
    show max (16 * m) ((e + 1) * 16) / 16 = max (16 * m / 16) (e + 1)
    omega

theorem Node.Put.dvd {nd nd' : Node} {e : ℕ} {de : Dirent} (h : nd.Put e de nd')
    (hsize : DIRENT ∣ nd.size) : DIRENT ∣ nd'.size := by
  obtain ⟨m, hm⟩ := hsize
  rw [h.size, hm]
  refine ⟨max m (e + 1), ?_⟩
  show max (16 * m) ((e + 1) * 16) = 16 * max m (e + 1)
  omega

/-! ## Reading and writing entries -/

section

variable {s : FS} {k : Iptr} {i e : ℕ}

theorem Store.size_le {x : Option Iptr} (h : Store x s) (hk : Loaded s k i)
    (hdev : (view s i).type ≠ T_DEV) : (view s i).size ≤ MAXFILE * BSIZE := by
  rw [h.type_eq hk, ← h.cur_eq hk] at hdev
  rw [h.size_eq hk, ← h.cur_eq hk]
  exact (h.owned.full i (h.lt hk) (h.cur_type hk) hdev).1

/-- The entry after `writeDirent`. -/
theorem Stored.put {s' : FS} {de : Dirent}
    (hs : Stored s k i (Dirent.codec.toByte de) (e * DIRENT) DIRENT s') :
    (view s i).Put e de (view s' i) where
  type := by rw [hs.self, Node.setSize, Node.setBlocks]
  major := by rw [hs.self, Node.setSize, Node.setBlocks]
  minor := by rw [hs.self, Node.setSize, Node.setBlocks]
  nlink := by rw [hs.self, Node.setSize, Node.setBlocks]
  size := by
    rw [hs.self, Node.setSize_size, Nat.succ_mul]
  dirent e' := by
    unfold Node.dirent
    split_ifs with hee
    · subst hee
      refine Eq.trans ?_ (Dirent.codec.ofByte_toByte de)
      refine Dirent.codec.ofByte_congr _ _ fun j hj => ?_
      have hj' : j < DIRENT := hj
      rw [hs.byte, if_pos ⟨Nat.le_add_right _ _, Nat.add_lt_add_left hj' _⟩,
        Nat.add_sub_cancel_left]
    · refine Dirent.codec.ofByte_congr _ _ fun j hj => ?_
      have hj' : j < 16 := hj
      rw [hs.byte, if_neg (by simp only [DIRENT]; omega)]

/-- A change of one entry of directory `i`. -/
structure Entered (s : FS) (k : Iptr) (i e : ℕ) (de : Dirent) (s' : FS) : Prop where
  store : Store none s'
  same : SameSlots s s'
  put : (view s i).Put e de (view s' i)
  other : ∀ l ≠ i, view s' l = view s l
  eff : Eff (insert (IBLOCK i s.sb) (bitmapBlocks s.sb)) 2 s s'

/-- There is room for entry `e` in the file, on the disk and in the log. -/
def Room (s : FS) (i e : ℕ) : Prop :=
  (e + 1) * DIRENT ≤ MAXFILE * BSIZE ∧ Enough s i (e * DIRENT) DIRENT

variable (h : Store none s) (hk : Loaded s k i) (hdev : (view s i).type ≠ T_DEV)
include h hk hdev

/-- `readi` of an entry of a directory. -/
theorem readDirent_spec (he : e < (view s i).nent) (msg : String) :
    wp (readDirent k (e * DIRENT) msg) (fun de s' => s' = s ∧ de = (view s i).dirent e)
      (fun _ _ => False) s := by
  have hle := h.size_le hk hdev
  have hend : e * DIRENT + DIRENT ≤ (view s i).size := by
    simp only [Node.nent, DIRENT] at he ⊢
    omega
  have hmax : MAXFILE * BSIZE = 71680 := by decide
  have hoff : (UInt32.ofNat (e * DIRENT)).toNat = e * DIRENT :=
    UInt32.toNat_ofNat_of_lt' (by rw [show UInt32.size = 4294967296 from rfl]; omega)
  have hlen : (UInt32.ofNat DIRENT).toNat = DIRENT := rfl
  unfold readDirent
  refine wp_seq (readi_spec h (.inl rfl) hk hdev _ _) ?_
  rintro r s' ⟨rfl, hr⟩
  rw [hoff, hlen, if_neg (by omega), Node.data_slice, Nat.min_eq_left (by omega)] at hr
  subst hr
  dsimp only
  rw [if_pos (by simp), wp_pure]
  refine ⟨rfl, Dirent.codec.ofByte_congr _ _ fun j hj => ?_⟩
  have hj' : j < 16 := hj
  simp [hj']

/-- `writei` of an entry of a directory. -/
theorem writeDirent_spec (he : e ≤ (view s i).nent) (de : Dirent) (msg : String) :
    wp (writeDirent k (e * DIRENT) de msg) (fun _ s' => Entered s k i e de s')
      (fun _ _ => ¬ Room s i e) s := by
  have hle := h.size_le hk hdev
  have hmax : MAXFILE * BSIZE = 71680 := by decide
  have hstart : e * DIRENT ≤ (view s i).size := by
    simp only [Node.nent, DIRENT] at he ⊢
    omega
  have hoff : (UInt32.ofNat (e * DIRENT)).toNat = e * DIRENT :=
    UInt32.toNat_ofNat_of_lt' (by rw [show UInt32.size = 4294967296 from rfl]; omega)
  have hlen : (UInt32.ofNat DIRENT).toNat = DIRENT := rfl
  unfold writeDirent
  refine wp_seq (wp_mono' (writei_spec h hk hdev _ _ _) (fun _ _ => id) fun _ _ hno hroom => ?_) ?_
  · rw [hoff, hlen] at hno
    exact hno.2.2.not_and hroom.2
  intro r s' hr
  rw [hoff, hlen] at hr
  split_ifs at hr with hbig
  · obtain ⟨rfl, rfl⟩ := hr
    rintro ⟨hfit, -⟩
    rw [Nat.succ_mul] at hfit
    omega
  obtain ⟨rfl, hs⟩ := hr
  dsimp only
  rw [if_pos rfl, wp_pure]
  refine ⟨hs.store, hs.same, hs.put, hs.other, hs.env, fun W hW => ?_⟩
  have hspan : (span (e * DIRENT) DIRENT).card = 1 := by
    rw [span, if_neg (by decide), Nat.card_Ico]
    show (e * 16 + 16 - 1) / 512 + 1 - e * 16 / 512 = 1
    omega
  have hload := hs.loads ((Finset.subset_insert _ _).trans hW) (hW (Finset.mem_insert_self _ _))
  rwa [hspan] at hload

end

/-! ## Scanning a directory -/

section

variable {s : FS} {k : Iptr} {i : ℕ}

theorem direntOffsets_eq {size : ℕ} (h : DIRENT ∣ size) (e : ℕ) :
    direntOffsets e size = (List.range' e (size / DIRENT - e)).map (· * DIRENT) := by
  obtain ⟨m, rfl⟩ := h
  have hdiv : (DIRENT * m + DIRENT - 1) / DIRENT = m := by
    show (16 * m + 16 - 1) / 16 = m
    omega
  rw [direntOffsets, hdiv, Nat.mul_div_cancel_left m (by decide), range'_eq_map_range,
    map_map]
  rfl

variable (h : Store none s) (hk : Loaded s k i)
include h hk

/-- The loop of `dirlookup` stops at the first entry that has the name. -/
theorem dirlookupLoop_spec (hdev : (view s i).type ≠ T_DEV) (name : ℕ → UInt8) :
    ∀ es : List ℕ, (∀ e ∈ es, e < (view s i).nent) →
      wp (dirlookupLoop k name (es.map (· * DIRENT)))
        (fun r s' => match es.find? (holds (view s i).slot (nameOf name)) with
          | none => r = none ∧ s' = s
          | some e => ∃ ip, r = some (ip, e * DIRENT) ∧
              Got s ((view s i).dirent e).inum.toNat ip s')
        (fun er _ => er = .panic "iget: no inodes" ∧
          ∃ e ∈ es, holds (view s i).slot (nameOf name) e = true ∧
            NoSlot s ((view s i).dirent e).inum.toNat) s
  | [], _ => ⟨rfl, rfl⟩
  | e :: es, hes => by
    have hrest := dirlookupLoop_spec hdev name es fun e' he' => hes e' (mem_cons_of_mem e he')
    have hskip : holds (view s i).slot (nameOf name) e = false →
        wp (dirlookupLoop k name (es.map (· * DIRENT)))
          (fun r s' => match (e :: es).find? (holds (view s i).slot (nameOf name)) with
            | none => r = none ∧ s' = s
            | some e => ∃ ip, r = some (ip, e * DIRENT) ∧
                Got s ((view s i).dirent e).inum.toNat ip s')
          (fun er _ => er = .panic "iget: no inodes" ∧
            ∃ e' ∈ e :: es, holds (view s i).slot (nameOf name) e' = true ∧
              NoSlot s ((view s i).dirent e').inum.toNat) s := by
      intro hno
      rw [find?_cons_of_neg (by rw [hno]; exact Bool.false_ne_true)]
      refine wp_mono' hrest (fun _ _ => id) ?_
      rintro er s' ⟨hmsg, e', he', hh⟩
      exact ⟨hmsg, e', mem_cons_of_mem e he', hh⟩
    rw [map_cons, dirlookupLoop]
    refine wp_seq (wp_mono' (readDirent_spec h hk hdev (hes e mem_cons_self) _)
      (fun _ _ => id) fun _ _ hF => hF.elim) ?_
    rintro de s1 ⟨rfl, rfl⟩
    by_cases h0 : ((view s1 i).dirent e).inum = 0
    · rw [if_pos h0]
      refine hskip (Bool.eq_false_iff.2 fun hh => ?_)
      obtain ⟨a, ha⟩ := holds_iff.1 hh
      exact (Node.slot_eq_some ha).1 h0
    rw [if_neg h0]
    have hiff : namecmp name ((view s1 i).dirent e).cname = 0 ↔
        holds (view s1 i).slot (nameOf name) e = true := by
      rw [namecmp_eq_zero_iff, holds_iff, Node.slot_of_ne h0, Dirent.key]
      constructor
      · intro heq
        exact ⟨_, by rw [heq]⟩
      · rintro ⟨a, ha⟩
        exact (Prod.mk.inj (Option.some.inj ha)).1.symm
    by_cases hc : namecmp name ((view s1 i).dirent e).cname = 0
    · rw [if_pos hc, wp_bind, wp_get, h.distinct.dev k hk.1]
      have hh := hiff.1 hc
      simp only [find?_cons_of_pos hh]
      refine wp_seq (wp_mono' (iget_got s1 _) (fun _ _ => id) ?_) fun ip s2 hg => ⟨ip, rfl, hg⟩
      rintro er s' ⟨hmsg, hno⟩
      exact ⟨hmsg, e, mem_cons_self, hh, hno⟩
    · rw [if_neg hc]
      exact hskip (Bool.eq_false_iff.2 fun hh => hc (hiff.2 hh))

/-- `dirlookup` finds the entry that has the name and adds a reference to its inode. -/
theorem dirlookup_spec (htype : (view s i).type = T_DIR) (hsize : DIRENT ∣ (view s i).size)
    (name : ℕ → UInt8) :
    wp (dirlookup k name)
      (fun r s' => match (view s i).find (nameOf name) with
        | none => r = none ∧ s' = s
        | some e => ∃ ip, r = some (ip, e * DIRENT) ∧
            Got s ((view s i).dirent e).inum.toNat ip s')
      (fun er _ => er = .panic "iget: no inodes" ∧ ∃ e < (view s i).nent,
        holds (view s i).slot (nameOf name) e = true ∧
          NoSlot s ((view s i).dirent e).inum.toNat) s := by
  have hdev : (view s i).type ≠ T_DEV := by
    rw [htype]
    decide
  unfold dirlookup
  rw [wp_bind, wp_get, if_neg (not_not.2 ((h.type_eq hk).symm.trans htype)), ← h.size_eq hk,
    direntOffsets_eq hsize 0, Nat.sub_zero, ← range_eq_range']
  refine wp_mono' (dirlookupLoop_spec h hk hdev name _ fun e he => mem_range.1 he)
    (fun _ _ => id) ?_
  rintro er s' ⟨hmsg, e, he, hh⟩
  exact ⟨hmsg, e, mem_range.1 he, hh⟩

/-- The loop of `dirlink` stops at the first empty entry. -/
theorem dirlinkLoop_spec (hdev : (view s i).type ≠ T_DEV) (last : ℕ) :
    ∀ es : List ℕ, (∀ e ∈ es, e < (view s i).nent) →
      wp (dirlinkLoop k (last * DIRENT) (es.map (· * DIRENT)))
        (fun off s' => s' = s ∧
          off = ((es.find? fun e => ((view s i).slot e).isNone).getD last) * DIRENT)
        (fun _ _ => False) s
  | [], _ => ⟨rfl, rfl⟩
  | e :: es, hes => by
    have hrest := dirlinkLoop_spec hdev last es fun e' he' => hes e' (mem_cons_of_mem e he')
    rw [map_cons, dirlinkLoop]
    refine wp_seq (readDirent_spec h hk hdev (hes e mem_cons_self) _) ?_
    rintro de s1 ⟨rfl, rfl⟩
    by_cases h0 : ((view s1 i).dirent e).inum = 0
    · rw [if_pos h0, wp_pure, find?_cons_of_pos (by rw [Node.slot_eq_none_iff.2 h0]; rfl)]
      exact ⟨rfl, rfl⟩
    · rw [if_neg h0, find?_cons_of_neg (by rw [Node.slot_of_ne h0]; exact Bool.false_ne_true)]
      exact hrest

theorem isdiremptyLoop_spec (hdev : (view s i).type ≠ T_DEV) :
    ∀ es : List ℕ, (∀ e ∈ es, e < (view s i).nent) →
      wp (isdiremptyLoop k (es.map (· * DIRENT)))
        (fun r s' => s' = s ∧ (r = true ↔ ∀ e ∈ es, (view s i).slot e = none))
        (fun _ _ => False) s
  | [], _ => ⟨rfl, by simp⟩
  | e :: es, hes => by
    have hrest := isdiremptyLoop_spec hdev es fun e' he' => hes e' (mem_cons_of_mem e he')
    rw [map_cons, isdiremptyLoop]
    refine wp_seq (readDirent_spec h hk hdev (hes e mem_cons_self) _) ?_
    rintro de s1 ⟨rfl, rfl⟩
    by_cases h0 : ((view s1 i).dirent e).inum = 0
    · rw [if_neg (not_not.2 h0)]
      refine wp_mono hrest ?_
      rintro r s' ⟨rfl, hr⟩
      refine ⟨rfl, hr.trans ?_⟩
      simp [Node.slot_eq_none_iff.2 h0]
    · rw [if_pos h0, wp_pure]
      refine ⟨rfl, iff_of_false Bool.false_ne_true fun hall => h0 ?_⟩
      exact Node.slot_eq_none_iff.1 (hall e mem_cons_self)

/-- `isdirempty` tests the entries from the third on. -/
theorem isdirempty_spec (htype : (view s i).type = T_DIR) (hsize : DIRENT ∣ (view s i).size) :
    wp (isdirempty k) (fun r s' => s' = s ∧
        (r = true ↔ ∀ e, 2 ≤ e → e < (view s i).nent → (view s i).slot e = none))
      (fun _ _ => False) s := by
  have hdev : (view s i).type ≠ T_DEV := by
    rw [htype]
    decide
  unfold isdirempty
  rw [wp_bind, wp_get, ← h.size_eq hk, direntOffsets_eq hsize 2]
  have hmem : ∀ e, e ∈ List.range' 2 ((view s i).size / DIRENT - 2) ↔
      2 ≤ e ∧ e < (view s i).nent := by
    intro e
    rw [mem_range'_1, Node.nent]
    omega
  refine wp_mono (isdiremptyLoop_spec h hk hdev _ fun e he => ((hmem e).1 he).2) ?_
  rintro r s' ⟨rfl, hr⟩
  refine ⟨rfl, hr.trans ⟨fun hall e h2 he => hall e ((hmem e).2 ⟨h2, he⟩), fun hall e he => ?_⟩⟩
  exact hall e ((hmem e).1 he).1 ((hmem e).1 he).2

/-- `dirlink` of a name that is there returns `-1`, and otherwise it writes a new entry. -/
theorem dirlink_spec (htype : (view s i).type = T_DIR) (hsize : DIRENT ∣ (view s i).size)
    (name : ℕ → UInt8) (inum : ℕ) :
    wp (dirlink k name inum)
      (fun r s' => if (view s i).find (nameOf name) = none then
          r = true ∧ Entered s k i (view s i).vacant (newDirent name inum) s'
        else r = false ∧ ∃ ip, Recycled s ip s')
      (fun er _ => if (view s i).find (nameOf name) = none then ¬ Room s i (view s i).vacant
        else er = .panic "iget: no inodes" ∧ ∃ e < (view s i).nent,
          holds (view s i).slot (nameOf name) e = true ∧
            NoSlot s ((view s i).dirent e).inum.toNat) s := by
  have hdev : (view s i).type ≠ T_DEV := by
    rw [htype]
    decide
  unfold dirlink
  have hlook := dirlookup_spec h hk htype hsize name
  cases hf : (view s i).find (nameOf name) with
  | some e =>
    rw [hf] at hlook
    simp only [reduceCtorEq, if_false]
    refine wp_seq hlook ?_
    rintro r s1 ⟨ip, rfl, hg⟩
    refine wp_seq (wp_mono' hg.put (fun _ _ => id) fun _ _ hF => hF.elim) fun _ s2 hrec => ?_
    exact ⟨rfl, ip, hrec⟩
  | none =>
    rw [hf] at hlook
    simp only [if_true]
    have hno := find_eq_none_iff.1 hf
    refine wp_seq (wp_mono' hlook (fun _ _ => id) ?_) ?_
    · rintro er s' ⟨-, e, he, hh, -⟩
      obtain ⟨a, ha⟩ := holds_iff.1 hh
      exact absurd ha (hno e he a)
    rintro r s1 ⟨rfl, rfl⟩
    have hend : ((view s1 i).size + DIRENT - 1) / DIRENT = (view s1 i).nent := by
      obtain ⟨m, hm⟩ := hsize
      rw [Node.nent, hm]
      show (16 * m + 16 - 1) / 16 = 16 * m / 16
      omega
    dsimp only
    rw [wp_bind, wp_get, ← h.size_eq hk, direntOffsets_eq hsize 0, Nat.sub_zero, hend,
      ← range_eq_range']
    refine wp_seq (wp_mono' (dirlinkLoop_spec h hk hdev _ _ fun e he => mem_range.1 he)
      (fun _ _ => id) fun _ _ hF => hF.elim) ?_
    rintro off s2 ⟨rfl, rfl⟩
    have hle : (view s2 i).vacant ≤ (view s2 i).nent := vacant_le _ _
    refine wp_seq (writeDirent_spec h hk hdev hle (newDirent name inum) "dirlink")
      fun _ s3 hent => ⟨rfl, hent⟩

end

end Xv6
