import Xv6.Store

/-!
# The files of a store

`view s` abstracts the store to a map from inode numbers to files : a `Node` has the
fields of the inode but its block addresses, and in their place the blocks themselves, by
their index in the file. Where the blocks lie on the disk, the indirect block and the
bitmap are gone from the view, and by ownership a change of one file's blocks leaves the
view of the others (`view_frame`).

`Filled` describes the change `bmap` makes when it puts a new block into a slot.
-/

open Function Prog Layout

namespace Xv6

/-- A file. -/
@[ext] structure Node where
  /-- File type, `0` for none. -/
  type : Int16
  major : Int16
  minor : Int16
  nlink : Int16
  size : ℕ
  blocks : ℕ → Option Block

/-- No file. -/
def Node.free : Node := ⟨0, 0, 0, 0, 0, fun _ => none⟩

@[simps -fullyApplied]
def Node.setBlocks (nd : Node) (blocks : ℕ → Option Block) : Node :=
  { nd with blocks := blocks }

def Node.setBlock (nd : Node) (n : ℕ) (data : Block) : Node :=
  nd.setBlocks (update nd.blocks n (some data))

@[simp] theorem Node.setBlock_type (nd : Node) (n : ℕ) (data : Block) :
    (nd.setBlock n data).type = nd.type := rfl

@[simp] theorem Node.setBlock_size (nd : Node) (n : ℕ) (data : Block) :
    (nd.setBlock n data).size = nd.size := rfl

@[simp] theorem Node.setBlock_blocks (nd : Node) (n : ℕ) (data : Block) :
    (nd.setBlock n data).blocks = update nd.blocks n (some data) := rfl

theorem Node.setBlock_setBlocks (nd : Node) (n : ℕ) (data : Block) (bl : ℕ → Option Block) :
    (nd.setBlock n data).setBlocks bl = nd.setBlocks bl := rfl

theorem Node.setBlock_setBlock (nd : Node) (n : ℕ) (data data' : Block) :
    (nd.setBlock n data).setBlock n data' = nd.setBlock n data' := by
  simp only [Node.setBlock, Node.setBlocks, update_idem]

@[simps -fullyApplied]
def Node.setSize (nd : Node) (size : ℕ) : Node :=
  { nd with size := size }

theorem Node.setSize_self (nd : Node) : nd.setSize nd.size = nd := rfl

theorem Node.setBlocks_self (nd : Node) : nd.setBlocks nd.blocks = nd := rfl

/-- The file with no content. -/
def Node.trunc (nd : Node) : Node :=
  { nd with size := 0, blocks := fun _ => none }

/-- The file of inode `d`. -/
def node (disk : ℕ → Block) (d : Dinode) : Node :=
  if d.type = 0 then Node.free
  else ⟨d.type, d.major, d.minor, d.nlink, d.size.toNat, fun n =>
    if n < MAXFILE ∧ fileAddr disk d n ≠ 0 then some (disk (fileAddr disk d n)) else none⟩

/-- File `i`. -/
def view (s : FS) (i : ℕ) : Node :=
  node s.disk (cur s i)

theorem node_type (disk : ℕ → Block) (d : Dinode) : (node disk d).type = d.type := by
  unfold node
  split_ifs with h
  · exact h.symm
  · rfl

theorem node_congr {disk disk' : ℕ → Block} {d : Dinode}
    (haddr : ∀ n < MAXFILE, fileAddr disk' d n = fileAddr disk d n)
    (hdata : ∀ n < MAXFILE, fileAddr disk d n ≠ 0 →
      disk' (fileAddr disk d n) = disk (fileAddr disk d n)) : node disk' d = node disk d := by
  unfold node
  split_ifs
  · rfl
  · refine Node.ext rfl rfl rfl rfl rfl (funext fun n => ?_)
    dsimp only
    by_cases hn : n < MAXFILE
    · rw [haddr n hn]
      split_ifs with h
      · rw [hdata n hn h.2]
      · rfl
    · simp only [hn, false_and, if_false]

variable {s s' : FS} {x : Option Iptr} {k : Iptr} {i j l b n : ℕ}

/-- A file is as it was if its inode and blocks are. -/
theorem view_frame (hcur : cur s' l = cur s l)
    (hdata : ∀ c m, Own s.sb (cur s) s.disk c (l, m) → s'.disk c = s.disk c) :
    view s' l = view s l := by
  unfold view
  rw [hcur]
  by_cases ha : (cur s l).type = 0
  · rw [node, node, if_pos ha, if_pos ha]
  · have hl : l < ninum s.sb := by
      by_contra hge
      exact ha (cur_of_le (Nat.not_lt.1 hge) ▸ rfl)
    have hslot : ∀ m, slotAddr s'.disk (cur s l) m = slotAddr s.disk (cur s l) m := fun m =>
      slotAddr_congr (fun _ _ => rfl) (fun hne =>
        hdata _ NDIRECT (Owned.own_of_slot (j := NDIRECT) hl ha (by decide) hne)) m
    exact node_congr (fun n _ => hslot _) fun n hn hne =>
      hdata _ _ (Owned.own_of_slot hl ha (fileSlot_lt hn) hne)

theorem view_eq_update {nd : Node} (hother : ∀ l ≠ i, view s' l = view s l)
    (hi : view s' i = nd) : view s' = update (view s) i nd := by
  funext l
  by_cases hli : l = i
  · subst hli
    rw [update_self, hi]
  · rw [update_of_ne hli, hother l hli]

theorem view_type (s : FS) (i : ℕ) : (view s i).type = (cur s i).type :=
  node_type _ _

namespace Store

variable (h : Store x s) (hk : Loaded s k i)
include h hk

theorem view_loaded : view s i = ⟨(s.icache k).din.type, (s.icache k).din.major,
    (s.icache k).din.minor, (s.icache k).din.nlink, (s.icache k).din.size.toNat, fun n =>
      if n < MAXFILE ∧ fileAddr s.disk (s.icache k).din n ≠ 0 then
        some (s.disk (fileAddr s.disk (s.icache k).din n))
      else none⟩ := by
  rw [view, h.cur_eq hk, node, if_neg (h.typed k i hk)]

theorem type_eq : (view s i).type = (s.icache k).din.type := by rw [h.view_loaded hk]

theorem major_eq : (view s i).major = (s.icache k).din.major := by rw [h.view_loaded hk]

theorem minor_eq : (view s i).minor = (s.icache k).din.minor := by rw [h.view_loaded hk]

theorem nlink_eq : (view s i).nlink = (s.icache k).din.nlink := by rw [h.view_loaded hk]

theorem size_eq : (view s i).size = (s.icache k).din.size.toNat := by rw [h.view_loaded hk]

theorem blocks_eq (hn : n < MAXFILE) : (view s i).blocks n =
    if fileAddr s.disk (cur s i) n ≠ 0 then some (s.disk (fileAddr s.disk (cur s i) n))
    else none := by
  rw [h.view_loaded hk, h.cur_eq hk]
  simp only [hn, true_and]

theorem blocks_ne_none (hdev : (view s i).type ≠ T_DEV) (hn : n * BSIZE < (view s i).size) :
    n < MAXFILE ∧ (view s i).blocks n ≠ none := by
  rw [h.type_eq hk] at hdev
  rw [h.size_eq hk, ← h.cur_eq hk] at hn
  rw [← h.cur_eq hk] at hdev
  obtain ⟨hsize, haddr⟩ := h.owned.full i (h.lt hk) (h.cur_type hk) hdev
  have hlt : n < MAXFILE := Nat.lt_of_mul_lt_mul_right (hn.trans_le hsize)
  refine ⟨hlt, ?_⟩
  rw [h.blocks_eq hk hlt, if_pos (haddr n hn)]
  simp

end Store

/-! ## Changing the inode -/

/-- The copy of inode `i` is stored on the disk. -/
structure Flushed (s : FS) (i : ℕ) (s' : FS) : Prop where
  store : Store none s'
  cur_eq : cur s' = cur s
  view_eq : view s' = view s
  step : Step {IBLOCK i s.sb} 0 s s'
  slots : ∀ m, slotAddr s'.disk (cur s' i) m = slotAddr s.disk (cur s i) m
  free : freeBlocks s'.disk s.sb = freeBlocks s.disk s.sb
  logged : ∀ c, c ∈ s'.log.lh ↔ c = IBLOCK i s.sb ∨ c ∈ s.log.lh
  absorbed : Absorbed s.log.lh s'.log.lh
  fits : Fits s.log.lh.length s.log

/-- `iupdate` stores the copy of an inode. -/
theorem iupdate_spec (h : Store (some k) s) (hk : Loaded s k i) :
    wp (iupdate k) (fun _ s' => Flushed s i s') (fun _ _ => ¬ Fits s.log.lh.length s.log) s := by
  unfold iupdate
  rw [wp_bind, wp_get]
  dsimp only
  refine wp_mono (logWrite_spec s _ _) ?_
  rintro _ s' ⟨rfl, hfit⟩
  rw [hk.2.2]
  obtain ⟨hstore, hcur⟩ := h.flush hk
  have hdata : ∀ c, InData s.sb c → (s.write (IBLOCK i s.sb)
      (putDinode s.disk s.sb i (s.icache k).din)).disk c = s.disk c := fun c hc =>
    update_of_ne (h.geometry.data_ne_inode hc (h.lt hk)) _ _
  refine ⟨hstore, hcur, funext fun l => ?_, Step.write _ _ _, fun m => ?_, ?_, fun c => mem_absorb,
    Absorbed.absorb _ _, hfit⟩
  · exact view_frame (congrFun hcur l) fun c m hown =>
      hdata c (h.owned.exact.used_of_own _ _ hown).1
  · rw [hcur]
    refine slotAddr_congr (fun _ _ => rfl) (fun hne => hdata _ ?_) m
    exact h.owned.inData_of_slot (j := NDIRECT) (h.lt hk) (h.cur_type hk) NDIRECT_lt hne
  · refine Finset.filter_congr fun c hc => not_congr (used_congr ?_)
    have hbm := h.geometry.bitmap_block (Finset.mem_range.1 hc)
    have hino := h.geometry.inode_block (h.lt hk)
    exact update_of_ne (by omega) _ _

theorem iupdate_disk (s : FS) (k : Iptr) :
    wp (iupdate k) (fun _ s' => ∀ b, b ≠ IBLOCK (s.icache k).inum s.sb → s'.disk b = s.disk b)
      (fun _ _ => True) s := by
  unfold iupdate
  rw [wp_bind, wp_get]
  refine wp_mono' (logWrite_spec s _ _) ?_ fun _ _ _ => trivial
  rintro _ s' ⟨rfl, -⟩ b hb
  exact update_of_ne hb _ _

theorem Store.setDin_view (h : Store x s) (hx : x = none ∨ x = some k) (hk : Loaded s k i)
    {d : Dinode} (htype : d.type = (s.icache k).din.type)
    (haddrs : d.addrs = (s.icache k).din.addrs) (hfull : d.type ≠ T_DEV → Full s.disk d) :
    Store (some k) (s.setDin k d) ∧ view (s.setDin k d) = update (view s) i
      ⟨d.type, d.major, d.minor, d.nlink, d.size.toNat, (view s i).blocks⟩ := by
  have hcur := h.cur_eq hk
  have hdin : ((s.setDin k d).icache k).din = d := by simp [FS.setDin]
  have hne : d.type ≠ 0 := htype ▸ h.typed k i hk
  have howned : Owned s.sb (update (cur s) i d) s.disk :=
    h.owned.set_inode (h.cur_type hk) (hcur ▸ htype) (hcur ▸ haddrs) hfull
  obtain ⟨hstore, hcur'⟩ := h.change hx hk (show (s.setDin k d).sb = s.sb from rfl)
    (SameSlots.setDin s k d) (fun l hl => by simp [FS.setDin, hl])
      (fun _ _ => rfl) (hdin.symm ▸ hne)
    (hdin.symm ▸ howned)
  rw [hdin] at hcur'
  refine ⟨hstore, view_eq_update (fun l hl => ?_) ?_⟩
  · exact view_frame (by rw [hcur', update_of_ne hl]) fun _ _ _ => rfl
  · have hblk : (view s i).blocks = fun n => if n < MAXFILE ∧ fileAddr s.disk d n ≠ 0 then
        some (s.disk (fileAddr s.disk d n)) else none := by
      have haddr : ∀ n, fileAddr s.disk d n = fileAddr s.disk (s.icache k).din n := fun n =>
        slotAddr_congr (fun j _ => by simp only [Dinode.addr, haddrs]) (fun _ => rfl) _
      simp only [h.view_loaded hk, haddr]
    rw [hblk, view, hcur', update_self, node, if_neg hne]
    rfl

/-! ## Changing a block -/

theorem node_setBlock {disk : ℕ → Block} (disk' : ℕ → Block) {d : Dinode} (ha : d.type ≠ 0)
    (hn : n < MAXFILE)
    (hne : fileAddr disk d n ≠ 0) (haddr : ∀ m, fileAddr disk' d m = fileAddr disk d m)
    (hdata : ∀ m < MAXFILE, m ≠ n → fileAddr disk d m ≠ 0 →
      disk' (fileAddr disk d m) = disk (fileAddr disk d m)) :
    node disk' d = (node disk d).setBlock n (disk' (fileAddr disk d n)) := by
  unfold node Node.setBlock Node.setBlocks
  rw [if_neg ha, if_neg ha]
  refine Node.ext rfl rfl rfl rfl rfl (funext fun m => ?_)
  dsimp only
  rw [haddr m]
  by_cases hmn : m = n
  · subst hmn
    rw [update_self, if_pos ⟨hn, hne⟩]
  · rw [update_of_ne hmn]
    split_ifs with h0
    · rw [hdata m h0.1 hmn h0.2]
    · rfl

/-- A write to a block of file `i` changes that block only. -/
theorem Store.write_block (h : Store x s) (hk : Loaded s k i) (hn : n < MAXFILE)
    (hb : fileAddr s.disk (cur s i) n = b) (hne : b ≠ 0) (data : Block) :
    Store x (s.write b data) ∧ cur (s.write b data) = cur s ∧
      view (s.write b data) = update (view s) i ((view s i).setBlock n data) ∧
      (∀ m, slotAddr (s.write b data).disk (cur s i) m = slotAddr s.disk (cur s i) m) ∧
      freeBlocks (s.write b data).disk s.sb = freeBlocks s.disk s.sb := by
  have hi := h.lt hk
  have ha := h.cur_type hk
  have hown : Own s.sb (cur s) s.disk b (i, fileSlot n) := ⟨hi, ha, fileSlot_lt hn, hne, hb⟩
  have hin := (h.owned.exact.used_of_own _ _ hown).1
  obtain ⟨hstore, hcur⟩ := h.write_data data hown (fileSlot_ne n)
  have hslot := (h.owned.write_data h.geometry data hown (fileSlot_ne n)).2 i hi ha
  refine ⟨hstore, hcur, view_eq_update (fun l hl => ?_) ?_, hslot, ?_⟩
  · refine view_frame (congrFun hcur l) fun c m hown' => update_of_ne ?_ _ _
    rintro rfl
    exact hl (congrArg Prod.fst (h.owned.exact.unique _ _ _ hown' hown))
  · have hset := node_setBlock (s.write b data).disk ha hn (hb ▸ hne)
      (fun m => hslot (fileSlot m)) fun m hm hmn h0 => update_of_ne (fun heq => hmn ?_) _ _
    · rw [view, hcur, hset, hb]
      exact congrArg _ (update_self _ _ _)
    · have hown' := Owned.own_of_slot (D := cur s) hi ha (fileSlot_lt hm) h0
      have := h.owned.exact.unique _ _ _ hown' (heq ▸ hown)
      exact fileSlot_inj (congrArg Prod.snd this)
  · refine Finset.filter_congr fun c hc => not_congr (used_congr (update_of_ne ?_ _ _))
    exact (h.geometry.data_ne_bitmap hin (Finset.mem_range.1 hc)).symm

/-! ## Filling a slot -/

/-- Block `b`, free before, is in slot `j` of inode `i`. -/
structure Filled (s s' : FS) (k : Iptr) (i j b : ℕ) : Prop where
  store : Store (some k) s'
  env : s'.env = s.env
  same : SameSlots s s'
  other : ∀ l ≠ i, cur s' l = cur s l
  type : (cur s' i).type = (cur s i).type
  major : (cur s' i).major = (cur s i).major
  minor : (cur s' i).minor = (cur s i).minor
  nlink : (cur s' i).nlink = (cur s i).nlink
  size : (cur s' i).size = (cur s i).size
  slot : ∀ m < NSLOT, slotAddr s'.disk (cur s' i) m =
    if m = j then b else slotAddr s.disk (cur s i) m
  ne_zero : b ≠ 0
  free : ¬ Used s.disk s.sb b
  zero : s'.disk b = zeroBlock
  data : ∀ c, InData s.sb c → c ≠ b → c ≠ (cur s i).addr NDIRECT → s'.disk c = s.disk c
  free_eq : freeBlocks s'.disk s.sb = (freeBlocks s.disk s.sb).erase b

namespace Filled

variable (hf : Filled s s' k i j b) (h : Store x s) (hk : Loaded s k i)
include hf h hk

theorem disk_eq {c : ℕ} {m : ℕ × ℕ} (hown : Own s.sb (cur s) s.disk c m)
    (hm : m ≠ (i, NDIRECT)) : s'.disk c = s.disk c := by
  obtain ⟨hin, hused⟩ := h.owned.exact.used_of_own _ _ hown
  refine hf.data c hin ?_ ?_
  · rintro rfl
    exact hf.free hused
  · intro hc
    refine hm (h.owned.exact.unique c _ _ hown ?_)
    exact ⟨h.lt hk, h.cur_type hk, NDIRECT_lt, hown.2.2.2.1,
      (slotAddr_of_lt (Nat.lt_succ_self NDIRECT)).trans hc.symm⟩

theorem view_other (hl : l ≠ i) : view s' l = view s l :=
  view_frame (hf.other l hl) fun _ _ hown =>
    hf.disk_eq h hk hown fun heq => hl (congrArg Prod.fst heq)

theorem view_self : view s' i = (view s i).setBlocks fun n =>
    if n < MAXFILE ∧ fileSlot n = j then some zeroBlock else (view s i).blocks n := by
  have ha := h.cur_type hk
  have ha' : (cur s' i).type ≠ 0 := hf.type ▸ ha
  unfold view node Node.setBlocks
  rw [if_neg ha, if_neg ha']
  simp only [hf.type, hf.major, hf.minor, hf.nlink, hf.size, Node.mk.injEq, true_and]
  funext n
  by_cases hn : n < MAXFILE
  · have hslot := hf.slot _ (fileSlot_lt hn)
    simp only [hn, true_and, fileAddr, hslot]
    by_cases hj : fileSlot n = j
    · simp only [if_pos hj, ne_eq, hf.ne_zero, not_false_eq_true, if_true, hf.zero]
    · simp only [if_neg hj]
      split_ifs with hne
      · have hown := Owned.own_of_slot (h.lt hk) ha (fileSlot_lt hn) hne
        rw [hf.disk_eq h hk hown fun heq => fileSlot_ne n (congrArg Prod.snd heq)]
      · rfl
  · simp only [hn, false_and, if_false]

/-- A new block of the file holds zeros. -/
theorem view_block (hn : n < MAXFILE) (hj : j = fileSlot n) :
    view s' = update (view s) i ((view s i).setBlock n zeroBlock) := by
  refine view_eq_update (fun l hl => hf.view_other h hk hl) ?_
  rw [hf.view_self h hk, Node.setBlock]
  refine congrArg _ (funext fun m => ?_)
  by_cases hm : m = n
  · subst hm
    rw [update_self, if_pos ⟨hn, hj.symm⟩]
  · rw [update_of_ne hm, if_neg fun hmj => hm (fileSlot_inj (hmj.2.trans hj))]

/-- A new indirect block changes no file. -/
theorem view_indirect (hj : j = NDIRECT) : view s' = view s := by
  funext l
  by_cases hl : l = i
  · subst hl
    rw [hf.view_self h hk]
    have : ∀ n, ¬ (n < MAXFILE ∧ fileSlot n = j) := fun n hn => fileSlot_ne n (hn.2.trans hj)
    simp only [this, if_false, Node.setBlocks]
  · exact hf.view_other h hk hl

end Filled

end Xv6
