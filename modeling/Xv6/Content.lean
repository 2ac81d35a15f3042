import Xv6.Trunc
import Xv6.WriteSet

/-!
# File content

`readi` and `writei` of `fs.c` over the view of a store. A file is the list of its bytes
(`Node.data`). `readi` copies a part of the list and leaves the state as it is. `writei`
replaces a part of the list and appends to it; the loop works on whole blocks, and a block
that is allocated on the way starts as zeroes, so what the loop does is said byte by byte
for all bytes of the blocks, those past the size included (`Written`).
-/

open Function Prog Layout Finset

namespace Xv6

/-! ## Bytes of a file -/

/-- Byte `j` of the blocks of a file. -/
def Node.byte (nd : Node) (j : ℕ) : UInt8 :=
  ((nd.blocks (j / BSIZE)).getD zeroBlock).get (j % BSIZE)

/-- The content of a file. -/
def Node.data (nd : Node) : List UInt8 :=
  (List.range nd.size).map nd.byte

theorem Node.length_data (nd : Node) : nd.data.length = nd.size := by
  simp [Node.data]

theorem Node.data_slice (nd : Node) (off n : ℕ) : (nd.data.drop off).take n =
    (List.range (min n (nd.size - off))).map fun j => nd.byte (off + j) := by
  refine List.ext_getElem ?_ fun j hj hj' => ?_
  · simp [Node.data]
  · simp [Node.data, List.getElem_take, List.getElem_drop]

theorem Node.byte_block (nd : Node) {off j : ℕ} (hj : off % BSIZE + j < BSIZE) :
    nd.byte (off + j) = ((nd.blocks (off / BSIZE)).getD zeroBlock).get (off % BSIZE + j) := by
  have hdiv : (off + j) / BSIZE = off / BSIZE := by
    have : off % 512 + j < 512 := hj
    show (off + j) / 512 = off / 512
    omega
  have hmod : (off + j) % BSIZE = off % BSIZE + j := by
    have : off % 512 + j < 512 := hj
    show (off + j) % 512 = off % 512 + j
    omega
  rw [Node.byte, hdiv, hmod]

section

variable {s : FS} {x : Option Iptr} {k : Iptr} {i : ℕ}

theorem bmap_present (h : Store x s) (hx : x = none ∨ x = some k) (hk : Loaded s k i) {n : ℕ}
    (hn : n < MAXFILE) (hsome : (view s i).blocks n ≠ none) :
    wp (bmap k n) (fun b s' => s' = s ∧ s.disk b = ((view s i).blocks n).getD zeroBlock)
      (fun _ _ => False) s := by
  have hne : fileAddr s.disk (cur s i) n ≠ 0 := by
    intro h0
    rw [h.blocks_eq hk hn, if_neg (not_not.2 h0)] at hsome
    exact hsome rfl
  refine wp_mono' (bmap_spec h hx hk hn) (fun b s' hm => ?_) fun _ _ hno => hne hno.1
  rcases hm.store with ⟨rfl, -⟩ | ⟨-, hnone⟩
  · exact ⟨rfl, hm.data⟩
  · exact absurd hnone hsome

variable (h : Store x s) (hx : x = none ∨ x = some k) (hk : Loaded s k i)
  (hdev : (view s i).type ≠ T_DEV)
include h hx hk hdev

/-- The loop of `readi` copies bytes below the size and changes nothing. -/
theorem readiLoop_spec : ∀ (fuel off rem : ℕ), rem ≤ fuel → off + rem ≤ (view s i).size →
    wp (readiLoop k fuel off rem)
      (fun r s' => s' = s ∧ r = (List.range rem).map fun j => (view s i).byte (off + j))
      (fun _ _ => False) s
  | 0, off, rem, hfuel, _ => by
    obtain rfl : rem = 0 := Nat.le_zero.1 hfuel
    exact ⟨rfl, rfl⟩
  | fuel + 1, off, rem, hfuel, hsize => by
    unfold readiLoop
    by_cases hrem : rem = 0
    · rw [if_pos hrem, hrem]
      exact ⟨rfl, rfl⟩
    rw [if_neg hrem]
    have hblk : off / BSIZE * BSIZE < (view s i).size := by
      have : off / BSIZE * BSIZE ≤ off := Nat.div_mul_le_self off BSIZE
      omega
    obtain ⟨hn, hsome⟩ := h.blocks_ne_none hk hdev hblk
    refine wp_seq (bmap_present h hx hk hn hsome) ?_
    rintro b s' ⟨hs', hdata⟩
    rw [hs', wp_bind, wp_bread]
    set m := min rem (BSIZE - off % BSIZE) with hm
    have hmod : off % BSIZE < BSIZE := Nat.mod_lt _ (by decide)
    have hm1 : 1 ≤ m := by omega
    have hmle : m ≤ rem := Nat.min_le_left _ _
    refine wp_seq (readiLoop_spec fuel (off + m) (rem - m) (by omega) (by omega)) ?_
    rintro r s'' ⟨hs'', rfl⟩
    rw [wp_pure]
    refine ⟨hs'', ?_⟩
    have hsplit : List.range rem = List.range m ++ (List.range (rem - m)).map (m + ·) := by
      rw [← List.range_add, Nat.add_sub_cancel' hmle]
    rw [hsplit, List.map_append, List.map_map, hdata]
    refine congrArg₂ (· ++ ·) (List.map_congr_left fun j hj => ?_)
      (List.map_congr_left fun j _ => ?_)
    · have hj' : j < m := List.mem_range.1 hj
      exact ((view s i).byte_block (by omega)).symm
    · rw [comp_apply, Nat.add_assoc]

/-- `readi` of a file fails past the end or when the end of the range wraps, and otherwise
returns the part of the content in the range. -/
theorem readi_spec (off n : UInt32) :
    wp (readi k off n) (fun r s' => s' = s ∧ r =
        if (view s i).size < off.toNat ∨ 2 ^ 32 ≤ off.toNat + n.toNat then none
        else some (((view s i).data.drop off.toNat).take n.toNat))
      (fun _ _ => False) s := by
  have hsize := h.size_eq hk
  unfold readi
  rw [wp_bind, wp_get]
  dsimp only
  rw [if_neg (h.type_eq hk ▸ hdev)]
  have hwrap : off + n < off ↔ 2 ^ 32 ≤ off.toNat + n.toNat := by
    have := off.toNat_lt
    have := n.toNat_lt
    rw [UInt32.lt_iff_toNat_lt, UInt32.toNat_add]
    omega
  have hbad : (off > (s.icache k).din.size ∨ off + n < off) ↔
      ((view s i).size < off.toNat ∨ 2 ^ 32 ≤ off.toNat + n.toNat) := by
    rw [hwrap, gt_iff_lt, UInt32.lt_iff_toNat_lt, hsize]
  by_cases hb : off > (s.icache k).din.size ∨ off + n < off
  · rw [if_pos hb, wp_pure, if_pos (hbad.1 hb)]
    exact ⟨rfl, rfl⟩
  rw [if_neg hb, if_neg (mt hbad.2 hb)]
  rw [hbad, not_or, Nat.not_lt, Nat.not_le] at hb
  have hcut : (if off + n > (s.icache k).din.size then (s.icache k).din.size - off else n).toNat =
      min n.toNat ((view s i).size - off.toNat) := by
    have hadd : (off + n).toNat = off.toNat + n.toNat := by
      rw [UInt32.toNat_add, Nat.mod_eq_of_lt hb.2]
    split_ifs with hgt
    · rw [gt_iff_lt, UInt32.lt_iff_toNat_lt, hadd, ← hsize] at hgt
      have hle : off ≤ (s.icache k).din.size := by
        rw [UInt32.le_iff_toNat_le, ← hsize]
        exact hb.1
      rw [UInt32.toNat_sub_of_le _ _ hle, ← hsize]
      omega
    · rw [gt_iff_lt, UInt32.lt_iff_toNat_lt, hadd, ← hsize] at hgt
      omega
  rw [hcut]
  refine wp_seq (readiLoop_spec h hx hk hdev _ _ _ le_rfl (by omega)) ?_
  rintro r s' ⟨rfl, rfl⟩
  rw [wp_pure]
  exact ⟨rfl, congrArg some (Node.data_slice _ _ _).symm⟩

end

/-! ## The loop of `writei` -/

/-- The blocks of the `rem` bytes at offset `off` of a file. -/
def span (off rem : ℕ) : Finset ℕ :=
  if rem = 0 then ∅ else Finset.Ico (off / BSIZE) ((off + rem - 1) / BSIZE + 1)

/-- Bytes the turn of the loop at offset `off` copies. -/
def turn (off rem : ℕ) : ℕ :=
  min rem (BSIZE - off % BSIZE)

theorem turn_pos (off : ℕ) {rem : ℕ} (h : rem ≠ 0) : 0 < turn off rem := by
  have : off % BSIZE < BSIZE := Nat.mod_lt _ (by decide)
  unfold turn
  omega

theorem turn_le (off rem : ℕ) : turn off rem ≤ rem :=
  Nat.min_le_left _ _

theorem off_add_turn (off rem : ℕ) : off % BSIZE + turn off rem ≤ BSIZE := by
  have : off % BSIZE < BSIZE := Nat.mod_lt _ (by decide)
  unfold turn
  omega

theorem span_turn (off : ℕ) {rem : ℕ} (h : rem ≠ 0) :
    span off rem = insert (off / BSIZE) (span (off + turn off rem) (rem - turn off rem)) ∧
      off / BSIZE ∉ span (off + turn off rem) (rem - turn off rem) := by
  have hturn : turn off rem = min rem (512 - off % 512) := rfl
  rw [span, if_neg h, span]
  by_cases hle : rem ≤ 512 - off % 512
  · have hm : turn off rem = rem := by omega
    rw [hm, if_pos (Nat.sub_self rem)]
    refine ⟨?_, notMem_empty _⟩
    ext c
    simp only [mem_Ico, mem_insert, notMem_empty, or_false]
    show off / 512 ≤ c ∧ c < (off + rem - 1) / 512 + 1 ↔ c = off / 512
    omega
  · have hm : turn off rem = 512 - off % 512 := by omega
    rw [if_neg (by omega)]
    have hend : off + turn off rem + (rem - turn off rem) - 1 = off + rem - 1 := by omega
    have hnext : (off + turn off rem) / BSIZE = off / BSIZE + 1 := by
      show (off + turn off rem) / 512 = off / 512 + 1
      omega
    rw [hend, hnext]
    constructor
    · ext c
      simp only [mem_Ico, mem_insert]
      show off / 512 ≤ c ∧ c < (off + rem - 1) / 512 + 1 ↔
        c = off / 512 ∨ off / 512 + 1 ≤ c ∧ c < (off + rem - 1) / 512 + 1
      omega
    · simp

theorem div_lt_last {off rem : ℕ} (h : rem - turn off rem ≠ 0) :
    off / BSIZE < (off + rem - 1) / BSIZE := by
  have hturn : turn off rem = min rem (512 - off % 512) := rfl
  show off / 512 < (off + rem - 1) / 512
  omega

theorem span_lt {off rem n : ℕ} (h : off + rem ≤ MAXFILE * BSIZE) (hn : n ∈ span off rem) :
    n < MAXFILE := by
  unfold span at hn
  split_ifs at hn with h0
  · exact absurd hn (notMem_empty n)
  · rw [mem_Ico] at hn
    have h' : off + rem ≤ 140 * 512 := h
    have hn' : n < (off + rem - 1) / 512 + 1 := hn.2
    show n < 140
    omega

theorem span_slots_lt {off rem : ℕ} (h : off + rem ≤ MAXFILE * BSIZE) :
    ∀ j ∈ (span off rem).biUnion bmapSlots, j < NSLOT :=
  slots_lt fun _ => span_lt h

/-- Free blocks for `writei` of `rem` bytes at offset `off` of file `i`. -/
def EnoughBlocks (s : FS) (i off rem : ℕ) : Prop :=
  missing ((span off rem).biUnion bmapSlots) s.disk (cur s i) ≤ (freeBlocks s.disk s.sb).card

/-- The blocks of the file `writei` has logged when it logs a block for the last time. This is the
block of the inode when the file grows, and otherwise the last block of the range. -/
def logged (s : FS) (i off rem : ℕ) : Finset ℕ :=
  if off + rem ≤ (view s i).size then (span off rem).erase ((off + rem - 1) / BSIZE)
  else span off rem

/-- Room in the log for it. -/
def EnoughRoom (s : FS) (i off rem : ℕ) : Prop :=
  rem ≠ 0 → Fits (load (writeSet s i (logged s i off rem)) s.log.lh) s.log

/-- Free blocks and room in the log. -/
def Enough (s : FS) (i off rem : ℕ) : Prop :=
  EnoughBlocks s i off rem ∧ EnoughRoom s i off rem

/-- The blocks of the range that are new or not the last one. -/
def early (s : FS) (i off rem : ℕ) : Finset ℕ :=
  (span off rem).filter fun n =>
    n < (off + rem - 1) / BSIZE ∨ fileAddr s.disk (cur s i) n = 0

/-- The `rem` bytes at offset `off` of file `i` are those of `src`. The copy in slot `k` is
ahead of the disk only when the file is to grow. -/
structure Written (s : FS) (k : Iptr) (i : ℕ) (src : ℕ → UInt8) (off rem : ℕ) (s' : FS) :
    Prop where
  store : Store (if off + rem ≤ (view s i).size then none else some k) s'
  env : s'.env = s.env
  same : SameSlots s s'
  other : ∀ l ≠ i, view s' l = view s l
  self : view s' i = (view s i).setBlocks (view s' i).blocks
  kept : ∀ n, (view s i).blocks n ≠ none → (view s' i).blocks n ≠ none
  here : ∀ n ∈ span off rem, (view s' i).blocks n ≠ none
  byte : ∀ j, (view s' i).byte j =
    if off ≤ j ∧ j < off + rem then src (j - off) else (view s i).byte j
  slots : ∀ m < NSLOT, slotAddr s.disk (cur s i) m ≠ 0 →
    slotAddr s'.disk (cur s' i) m = slotAddr s.disk (cur s i) m
  missing_eq : ∀ T, (span off rem).biUnion bmapSlots ⊆ T → (∀ m ∈ T, m < NSLOT) →
    missing T s'.disk (cur s' i) + (freeBlocks s.disk s.sb).card =
      missing T s.disk (cur s i) + (freeBlocks s'.disk s.sb).card
  took : ∃ N, Took s i (span off rem) (present s i (span off rem)) N s'

section

variable {s s1 s' : FS} {k : Iptr} {i b off rem : ℕ} {src : ℕ → UInt8}

theorem Written.refl (h : Store (if off ≤ (view s i).size then none else some k) s) :
    Written s k i src off 0 s where
  store := h
  env := rfl
  same := SameSlots.refl s
  other _ _ := rfl
  self := rfl
  kept _ := id
  here n hn := absurd hn (notMem_empty n)
  byte j := (if_neg (by omega)).symm
  slots _ _ _ := rfl
  missing_eq _ _ _ := rfl
  took := ⟨∅, Took.refl s i fun ⟨n, hn, _⟩ => absurd hn (notMem_empty n)⟩

theorem Written.absorbed {s' : FS} (hw : Written s k i src off rem s') :
    Absorbed s.log.lh s'.log.lh := by
  obtain ⟨N, htook⟩ := hw.took
  exact htook.absorbed

theorem Written.free_subset {s' : FS} (hw : Written s k i src off rem s') :
    freeBlocks s'.disk s.sb ⊆ freeBlocks s.disk s.sb := by
  obtain ⟨N, htook⟩ := hw.took
  rw [htook.free_eq]
  exact sdiff_subset

theorem byte_turn {nd : Node} {data : Block}
    (hdata : data = (nd.blocks (off / BSIZE)).getD zeroBlock)
    (j : ℕ) :
    (nd.setBlock (off / BSIZE) (data.blit (off % BSIZE) (turn off rem) src)).byte j =
      if off ≤ j ∧ j < off + turn off rem then src (j - off) else nd.byte j := by
  have hfit : off % 512 + turn off rem ≤ 512 := off_add_turn off rem
  have hmod : j % BSIZE < BSIZE := Nat.mod_lt _ (by decide)
  by_cases hj : j / BSIZE = off / BSIZE
  · have hj' : j / 512 = off / 512 := hj
    simp only [Node.byte, Node.setBlock, Node.setBlocks, hj, update_self, Option.getD_some]
    rw [Bytes.get_blit _ _ _ _ hmod, hdata]
    have hiff : (off % BSIZE ≤ j % BSIZE ∧ j % BSIZE < off % BSIZE + turn off rem) ↔
        (off ≤ j ∧ j < off + turn off rem) := by
      show (off % 512 ≤ j % 512 ∧ j % 512 < off % 512 + turn off rem) ↔ _
      omega
    have hsub : off ≤ j → j % BSIZE - off % BSIZE = j - off := by
      intro hle
      show j % 512 - off % 512 = j - off
      omega
    by_cases hin : off ≤ j ∧ j < off + turn off rem
    · rw [if_pos (hiff.2 hin), if_pos hin, hsub hin.1]
    · rw [if_neg (mt hiff.1 hin), if_neg hin]
  · have hout : ¬ (off ≤ j ∧ j < off + turn off rem) := by
      have hj' : ¬ j / 512 = off / 512 := hj
      omega
    rw [if_neg hout]
    simp only [Node.byte, Node.setBlock, Node.setBlocks, update_of_ne hj]

variable (hk : Loaded s k i) (hdev : (view s i).type ≠ T_DEV) (hrem : rem ≠ 0)
  (hend : off + rem ≤ MAXFILE * BSIZE)
include hk hdev hrem hend

theorem Mapped.turn (h : Store (if off ≤ (view s i).size then none else some k) s)
    (hm : Mapped s k i (off / BSIZE) b s1) (data : Block) :
    Store (if off + Xv6.turn off rem ≤ (view s i).size then none else some k) (s1.write b data) ∧
      view (s1.write b data) =
        update (view s) i ((view s i).setBlock (off / BSIZE) data) ∧
      cur (s1.write b data) = cur s1 ∧
      (∀ m, slotAddr (s1.write b data).disk (cur s1 i) m = slotAddr s1.disk (cur s1 i) m) ∧
      freeBlocks (s1.write b data).disk s.sb = freeBlocks s1.disk s.sb := by
  have hpos := turn_pos off hrem
  have hq : off / BSIZE < MAXFILE := by
    have : off + rem ≤ 140 * 512 := hend
    show off / 512 < 140
    omega
  have hk1 := hm.same.loaded.2 hk
  have hstore : Store (if off + Xv6.turn off rem ≤ (view s i).size then none else some k) s1 := by
    rcases hm.store with ⟨rfl, -⟩ | ⟨hst, hnone⟩
    · split_ifs with hle
      · rwa [if_pos (by omega)] at h
      · split_ifs at h
        · exact h.mono _
        · exact h
    · -- a block below the size is there, so the new one is past the end
      have hge : ¬ off / BSIZE * BSIZE < (view s i).size :=
        fun hlt => (h.blocks_ne_none hk hdev hlt).2 hnone
      have : off / BSIZE * BSIZE ≤ off := Nat.div_mul_le_self off BSIZE
      rw [if_neg (by omega)]
      exact hst
  obtain ⟨hst, hcur, hview, hslot, hfree⟩ := hstore.write_block hk1 hq hm.addr hm.ne_zero data
  refine ⟨hst, ?_, hcur, hslot, ?_⟩
  · rw [hview, hm.view_eq, update_self, update_idem, Node.setBlock_setBlock]
  · rw [← FS.sb_of_env hm.env]
    exact hfree

/-- A turn of the loop, and then the rest. -/
theorem Written.turn (h : Store (if off ≤ (view s i).size then none else some k) s)
    (hm : Mapped s k i (off / BSIZE) b s1)
    (hw : Written (s1.write b ((s1.disk b).blit (off % BSIZE) (Xv6.turn off rem) src)) k i
      (fun j => src (Xv6.turn off rem + j)) (off + Xv6.turn off rem) (rem - Xv6.turn off rem) s') :
    Written s k i src off rem s' := by
  obtain ⟨-, hview, hcur, hslot, hfree⟩ := hm.turn hk hdev hrem hend h
    ((s1.disk b).blit (off % BSIZE) (Xv6.turn off rem) src)
  obtain ⟨hspan, hnotin⟩ := span_turn off hrem
  have hle := turn_le off rem
  have hq : off / BSIZE < MAXFILE :=
    span_lt hend (hspan ▸ mem_insert_self _ _)
  set m := Xv6.turn off rem
  set s2 := s1.write b ((s1.disk b).blit (off % BSIZE) m src)
  have hself2 : view s2 i = (view s i).setBlock (off / BSIZE)
      ((s1.disk b).blit (off % BSIZE) m src) := by rw [hview, update_self]
  have hsize2 : (view s2 i).size = (view s i).size := by rw [hself2, Node.setBlock_size]
  have hsb1 : s1.sb = s.sb := FS.sb_of_env hm.env
  have hsb2 : s2.sb = s.sb := hsb1
  have hblk2 : ∀ n ≠ off / BSIZE, (view s2 i).blocks n = (view s i).blocks n := by
    intro n hn
    rw [hself2, Node.setBlock_blocks, update_of_ne hn]
  have hblk2' : (view s2 i).blocks (off / BSIZE) ≠ none := by
    rw [hself2]
    simp [Node.setBlock, Node.setBlocks]
  have hne : ∀ n ∈ span (off + m) (rem - m), n ≠ off / BSIZE := by
    rintro n hn rfl
    exact hnotin hn
  -- what the first turn put into a slot stays there
  have hslots : ∀ j < NSLOT, slotAddr s1.disk (cur s1 i) j ≠ 0 →
      slotAddr s'.disk (cur s' i) j = slotAddr s1.disk (cur s1 i) j := by
    intro j hj hj0
    have hj2 := hw.slots j hj
    rw [hcur, hslot] at hj2
    exact hj2 hj0
  have hind : NDIRECT ≤ off / BSIZE → (cur s' i).addr NDIRECT = (cur s1 i).addr NDIRECT := by
    intro hge
    have hne := indirect_ne_zero hge (hm.addr.symm ▸ hm.ne_zero)
    have hN := hslots NDIRECT NDIRECT_lt
    rw [slotAddr_of_lt (Nat.lt_succ_self _), slotAddr_of_lt (Nat.lt_succ_self _)] at hN
    exact hN hne
  refine
    { store := ?_
      env := hw.env.trans hm.env
      same := hm.same.trans hw.same
      other := fun l hl => ?_
      self := ?_
      kept := fun n hn => ?_
      here := fun n hn => ?_
      byte := fun j => ?_
      slots := fun j hj hj0 => ?_
      missing_eq := fun T hT hlt => ?_
      took := ?_ }
  · have hst := hw.store
    rwa [hsize2, show off + m + (rem - m) = off + rem by omega] at hst
  · rw [hw.other l hl, hview, update_of_ne hl]
  · have hs := hw.self
    rwa [hself2, Node.setBlock_setBlocks] at hs
  · refine hw.kept n ?_
    by_cases hnq : n = off / BSIZE
    · rw [hnq]
      exact hblk2'
    · rwa [hblk2 n hnq]
  · rw [hspan, mem_insert] at hn
    rcases hn with rfl | hn
    · exact hw.kept _ hblk2'
    · exact hw.here n hn
  · rw [hw.byte j, hself2, byte_turn hm.data]
    by_cases h1 : off ≤ j ∧ j < off + m
    · rw [if_neg (by omega), if_pos h1, if_pos (by omega)]
    · by_cases h2 : off + m ≤ j ∧ j < off + m + (rem - m)
      · rw [if_pos h2, if_pos (by omega), show m + (j - (off + m)) = j - off by omega]
      · rw [if_neg h2, if_neg h1, if_neg (by omega)]
  · have hj1 := hm.slots j hj (.inl hj0)
    rw [hslots j hj (hj1 ▸ hj0), hj1]
  · rw [hspan, biUnion_insert, union_subset_iff] at hT
    have h1 := hm.missing_eq T hT.1 hlt
    have h2 := hw.missing_eq T hT.2 hlt
    have h3 : missing T s2.disk (cur s2 i) = missing T s1.disk (cur s1 i) := by
      simp only [missing, hcur, hslot]
    rw [hsb2, h3, hfree] at h2
    omega
  · obtain ⟨N, htook, hnew⟩ := hm.took
    obtain ⟨N', htook'⟩ := hw.took
    have haddr' : ∀ n ∈ span (off + m) (rem - m),
        fileAddr s2.disk (cur s2 i) n = fileAddr s.disk (cur s i) n := by
      intro n hn
      rw [fileAddr, hcur, hslot]
      exact hm.fileAddr_eq (span_lt (by omega) hn) fun heq => hnotin (heq ▸ hn)
    have hpresent : present s i (span off rem) =
        present s i {off / BSIZE} ∪ present s2 i (span (off + m) (rem - m)) := by
      rw [hspan, insert_eq, present, image_union, erase_union_distrib,
        present, present, image_congr haddr']
    refine ⟨N ∪ N', ?_⟩
    rw [hpresent, hspan, insert_eq]
    refine (htook.write hm hq hnew hcur hslot hfree).trans htook' hsb2 (fun n hn => ?_) ?_
    · rw [haddr' n hn]
    · rintro ⟨n, hn, hge, -⟩
      rw [mem_singleton.1 hn] at hge
      rw [hind hge, hcur]

theorem EnoughBlocks.turn (h : Store (if off ≤ (view s i).size then none else some k) s)
    (hen : EnoughBlocks s i off rem) (hm : Mapped s k i (off / BSIZE) b s1) (data : Block) :
    EnoughBlocks (s1.write b data) i (off + Xv6.turn off rem) (rem - Xv6.turn off rem) := by
  obtain ⟨-, -, hcur, hslot, hfree⟩ := hm.turn hk hdev hrem hend h data
  obtain ⟨hspan, -⟩ := span_turn off hrem
  have hsb : (s1.write b data).sb = s.sb := FS.sb_of_env hm.env
  have hT : bmapSlots (off / BSIZE) ⊆ (span off rem).biUnion bmapSlots :=
    subset_biUnion_of_mem bmapSlots (hspan ▸ mem_insert_self _ _)
  have heq := hm.missing_eq _ hT (span_slots_lt hend)
  unfold EnoughBlocks at hen ⊢
  set m := Xv6.turn off rem
  have hsub : (span (off + m) (rem - m)).biUnion bmapSlots ⊆ (span off rem).biUnion bmapSlots :=
    biUnion_subset_biUnion_of_subset_left _ (hspan ▸ subset_insert _ _)
  have hle := missing_mono hsub s1.disk (cur s1 i)
  have hmiss : missing ((span (off + m) (rem - m)).biUnion bmapSlots) (s1.write b data).disk
      (cur (s1.write b data) i) =
        missing ((span (off + m) (rem - m)).biUnion bmapSlots) s1.disk (cur s1 i) := by
    simp only [missing, hcur, hslot]
  rw [hmiss, hsb, hfree]
  omega

omit hk hdev in
theorem early_turn (hm : Mapped s k i (off / BSIZE) b s1) {s2 : FS}
    (haddr : fileAddr s2.disk (cur s2 i) = fileAddr s1.disk (cur s1 i)) :
    early s2 i (off + Xv6.turn off rem) (rem - Xv6.turn off rem) ⊆ early s i off rem := by
  obtain ⟨hspan, hnotin⟩ := span_turn off hrem
  have hle := turn_le off rem
  set m := Xv6.turn off rem
  intro n hn
  obtain ⟨hmem, hn⟩ := mem_filter.1 hn
  have hmem' : n ∈ span off rem := hspan ▸ mem_insert_of_mem hmem
  rw [haddr, hm.fileAddr_eq (span_lt hend hmem') fun heq => hnotin (heq ▸ hmem),
    show off + m + (rem - m) = off + rem by omega] at hn
  exact mem_filter.2 ⟨hmem', hn⟩

omit hrem in
/-- The loop of `writei` writes the bytes. It fails when free blocks are missing, or room in the
log for what is logged before the last block. -/
theorem writeiLoop_spec (h : Store (if off ≤ (view s i).size then none else some k) s)
    {n tot fuel : ℕ} (htot : n - tot = rem) (hfuel : rem ≤ fuel) {V : Finset ℕ}
    (hV : writeSet s i (early s i off rem) ⊆ V) :
    wp (writeiLoop k src n fuel off tot)
      (fun _ s' => Written s k i (fun j => src (tot + j)) off rem s')
      (fun x _ => rem ≠ 0 ∧
        Lacks x (EnoughBlocks s i off rem) (Fits (load V s.log.lh) s.log)) s := by
  induction fuel generalizing s off tot rem with
  | zero =>
    obtain rfl : rem = 0 := Nat.le_zero.1 hfuel
    exact Written.refl h
  | succ fuel ih =>
    unfold writeiLoop
    by_cases hrem : n ≤ tot
    · obtain rfl : rem = 0 := by omega
      rw [if_pos hrem]
      exact Written.refl h
    rw [if_neg hrem]
    have hrem' : rem ≠ 0 := by omega
    obtain ⟨hspan, hnotin⟩ := span_turn off hrem'
    have hmem : off / BSIZE ∈ span off rem := hspan ▸ mem_insert_self _ _
    have hq := span_lt hend hmem
    have hlt : ∀ m ∈ early s i off rem, m < MAXFILE := fun m hm =>
      span_lt hend (mem_filter.1 hm).1
    have hnew : fileAddr s.disk (cur s i) (off / BSIZE) = 0 → off / BSIZE ∈ early s i off rem :=
      fun h0 => mem_filter.2 ⟨hmem, .inr h0⟩
    have hx : (if off ≤ (view s i).size then none else some k) = none ∨
        (if off ≤ (view s i).size then none else some k) = some k := by
      split_ifs
      · exact .inl rfl
      · exact .inr rfl
    refine wp_seq (wp_mono' (bmap_spec h hx hk hq) (fun _ _ => id) fun _ _ hno => ⟨hrem',
      (hno.2 V (covers_writeSet hV (hnew hno.1))).mono (fun hen => ?_) id⟩) ?_
    · exact (missing_mono (subset_biUnion_of_mem bmapSlots hmem) _ _).trans hen
    intro b s1 hm
    have hkept : fileAddr s.disk (cur s i) (off / BSIZE) ≠ 0 ∧ s1 = s ∨
        off / BSIZE ∈ early s i off rem := by
      by_cases h0 : fileAddr s.disk (cur s i) (off / BSIZE) = 0
      · exact .inr (hnew h0)
      · refine .inl ⟨h0, hm.store.elim And.left fun hst => absurd hst.2 ?_⟩
        simp [h.blocks_eq hk hq, h0]
    have hload : load V s1.log.lh = load V s.log.lh := by
      rcases hkept with ⟨-, rfl⟩ | hin
      · rfl
      · obtain ⟨N, htook, -⟩ := hm.took
        exact htook.absorbed.load_eq V fun c hc =>
          ((hm.mem_writeSet hlt hin).2 c hc).imp_right fun hc => hV hc
    rw [wp_bind, wp_bread]
    dsimp only
    rw [htot]
    refine wp_seq (wp_mono' (logWrite_spec s1 _ _) (fun _ _ => id) fun _ _ hno =>
      ⟨hrem', .inr fun hfit => hno (hfit.of_env hm.env ?_)⟩) ?_
    · exact (length_le_load V _).trans_eq hload
    rintro _ s2 ⟨rfl, -⟩
    have hle := turn_le off rem
    have hpos' := turn_pos off hrem'
    obtain ⟨hst, hview, hcur, hslot, hfree⟩ := hm.turn hk hdev hrem' hend h
      ((s1.disk b).blit (off % BSIZE) (turn off rem) fun j => src (tot + j))
    have hself : ∀ data, (update (view s) i ((view s i).setBlock (off / BSIZE) data)) i =
        (view s i).setBlock (off / BSIZE) data := fun _ => update_self _ _ _
    have hk2 : Loaded (s1.write b ((s1.disk b).blit (off % BSIZE) (turn off rem)
        fun j => src (tot + j))) k i := hm.same.loaded.2 hk
    set s2 := s1.write b ((s1.disk b).blit (off % BSIZE) (turn off rem) fun j => src (tot + j))
    have hslot2 : ∀ m, slotAddr s2.disk (cur s2 i) m = slotAddr s1.disk (cur s1 i) m :=
      fun m => by rw [hcur, hslot]
    have hsb : s1.sb = s.sb := FS.sb_of_env hm.env
    have hV2 : writeSet s2 i (early s2 i (off + turn off rem) (rem - turn off rem)) ⊆ V := by
      rw [writeSet_congr (show s2.sb = s1.sb from rfl) hslot2 (hsb ▸ hfree)]
      refine (hm.writeSet_subset hlt ?_ (fun hin => ?_) hkept).trans hV
      · exact early_turn hrem' hend hm (slots_congr hslot2).1
      · exact hnotin (mem_filter.1 hin).1
    change wp (writeiLoop k src n fuel (off + turn off rem) (tot + turn off rem)) _ _ _
    refine wp_mono' (ih hk2 ?_ (by omega) ?_ (by omega) (by omega) hV2) (fun _ s' hw => ?_)
      fun _ _ hno => ⟨hrem', hno.2.mono (fun hen => hen.turn hk hdev hrem' hend h hm _)
        fun hfit => hfit.of_env hm.env ?_⟩
    · rwa [hview, hself, Node.setBlock_type]
    · rwa [hview, hself, Node.setBlock_size]
    · refine Written.turn hk hdev hrem' hend h hm ?_
      simpa only [Nat.add_assoc] using hw
    · -- another turn follows, so the block is not the last one
      have hin : off / BSIZE ∈ early s i off rem :=
        mem_filter.2 ⟨hmem, .inl (div_lt_last hno.1)⟩
      exact (load_absorb_of_mem (hV (hm.mem_writeSet hlt hin).1) _).trans_le hload.le

end

/-! ## `writei` -/

/-- `writei` of `rem` bytes at offset `off` of file `i` took place. -/
structure Stored (s : FS) (k : Iptr) (i : ℕ) (src : ℕ → UInt8) (off rem : ℕ) (s' : FS) : Prop where
  store : Store none s'
  env : s'.env = s.env
  same : SameSlots s s'
  other : ∀ l ≠ i, view s' l = view s l
  self : view s' i =
    ((view s i).setBlocks (view s' i).blocks).setSize (max (view s i).size (off + rem))
  byte : ∀ j, (view s' i).byte j =
    if off ≤ j ∧ j < off + rem then src (j - off) else (view s i).byte j
  missing_eq : ∀ T, (span off rem).biUnion bmapSlots ⊆ T → (∀ m ∈ T, m < NSLOT) →
    missing T s'.disk (cur s' i) + (freeBlocks s.disk s.sb).card =
      missing T s.disk (cur s i) + (freeBlocks s'.disk s.sb).card
  free_subset : freeBlocks s'.disk s.sb ⊆ freeBlocks s.disk s.sb
  absorbed : Absorbed s.log.lh s'.log.lh
  mem_lh : ∀ c, c ∈ s'.log.lh ↔ c ∈ s.log.lh ∨ c ∈ writeSet s i (span off rem) ∨
    (view s i).size < off + rem ∧ c = IBLOCK i s.sb
  fits : (view s i).size < off + rem →
    Fits (load (writeSet s i (span off rem)) s.log.lh) s.log

section

variable {s s1 : FS} {k : Iptr} {i off rem : ℕ} {src : ℕ → UInt8}

theorem Node.data_write {nd nd' : Node} (hsize : nd'.size = max nd.size (off + rem))
    (hbyte : ∀ j, nd'.byte j = if off ≤ j ∧ j < off + rem then src (j - off) else nd.byte j)
    (hoff : off ≤ nd.size) :
    nd'.data = nd.data.take off ++ (List.range rem).map src ++ nd.data.drop (off + rem) := by
  refine List.ext_getElem ?_ fun j hj hj' => ?_
  · simp only [Node.length_data, hsize, List.length_append, List.length_take, List.length_map,
      List.length_range, List.length_drop]
    omega
  · rw [Node.length_data, hsize] at hj
    simp only [List.getElem_append, List.length_append, List.length_take, Node.length_data,
      List.length_map, List.length_range, Nat.min_eq_left hoff]
    simp only [Node.data, List.getElem_map, List.getElem_range, List.getElem_take,
      List.getElem_drop, hbyte]
    split_ifs <;> first | rfl | omega | skip
    rw [show off + rem + (j - (off + rem)) = j by omega]

theorem Stored.data {s' : FS} (hs : Stored s k i src off rem s') (hoff : off ≤ (view s i).size) :
    (view s' i).data = (view s i).data.take off ++ (List.range rem).map src ++
      (view s i).data.drop (off + rem) :=
  Node.data_write (by rw [hs.self, Node.setSize_size]) hs.byte hoff

theorem Written.full {s' : FS} (h : Store none s) (hk : Loaded s k i)
    (hdev : (view s i).type ≠ T_DEV) (hoff : off ≤ (view s i).size)
    (hend : off + rem ≤ MAXFILE * BSIZE) (hw : Written s k i src off rem s') {n : ℕ}
    (hn : n * BSIZE < max (view s i).size (off + rem)) :
    fileAddr s'.disk (cur s' i) n ≠ 0 := by
  have hk' := hw.same.loaded.2 hk
  have hsome : n < MAXFILE ∧ (view s' i).blocks n ≠ none := by
    by_cases hlt : n * BSIZE < (view s i).size
    · obtain ⟨hn, hne⟩ := h.blocks_ne_none hk hdev hlt
      exact ⟨hn, hw.kept n hne⟩
    · have hmem : n ∈ span off rem := by
        have hlt' : ¬ n * 512 < (view s i).size := hlt
        have hn' : n * 512 < max (view s i).size (off + rem) := hn
        rw [span, if_neg (by omega), mem_Ico]
        show off / 512 ≤ n ∧ n < (off + rem - 1) / 512 + 1
        omega
      exact ⟨span_lt hend hmem, hw.here n hmem⟩
  intro h0
  rw [hw.store.blocks_eq hk' hsome.1, if_neg (not_not.2 h0)] at hsome
  exact hsome.2 rfl

theorem Stored.loads {s' : FS} (hs : Stored s k i src off rem s') {V : Finset ℕ}
    (hV : bitmapBlocks s.sb ⊆ V) (hi : IBLOCK i s.sb ∈ V) :
    load V s'.log.lh ≤ load V s.log.lh + ((span off rem).card + 1) := by
  have hcard := card_fileBlocks s i (span off rem)
  set R := fresh s i ((span off rem).biUnion bmapSlots) ∪ present s i (span off rem) ∪
    changedIndirect s i (span off rem) with hR
  have hsub : writeSet s i (span off rem) ⊆ V ∪ R := by
    refine union_subset subset_union_right (image_subset_iff.2 fun c hc => ?_)
    exact mem_union_left _ (hV (BBLOCK_mem (mem_freeBlocks.1 (fresh_subset _ _ _ hc)).1))
  calc load V s'.log.lh
      ≤ load (V ∪ R) s'.log.lh := load_mono subset_union_left _
    _ = load (V ∪ R) s.log.lh := by
        refine hs.absorbed.load_eq _ fun c hc => ((hs.mem_lh c).1 hc).imp_right fun hc => ?_
        rcases hc with hc | ⟨-, rfl⟩
        · exact hsub hc
        · exact mem_union_left _ hi
    _ ≤ load V s.log.lh + R.card := load_union_le _ _ _
    _ ≤ _ := Nat.add_le_add_left hcard _

/-- The loop of `writei` logs the blocks of the write set. -/
theorem Written.mem_lh {s' : FS} (hk : Loaded s k i) (hend : off + rem ≤ MAXFILE * BSIZE)
    (hw : Written s k i src off rem s') (c : ℕ) :
    c ∈ s'.log.lh ↔ c ∈ s.log.lh ∨ c ∈ writeSet s i (span off rem) := by
  obtain ⟨N, htook⟩ := hw.took
  have hlt : ∀ n ∈ span off rem, n < MAXFILE := fun n => span_lt hend
  have hhere : ∀ n ∈ span off rem, fileAddr s'.disk (cur s' i) n ≠ 0 := by
    intro n hn h0
    refine hw.here n hn ?_
    rw [hw.store.blocks_eq (hw.same.loaded.2 hk) (hlt n hn), if_neg (not_not.2 h0)]
  have hN : fresh s i ((span off rem).biUnion bmapSlots) = N := by
    rw [htook.fresh_eq _ subset_rfl (slots_lt hlt), fresh_of_filled, union_empty]
    intro j hj
    obtain ⟨n, hn, hj⟩ := mem_biUnion.1 hj
    rcases mem_bmapSlots.1 hj with rfl | ⟨rfl, hge⟩
    · exact hhere n hn
    · rw [slotAddr_of_lt (Nat.lt_succ_self _)]
      exact indirect_ne_zero hge (hhere n hn)
  rw [htook.mem_lh, mem_writeSet, hN, mem_changedIndirect]
  refine or_congr Iff.rfl ⟨?_, ?_⟩
  · rintro (hc | hc | hc | ⟨hfills, rfl⟩)
    · exact .inl hc
    · exact .inr (.inl hc)
    · exact .inr (.inr (.inl hc))
    · rcases htook.indirect with heq | hmem
      · obtain ⟨n, hn, hge, -⟩ := id hfills
        exact .inr (.inr (.inr ⟨hfills, indirect_ne_zero hge (hhere n hn), heq⟩))
      · exact .inl hmem
  · rintro (hc | hc | hc | ⟨hfills, hne, rfl⟩)
    · exact .inl hc
    · exact .inr (.inl hc)
    · exact .inr (.inr (.inl hc))
    · have hN := hw.slots NDIRECT NDIRECT_lt
      rw [slotAddr_of_lt (Nat.lt_succ_self _), slotAddr_of_lt (Nat.lt_succ_self _)] at hN
      exact .inr (.inr (.inr ⟨hfills, (hN hne).symm⟩))

theorem Written.stored {s' : FS} (hk : Loaded s k i) (hend : off + rem ≤ MAXFILE * BSIZE)
    (hw : Written s k i src off rem s') (hle : off + rem ≤ (view s i).size) :
    Stored s k i src off rem s' where
  store := by
    have := hw.store
    rwa [if_pos hle] at this
  env := hw.env
  same := hw.same
  other := hw.other
  self := by
    rw [Nat.max_eq_left hle, ← Node.setBlocks_size (view s i) (view s' i).blocks, Node.setSize_self]
    exact hw.self
  byte := hw.byte
  missing_eq := hw.missing_eq
  free_subset := hw.free_subset
  absorbed := hw.absorbed
  mem_lh c := by
    rw [hw.mem_lh hk hend, or_iff_left (a := c ∈ writeSet s i (span off rem))
      fun hc => Nat.not_lt.2 hle hc.1]
  fits hlt := absurd hle (Nat.not_le.2 hlt)

/-- The file grew. -/
theorem Written.grow (h : Store none s) (hk : Loaded s k i) (hdev : (view s i).type ≠ T_DEV)
    (hoff : off ≤ (view s i).size) (hend : off + rem ≤ MAXFILE * BSIZE)
    (hgrow : (view s i).size < off + rem) (hw : Written s k i src off rem s1) {size : UInt32}
    (hsize : size.toNat = off + rem) :
    wp (do
        modifyDin k fun d => { d with size := size }
        iupdate k)
      (fun _ s' => Stored s k i src off rem s')
      (fun x _ => Lacks x (EnoughBlocks s i off rem) (EnoughRoom s i off rem)) s1 := by
  have hk1 := hw.same.loaded.2 hk
  have hst1 : Store (some k) s1 := by
    have := hw.store
    rwa [if_neg (Nat.not_le.2 hgrow)] at this
  have hcur1 := hst1.cur_eq hk1
  rw [wp_bind, wp_modifyDin]
  have hfull : Full s1.disk { (s1.icache k).din with size := size } := by
    refine ⟨hsize.symm ▸ hend, fun n hn => ?_⟩
    have hne := hw.full h hk hdev hoff hend (n := n) (by
      rw [hsize] at hn
      exact hn.trans_le (Nat.le_max_right _ _))
    rw [hcur1] at hne
    exact hne
  obtain ⟨hst2, hview2⟩ := hst1.setDin_view (.inr rfl) hk1
    (d := { (s1.icache k).din with size := size }) rfl rfl fun _ => hfull
  set s2 := s1.setDin k { (s1.icache k).din with size := size } with hs2
  have hk2 : Loaded s2 k i := (SameSlots.setDin s1 k _).loaded.2 hk1
  have hsb : s2.sb = s.sb := FS.sb_of_env hw.env
  have hself2 : view s2 i =
      ((view s i).setBlocks (view s1 i).blocks).setSize (max (view s i).size (off + rem)) := by
    rw [hview2, update_self, ← hw.self, Nat.max_eq_right hgrow.le, ← hsize, Node.setSize,
      hst1.type_eq hk1, hst1.major_eq hk1, hst1.minor_eq hk1, hst1.nlink_eq hk1]
  have hbyte : ∀ j, (view s2 i).byte j = (view s1 i).byte j := by
    intro j
    rw [hself2, Node.byte, Node.setSize, Node.setBlocks, Node.byte]
  have haddr : ∀ m, slotAddr s2.disk (cur s2 i) m = slotAddr s1.disk (cur s1 i) m := by
    intro m
    have hdin : cur s2 i = { (s1.icache k).din with size := size } := by
      rw [hst2.cur_eq hk2]
      simp [hs2, FS.setDin]
    rw [hdin, hcur1]
    exact slotAddr_congr (fun _ _ => rfl) (fun _ => rfl) m
  refine wp_mono' (iupdate_spec hst2 hk2) ?_ fun _ _ hno => .inr fun hen => hno ?_
  · intro _ s' hfl
    have haddr' : ∀ m, slotAddr s'.disk (cur s' i) m = slotAddr s1.disk (cur s1 i) m :=
      fun m => (hfl.slots m).trans (haddr m)
    have hfree : freeBlocks s'.disk s.sb = freeBlocks s1.disk s.sb := by
      rw [← hsb]
      exact hfl.free
    refine
      { store := hfl.store
        env := hfl.step.env.trans hw.env
        same := (hw.same.trans (SameSlots.setDin s1 k _)).trans hfl.step.same
        other := fun l hl => ?_
        self := ?_
        byte := fun j => ?_
        missing_eq := fun T hT hlt => ?_
        free_subset := hfree.trans_subset hw.free_subset
        absorbed := hw.absorbed.trans hfl.absorbed
        mem_lh := fun c => ?_
        fits := fun _ => ?_ }
    · rw [hfl.view_eq, hview2, update_of_ne hl, hw.other l hl]
    · rw [hfl.view_eq, hself2, Node.setSize_blocks, Node.setBlocks_blocks]
    · rw [hfl.view_eq, hbyte, hw.byte]
    · rw [hfree, ← hw.missing_eq T hT hlt]
      simp only [missing, haddr']
    · rw [hfl.logged, hsb, and_iff_right hgrow]
      have hlh : c ∈ s2.log.lh ↔ c ∈ s1.log.lh := Iff.rfl
      rw [hlh, hw.mem_lh hk hend, or_comm, or_assoc]
    · have hfits : Fits s1.log.lh.length s1.log := hfl.fits
      refine hfits.of_env hw.env.symm ?_
      have hall : writeSet s i (span off rem) \ s1.log.lh.toFinset = ∅ :=
        sdiff_eq_empty_iff_subset.2 fun c hc =>
          List.mem_toFinset.2 ((hw.mem_lh hk hend c).2 (.inr hc))
      rw [← hw.absorbed.load_eq _ fun c hc => (hw.mem_lh hk hend c).1 hc, load, hall]
      exact le_rfl
  · have hlogged : logged s i off rem = span off rem := if_neg (Nat.not_le.2 hgrow)
    refine (hen (by omega)).of_env hw.env ?_
    rw [hlogged, ← hw.absorbed.load_eq _ fun c hc => (hw.mem_lh hk hend c).1 hc]
    exact length_le_load _ s1.log.lh

theorem early_subset (h : Store none s) (hk : Loaded s k i) (hdev : (view s i).type ≠ T_DEV) :
    early s i off rem ⊆ logged s i off rem := by
  intro n hn
  obtain ⟨hmem, hn⟩ := mem_filter.1 hn
  unfold logged
  split_ifs with hle
  · refine mem_erase.2 ⟨?_, hmem⟩
    rintro rfl
    have hrem : rem ≠ 0 := by
      rintro rfl
      exact notMem_empty _ hmem
    have hlt : (off + rem - 1) / BSIZE * BSIZE < (view s i).size := by
      have : (off + rem - 1) / BSIZE * BSIZE ≤ off + rem - 1 := Nat.div_mul_le_self _ _
      omega
    obtain ⟨hlt', hsome⟩ := h.blocks_ne_none hk hdev hlt
    refine hsome ?_
    rw [h.blocks_eq hk hlt', if_neg (not_not.2 (hn.resolve_left (lt_irrefl _)))]
  · exact hmem

/-- `writei` of a file fails when the range starts past the end or reaches beyond the largest
file, and otherwise writes the range, unless free blocks or room in the log are missing. -/
theorem writei_spec (h : Store none s) (hk : Loaded s k i) (hdev : (view s i).type ≠ T_DEV)
    (src : ℕ → UInt8) (off n : UInt32) :
    wp (writei k src off n) (fun r s' =>
        if (view s i).size < off.toNat ∨ MAXFILE * BSIZE < off.toNat + n.toNat then
          r = none ∧ s' = s
        else r = some n.toNat ∧ Stored s k i src off.toNat n.toNat s')
      (fun x _ => off.toNat ≤ (view s i).size ∧ off.toNat + n.toNat ≤ MAXFILE * BSIZE ∧
        Lacks x (EnoughBlocks s i off.toNat n.toNat) (EnoughRoom s i off.toNat n.toNat)) s := by
  have hsize := h.size_eq hk
  unfold writei
  rw [wp_bind, wp_get]
  dsimp only
  rw [if_neg (h.type_eq hk ▸ hdev)]
  have hmax : MAXFILE * BSIZE = 71680 := by decide
  have hwrap : off + n < off ↔ 2 ^ 32 ≤ off.toNat + n.toNat := by
    have := off.toNat_lt
    have := n.toNat_lt
    rw [UInt32.lt_iff_toNat_lt, UInt32.toNat_add]
    omega
  by_cases hb : off > (s.icache k).din.size ∨ off + n < off
  · rw [if_pos hb, wp_pure, if_pos]
    · exact ⟨rfl, rfl⟩
    · rw [hwrap, gt_iff_lt, UInt32.lt_iff_toNat_lt, ← hsize] at hb
      omega
  rw [if_neg hb]
  rw [hwrap, gt_iff_lt, UInt32.lt_iff_toNat_lt, ← hsize, not_or, Nat.not_lt, Nat.not_le] at hb
  have hadd : (off + n).toNat = off.toNat + n.toNat := by
    rw [UInt32.toNat_add, Nat.mod_eq_of_lt hb.2]
  rw [hadd]
  by_cases hlarge : off.toNat + n.toNat > MAXFILE * BSIZE
  · rw [if_pos hlarge, wp_pure, if_pos (.inr hlarge)]
    exact ⟨rfl, rfl⟩
  rw [if_neg hlarge]
  have hend : off.toNat + n.toNat ≤ MAXFILE * BSIZE := Nat.not_lt.1 hlarge
  have hok : ¬ ((view s i).size < off.toNat ∨ MAXFILE * BSIZE < off.toNat + n.toNat) := by omega
  simp only [if_neg hok]
  refine wp_seq (wp_mono' (writeiLoop_spec hk hdev hend (by rwa [if_pos hb.1]) (Nat.sub_zero _)
    le_rfl (writeSet_mono (early_subset h hk hdev) _ _)) (fun _ _ => id)
    fun _ _ hno => ⟨hb.1, hend, hno.2.mono id fun hen => hen hno.1⟩) ?_
  intro _ s1 hw
  simp only [Nat.zero_add] at hw
  have hgrow : (n > 0 ∧ off + n > (s.icache k).din.size) ↔
      (view s i).size < off.toNat + n.toNat := by
    rw [gt_iff_lt, gt_iff_lt, UInt32.lt_iff_toNat_lt, UInt32.lt_iff_toNat_lt, hadd, ← hsize,
      UInt32.toNat_zero]
    omega
  by_cases hg : n > 0 ∧ off + n > (s.icache k).din.size
  · rw [if_pos hg]
    have hrest := hw.grow h hk hdev hb.1 hend (hgrow.1 hg) hadd
    rw [wp_bind, wp_modifyDin] at hrest ⊢
    exact wp_seq (wp_mono' hrest (fun _ _ => id) fun _ _ hno => ⟨hb.1, hend, hno⟩)
      fun _ s' hs => ⟨rfl, hs⟩
  · rw [if_neg hg, wp_pure]
    exact ⟨rfl, hw.stored hk hend (Nat.not_lt.1 (mt hgrow.2 hg))⟩

end

end Xv6
