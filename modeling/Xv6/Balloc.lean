import Xv6.FileArray
import Xv6.Lib.Transition

/-!
# The block allocator as a set of free blocks

`balloc` and `bfree` work on the bitmap on the disk. The bitmap and the superblock lie on
blocks that have bits of their own. Where these bits are set (`Marked`, as `mkfs` leaves
them), `balloc` never zeroes the bitmap or the superblock, and the two are the operations
of a set of free blocks : take the least element, put one back.

`allocStep` takes the calls one after the other, with the log changed in any way between
them. A block that was handed out is handed out again only after it was freed.
-/

open Function Prog Layout Transition Option

namespace Xv6

/-! ## Taking a block and giving it back -/

theorem clearBit_setBit {data : Block} {bi : ℕ} (hbi : bi < BPB) (h : isClear data bi = true) :
    clearBit (setBit data bi) bi = data := by
  have hbyte : ∀ x m : UInt8, x &&& m = 0 → (x ||| m) &&& ~~~m = x := by
    intro x m hxm
    have hor : (x ||| m) &&& ~~~m = (x &&& m) ^^^ x := by
      refine UInt8.toBitVec_inj.1 (BitVec.eq_of_getLsbD_eq fun i hi => ?_)
      simp only [UInt8.toBitVec_and, UInt8.toBitVec_or, UInt8.toBitVec_not, UInt8.toBitVec_xor,
        BitVec.getLsbD_and, BitVec.getLsbD_or, BitVec.getLsbD_not, BitVec.getLsbD_xor, hi]
      cases x.toBitVec.getLsbD i <;> cases m.toBitVec.getLsbD i <;> rfl
    rw [hor, hxm, UInt8.zero_xor]
  have hbi8 : bi / 8 < BSIZE := Nat.div_lt_of_lt_mul hbi
  have hget : ∀ j < BSIZE, (clearBit (setBit data bi) bi).get j = data.get j := by
    intro j hj
    rw [get_clearBit _ _ hj, get_setBit _ _ hj, get_setBit _ _ hbi8, if_pos rfl]
    split_ifs with hj'
    · rw [hj']
      exact hbyte _ _ (beq_iff_eq.1 h)
    · rfl
  funext j
  simpa [Bytes.get] using hget j j.isLt

/-! ## Marked bitmaps -/

/-- The superblock is the one on the disk, and the bits of the superblock and of the bitmap
blocks are set. The size leaves the counters of `balloc`, of type `int`, in range. -/
structure Marked (s : FS) : Prop where
  /-- The number of blocks is not negative as an `int`. -/
  size : s.sb.size.toNat < 2 ^ 31
  /-- `readsb` reads the superblock again. -/
  super : readsb s.disk = s.sb
  super_used : 1 < s.sb.size.toNat ∧ Used s.disk s.sb 1
  /-- The bitmap lies on the disk, off the superblock, and is in use. -/
  bitmap : ∀ c < s.sb.size.toNat,
    BBLOCK c s.sb ≠ 1 ∧ BBLOCK c s.sb < s.sb.size.toNat ∧ Used s.disk s.sb (BBLOCK c s.sb)

/-- Block `b` is neither the superblock nor a bitmap block. -/
def Allocatable (sb : Superblock) (b : ℕ) : Prop :=
  b < sb.size.toNat ∧ b ≠ 1 ∧ ∀ c < sb.size.toNat, BBLOCK c sb ≠ b

/-- The free blocks. -/
def freeSet (s : FS) : Set ℕ :=
  {c | c < s.sb.size.toNat ∧ ¬ Used s.disk s.sb c}

section

variable {s : FS} {b c : ℕ}

theorem Marked.allocatable (h : Marked s) (hb : b ∈ freeSet s) : Allocatable s.sb b := by
  refine ⟨hb.1, ?_, fun c hc hbc => hb.2 ?_⟩
  · rintro rfl
    exact hb.2 h.super_used.2
  · rw [← hbc]
    exact (h.bitmap c hc).2.2

theorem used_takeBlock (hb : Allocatable s.sb b) (hc : c < s.sb.size.toNat) :
    Used (s.takeBlock b).disk s.sb c ↔ Used s.disk s.sb c ∨ c = b := by
  rw [← used_setBit]
  exact used_congr (update_of_ne (hb.2.2 c hc) _ _)

theorem used_giveBlock :
    Used (s.giveBlock b).disk s.sb c ↔ Used s.disk s.sb c ∧ c ≠ b :=
  used_clearBit ..

theorem Marked.takeBlock (h : Marked s) (hb : b ∈ freeSet s) : Marked (s.takeBlock b) where
  size := h.size
  super := by
    refine (readsb_congr ?_).trans h.super
    exact (update_of_ne (h.allocatable hb).2.1.symm _ _).trans
      (update_of_ne (h.bitmap b hb.1).1.symm _ _)
  super_used := ⟨h.super_used.1,
    (used_takeBlock (h.allocatable hb) h.super_used.1).2 (.inl h.super_used.2)⟩
  bitmap c hc := by
    obtain ⟨hne, hlt, hused⟩ := h.bitmap c hc
    exact ⟨hne, hlt, (used_takeBlock (h.allocatable hb) hlt).2 (.inl hused)⟩

theorem Marked.giveBlock (h : Marked s) (hb : Allocatable s.sb b) : Marked (s.giveBlock b) where
  size := h.size
  super := (readsb_congr (update_of_ne (h.bitmap b hb.1).1.symm _ _)).trans h.super
  super_used := ⟨h.super_used.1, used_giveBlock.2 ⟨h.super_used.2, hb.2.1.symm⟩⟩
  bitmap c hc := by
    obtain ⟨hne, hlt, hused⟩ := h.bitmap c hc
    exact ⟨hne, hlt, used_giveBlock.2 ⟨hused, hb.2.2 c hc⟩⟩

theorem balloc_room (hfit : Fits (s.log.lh.length + 1) s.log) :
    wp balloc (fun b s' => ballocScan s.disk s.sb = some b ∧ s' = s.takeBlock b)
      (fun x _ => x = .panic "balloc: out of blocks" ∧ ballocScan s.disk s.sb = none) s := by
  refine wp_mono' (balloc_scan s) (fun _ _ => id) fun x _ hx => hx.resolve_right ?_
  rintro ⟨b, -, hfull⟩
  refine hfull (hfit.of_le rfl rfl ?_)
  simpa [load] using load_union_le ∅ {BBLOCK b s.sb} s.log.lh

theorem balloc_of_scan (hscan : ballocScan s.disk s.sb = some b)
    (hfit : Fits (s.log.lh.length + 1) s.log) : balloc s = .ok b (s.takeBlock b) := by
  obtain ⟨c, s', hs', hc, rfl⟩ := exists_ok_of_wp (wp_mono' (balloc_room hfit)
    (fun _ _ => id) fun _ _ h => by simp [hscan] at h)
  obtain rfl := some.inj (hscan.symm.trans hc)
  exact hs'

theorem balloc_least (hfit : Fits (s.log.lh.length + 1) s.log) :
    wp balloc (fun b s' => IsLeast (freeSet s) b ∧ s' = s.takeBlock b)
      (fun x _ => x = .panic "balloc: out of blocks" ∧ freeSet s = ∅) s := by
  refine wp_mono' (balloc_room hfit) (fun b _ hb => ⟨ballocScan_isLeast hb.1, hb.2⟩)
    fun x _ hx => ⟨hx.1, Set.eq_empty_of_forall_notMem fun c hc => hc.2 ?_⟩
  exact used_of_ballocScan_eq_none hx.2 hc.1

theorem Marked.bfree (h : Marked s) (hb : Used s.disk s.sb b)
    (hfit : Fits s.log.lh.length s.log) :
    wp (bfree b) (fun _ s' => s' = s.giveBlock b) (fun _ _ => False) s :=
  wp_mono' (bfree_spec s b h.super) (fun _ _ h => h.2) fun _ _ h => h ⟨hb, hfit⟩

theorem Marked.giveBlock_takeBlock (h : Marked s) (hb : b ∈ freeSet s) (l : Log)
    (hc : c < s.sb.size.toNat) :
    (FS.giveBlock { s.takeBlock b with log := l } b).disk (BBLOCK c s.sb) =
      s.disk (BBLOCK c s.sb) := by
  have hne := (h.allocatable hb).2.2
  have htake : (s.takeBlock b).disk (BBLOCK b s.sb) =
      setBit (s.disk (BBLOCK b s.sb)) (b % BPB) :=
    (update_of_ne (hne b hb.1) _ _).trans (update_self ..)
  show update (s.takeBlock b).disk (BBLOCK b s.sb)
    (clearBit ((s.takeBlock b).disk (BBLOCK b s.sb)) (b % BPB)) (BBLOCK c s.sb) = _
  rw [htake, clearBit_setBit (Nat.mod_lt _ (by decide)) (Bool.not_eq_false _ ▸ hb.2)]
  by_cases hbc : BBLOCK c s.sb = BBLOCK b s.sb
  · rw [hbc, update_self]
  · rw [update_of_ne hbc]
    exact (update_of_ne (hne c hc) _ _).trans (update_of_ne hbc _ _)

end

/-! ## Sequences of calls -/

/-- A call of the allocator with the block it is about, or the log changing between calls. -/
inductive BlockCall where
  /-- `balloc` that returns `b`. -/
  | balloc (b : ℕ)
  | bfree (b : ℕ)
  /-- `begin_op`, `end_op` and the commits. -/
  | log (l : Log)

/-- One call that returns. -/
def allocStep (s : FS) : BlockCall → Option FS
  | .balloc b =>
    match balloc s with
    | .ok c s' => if c = b then some s' else none
    | .error _ _ => none
  | .bfree b =>
    match bfree b s with
    | .ok _ s' => some s'
    | .error _ _ => none
  | .log l => some { s with log := l }

/-- The blocks freed are neither the superblock nor bitmap blocks. -/
def FreesAllocatable (s : FS) : BlockCall → Prop
  | .bfree b => Allocatable s.sb b
  | _ => True

section

variable {s s' : FS} {i : BlockCall}

theorem allocStep_cases (h : Marked s) (hs : allocStep s i = some s') :
    (∃ b, i = .balloc b ∧ b ∈ freeSet s ∧ s' = s.takeBlock b) ∨
    (∃ b, i = .bfree b ∧ s' = s.giveBlock b) ∨ ∃ l, i = .log l ∧ s' = { s with log := l } := by
  cases i with
  | balloc b =>
    have hspec := balloc_scan s
    simp only [allocStep, wp] at hs hspec
    cases hb : Xv6.balloc s with
    | ok c s1 =>
      simp only [hb, ite_none_right_eq_some, some.injEq] at hs hspec
      obtain ⟨rfl, rfl⟩ := hs
      exact .inl ⟨c, rfl, ballocScan_eq_some hspec.1, hspec.2⟩
    | error x s1 =>
      simp only [hb, reduceCtorEq] at hs
  | bfree b =>
    have hspec := bfree_spec s b h.super
    simp only [allocStep, wp] at hs hspec
    cases hb : Xv6.bfree b s with
    | ok u s1 =>
      simp only [hb, some.injEq] at hs hspec
      exact .inr (.inl ⟨b, rfl, hs ▸ hspec.2⟩)
    | error x s1 =>
      simp only [hb, reduceCtorEq] at hs
  | log l => exact .inr (.inr ⟨l, rfl, (some.inj hs).symm⟩)

/-- Every step that frees allocatable blocks keeps this. -/
theorem Marked.step (h : Marked s) (hi : FreesAllocatable s i) (hs : allocStep s i = some s') :
    Marked s' := by
  obtain ⟨b, rfl, hb, rfl⟩ | ⟨b, rfl, rfl⟩ | ⟨l, rfl, rfl⟩ := allocStep_cases h hs
  · exact h.takeBlock hb
  · exact h.giveBlock hi
  · exact ⟨h.size, h.super, h.super_used, h.bitmap⟩

/-- A block in use. -/
def InUse (b : ℕ) (s : FS) : Prop :=
  b < s.sb.size.toNat ∧ Used s.disk s.sb b

/-- A block stays in use until it is freed. -/
theorem InUse.step {b : ℕ} (hb : InUse b s) (h : Marked s) (hs : allocStep s i = some s')
    (hi : i ≠ .bfree b) : InUse b s' := by
  obtain ⟨c, rfl, hc, rfl⟩ | ⟨c, rfl, rfl⟩ | ⟨l, rfl, rfl⟩ := allocStep_cases h hs
  · exact ⟨hb.1, (used_takeBlock (h.allocatable hc) hb.1).2 (.inl hb.2)⟩
  · refine ⟨hb.1, used_giveBlock.2 ⟨hb.2, ?_⟩⟩
    rintro rfl
    exact hi rfl
  · exact hb

theorem allocStep_balloc {b : ℕ} (h : Marked s) (hs : allocStep s (.balloc b) = some s') :
    ¬ InUse b s ∧ InUse b s' := by
  obtain ⟨c, hbc, hc, rfl⟩ | ⟨c, hbc, -⟩ | ⟨l, hbc, -⟩ := allocStep_cases h hs
  · cases hbc
    exact ⟨fun hb => hc.2 hb.2, hc.1, (used_takeBlock (h.allocatable hc) hc.1).2 (.inr rfl)⟩
  · cases hbc
  · cases hbc

/-- Between two `balloc` calls that return one block there is a `bfree` of it. -/
theorem bfree_mem_of_balloc_twice {xs ys : List BlockCall} {b : ℕ} (h : Marked s)
    (hC : Along allocStep FreesAllocatable s (xs ++ .balloc b :: (ys ++ [.balloc b])))
    (hr : run allocStep s (xs ++ .balloc b :: (ys ++ [.balloc b])) = some s') :
    .bfree b ∈ ys := by
  by_contra hys
  rw [run_append] at hr
  obtain ⟨s1, hr1, hr⟩ := bind_eq_some_iff.1 hr
  obtain ⟨hC1, hC⟩ := (along_append hr1).1 hC
  have h1 : Marked s1 := run_invariant (fun _ _ _ h hC => h.step hC) h hC1 hr1
  obtain ⟨s2, hs2, hr⟩ := run_cons hr
  rw [run_append] at hr
  obtain ⟨s3, hr3, hr⟩ := bind_eq_some_iff.1 hr
  obtain ⟨hC3, -⟩ := (along_append hr3).1 (hC.2 s2 hs2)
  have hkept : Along allocStep (fun _ i => i ≠ .bfree b) s2 ys :=
    along_of_forall fun i hi hib => hys (hib ▸ hi)
  have h3 : Marked s3 ∧ InUse b s3 :=
    run_invariant (I := fun s => Marked s ∧ InUse b s)
      (fun _ _ _ h hC hs => ⟨h.1.step hC.1 hs, h.2.step h.1 hs hC.2⟩)
      ⟨h1.step hC.1 hs2, (allocStep_balloc h1 hs2).2⟩ (hC3.and hkept) hr3
  obtain ⟨s4, hs4, -⟩ := run_cons hr
  exact (allocStep_balloc h3.1 hs4).1 h3.2

end

/-- Where the superblock and the bitmap blocks are marked used, `balloc` and `bfree` are the
operations of a set of free blocks. -/
theorem balloc_bfree_set (s : FS) (h : Marked s) :
    -- `balloc` takes the lowest free block, sets its bit and zeroes it.
    (Fits (s.log.lh.length + 1) s.log →
      wp balloc (fun b s' => IsLeast (freeSet s) b ∧
          (∀ c < s.sb.size.toNat, Used s'.disk s.sb c ↔ Used s.disk s.sb c ∨ c = b) ∧
          s'.disk = update (update s.disk (BBLOCK b s.sb)
            (setBit (s.disk (BBLOCK b s.sb)) (b % BPB))) b zeroBlock)
        (fun x _ => x = .panic "balloc: out of blocks" ∧ freeSet s = ∅) s) ∧
    -- `bfree` of a block in use clears its bit.
    (∀ b, Used s.disk s.sb b → Fits s.log.lh.length s.log →
      wp (bfree b) (fun _ s' =>
          (∀ c, Used s'.disk s.sb c ↔ Used s.disk s.sb c ∧ c ≠ b) ∧
          s'.disk = update s.disk (BBLOCK b s.sb)
            (clearBit (s.disk (BBLOCK b s.sb)) (b % BPB)))
        (fun _ _ => False) s) ∧
    -- `bfree` after `balloc` restores the bitmap.
    (∀ b l s1 s2, balloc s = .ok b s1 → bfree b { s1 with log := l } = .ok () s2 →
      ∀ c < s.sb.size.toNat, s2.disk (BBLOCK c s.sb) = s.disk (BBLOCK c s.sb)) ∧
    -- A sequence of calls leads to such a state, and hands no block out twice without a free.
    ∀ calls s', Along allocStep FreesAllocatable s calls → run allocStep s calls = some s' →
      Marked s' ∧ ∀ xs ys b, calls = xs ++ .balloc b :: (ys ++ [.balloc b]) → .bfree b ∈ ys := by
  refine ⟨fun hfit => ?_, fun b hb hfit => ?_, fun b l s1 s2 hs1 hs2 c hc => ?_,
    fun calls s' hC hr => ⟨?_, ?_⟩⟩
  · refine wp_mono (balloc_least hfit) ?_
    rintro b s' ⟨hb, rfl⟩
    exact ⟨hb, fun c hc => used_takeBlock (h.allocatable hb.1) hc, rfl⟩
  · refine wp_mono (h.bfree hb hfit) ?_
    rintro _ s' rfl
    exact ⟨fun c => used_giveBlock, rfl⟩
  · obtain ⟨hscan, rfl⟩ := wp_ok (balloc_scan s) hs1
    have hb : b ∈ freeSet s := ballocScan_eq_some hscan
    have hsuper : readsb (s.takeBlock b).disk = s.sb := (h.takeBlock hb).super
    obtain ⟨-, rfl⟩ := wp_ok (bfree_spec { s.takeBlock b with log := l } b hsuper) hs2
    exact h.giveBlock_takeBlock hb l hc
  · exact run_invariant (fun _ _ _ h hC => h.step hC) h hC hr
  · rintro xs ys b rfl
    exact bfree_mem_of_balloc_twice h hC hr

theorem blank_marked : Marked (blank 2) where
  size := by decide
  super := Bytes.read_write Superblock.codec zeroBlock blankSb (by decide)
  super_used := ⟨by decide, (blank_used (by decide)).2 (by decide)⟩
  bitmap c hc := by
    have hblk : BBLOCK c blankSb = 33 := by
      have : c < 74 := hc
      show c / 4096 + 33 = 33
      omega
    show BBLOCK c blankSb ≠ 1 ∧ BBLOCK c blankSb < 74 ∧
      Used (blank 2).disk blankSb (BBLOCK c blankSb)
    rw [hblk]
    exact ⟨by decide, by decide, (blank_used (by decide)).2 (by decide)⟩

/-- On a disk of 74 blocks whose first 34 are in use, `balloc` returns block 34. -/
theorem balloc_bfree_set_blank : ∃ s', balloc (blank 2) = .ok 34 s' := by
  obtain ⟨s, hs, hmarked, hfit⟩ :
      ∃ s, s = blank 2 ∧ Marked s ∧ Fits (s.log.lh.length + 1) s.log :=
    ⟨_, rfl, blank_marked, by decide, by decide, by decide⟩
  have hfree : ∀ b < 74, b ∈ freeSet s ↔ 34 ≤ b := by
    intro b hb
    rw [hs, ← not_lt, ← blank_used hb]
    exact and_iff_right hb
  have h34 : 34 ∈ freeSet s := (hfree 34 (by decide)).2 le_rfl
  obtain ⟨b, s', hs', hleast, -⟩ := exists_ok_of_wp (wp_mono'
    ((balloc_bfree_set s hmarked).1 hfit) (fun _ _ h => h) fun _ _ h => by simp [h.2] at h34)
  have hb : b ≤ 34 := hleast.2 h34
  obtain rfl : b = 34 := hb.antisymm ((hfree b (by omega)).1 hleast.1)
  exact ⟨s', hs ▸ hs'⟩

/-- A disk of three blocks whose block `2` is the bitmap, with the bits of blocks `0` and `1`
set and that of the bitmap clear. -/
def unmarked : FS :=
  { blank 2 with
    disk := fun b => if b = 2 then Mkfs.usedBitmap 2 else zeroBlock
    sb := ⟨3, 0, 0, 0, 0, 0, 2⟩ }

/-- `balloc` returns the bitmap block itself and zeroes the bitmap : its bit is clear
afterwards, as are those of the blocks in use, and the next call returns block `0`. -/
theorem balloc_takes_bitmap : ∃ s1 s2, balloc unmarked = .ok 2 s1 ∧
    Used unmarked.disk unmarked.sb 0 ∧ ¬ Used s1.disk s1.sb 0 ∧ ¬ Used s1.disk s1.sb 2 ∧
    balloc s1 = .ok 0 s2 :=
  ⟨_, _, balloc_of_scan (by decide +kernel) ⟨by decide, by decide, by decide⟩,
    by decide +kernel, by decide +kernel, by decide +kernel,
    balloc_of_scan (by decide +kernel) ⟨by decide, by decide, by decide⟩⟩

end Xv6
