import Mathlib.Data.Finset.Card
import Mathlib.Order.Interval.Finset.Nat
import Xv6.Owned

/-!
# The inode store

The kernel keeps an inode on the disk and in a slot of the inode cache. `cur s i` is inode `i` as
the kernel has it : the copy of its slot, or else the one on the disk. In a `Store` the cache has at
most one slot for an inode, its copies agree with the disk, except for one inode that is being
changed, and the blocks are owned (`Owned`).

A program that changes the store is described by the pure change of the state it makes,
`FS.write` of a block or `FS.setDin` of an inode, and the lemmas say which of these changes
keep `Store` and what they do to `cur`.

The blocks a program may log are counted by `load V`, the length of the log once the blocks of `V`
are in it : logging a block of `V` does not change it.
-/

open Function Prog Layout Finset

namespace Xv6

/-! ## Room in the log -/

/-- Number of blocks in the log once those of `V` are logged. -/
def load (V : Finset ℕ) (lh : List ℕ) : ℕ :=
  lh.length + (V \ lh.toFinset).card

theorem length_le_load (V : Finset ℕ) (lh : List ℕ) : lh.length ≤ load V lh :=
  Nat.le_add_right _ _

theorem load_nil (V : Finset ℕ) : load V [] = V.card := by
  simp [load]

theorem load_mono {V W : Finset ℕ} (h : V ⊆ W) (lh : List ℕ) : load V lh ≤ load W lh :=
  Nat.add_le_add_left (card_le_card (sdiff_subset_sdiff h le_rfl)) _

theorem load_union_le (V W : Finset ℕ) (lh : List ℕ) :
    load (V ∪ W) lh ≤ load V lh + W.card := by
  have hsub : (V ∪ W) \ lh.toFinset ⊆ V \ lh.toFinset ∪ W := by
    intro c hc
    simp only [mem_sdiff, mem_union] at hc ⊢
    tauto
  have := (card_le_card hsub).trans (card_union_le _ _)
  unfold load
  omega

theorem load_absorb_of_mem {V : Finset ℕ} {b : ℕ} (hb : b ∈ V) (lh : List ℕ) :
    load V (absorb b lh) = load V lh := by
  unfold load absorb
  split_ifs with h
  · rfl
  · have hmem : b ∈ V \ lh.toFinset := by simp [hb, h]
    have hset : V \ (lh ++ [b]).toFinset = (V \ lh.toFinset).erase b := by
      ext c
      simp only [mem_sdiff, List.mem_toFinset, List.mem_append, List.mem_singleton,
        mem_erase]
      tauto
    have := card_erase_add_one hmem
    rw [hset, List.length_append, List.length_singleton]
    omega

/-- The blocks of `l'` past `l` were logged, each once. -/
structure Absorbed (l l' : List ℕ) : Prop where
  subset : ∀ c ∈ l, c ∈ l'
  load_eq : ∀ V : Finset ℕ, (∀ c ∈ l', c ∈ l ∨ c ∈ V) → load V l' = load V l

theorem Absorbed.refl (l : List ℕ) : Absorbed l l :=
  ⟨fun _ => id, fun _ _ => rfl⟩

theorem Absorbed.trans {l l' l'' : List ℕ} (h : Absorbed l l') (h' : Absorbed l' l'') :
    Absorbed l l'' := by
  refine ⟨fun c hc => h'.subset c (h.subset c hc), fun V hV => ?_⟩
  rw [h'.load_eq V fun c hc => (hV c hc).imp_left (h.subset c),
    h.load_eq V fun c hc => hV c (h'.subset c hc)]

theorem Absorbed.absorb (b : ℕ) (l : List ℕ) : Absorbed l (absorb b l) := by
  refine ⟨fun c hc => mem_absorb.2 (.inr hc), fun V hV => ?_⟩
  rcases hV b (mem_absorb.2 (.inl rfl)) with hb | hb
  · rw [Xv6.absorb, if_pos hb]
  · exact load_absorb_of_mem hb l

/-- Inside an operation, with room in the log for a header of `n` blocks and one more. -/
def Fits (n : ℕ) (l : Log) : Prop :=
  1 ≤ l.outstanding ∧ n < LOGSIZE ∧ (n : ℤ) < l.size - 1

theorem Fits.of_le {m n : ℕ} {l l' : Log} (h : Fits n l) (ho : l'.outstanding = l.outstanding)
    (hs : l'.size = l.size) (hle : m ≤ n) : Fits m l' := by
  obtain ⟨h1, h2, h3⟩ := h
  refine ⟨ho ▸ h1, by omega, ?_⟩
  rw [hs]
  omega

/-! ## Changes of the state -/

/-- Block `b` is changed to `data` and logged. -/
def FS.write (s : FS) (b : ℕ) (data : Block) : FS :=
  { s with
    disk := update s.disk b data
    log := { s.log with lh := absorb b s.log.lh } }

/-- The in-memory copy in slot `k` is changed to `d`. -/
def FS.setDin (s : FS) (k : Iptr) (d : Dinode) : FS :=
  { s with icache := update s.icache k { s.icache k with din := d } }

/-- What the operations on inodes leave alone. -/
structure Env where
  sb : Superblock
  size : ℤ
  outstanding : ℤ
  committed : List (List ℕ)
  ftable : Fptr → File
  procs : Fin NPROC → Proc
  devices : Devices
  stack : ℕ → UInt8

/-- The part of the state outside the disk, the log header and the inode cache. -/
def FS.env (s : FS) : Env :=
  ⟨s.sb, s.log.size, s.log.outstanding, s.log.committed, s.ftable, s.procs, s.devices, s.stack⟩

section

variable {s s' : FS} (h : s'.env = s.env)
include h

theorem FS.sb_of_env : s'.sb = s.sb := congrArg Env.sb h

theorem FS.outstanding_of_env : s'.log.outstanding = s.log.outstanding :=
  congrArg Env.outstanding h

theorem FS.size_of_env : s'.log.size = s.log.size := congrArg Env.size h

theorem Fits.of_env {m n : ℕ} (hfit : Fits n s.log) (hle : m ≤ n) : Fits m s'.log :=
  hfit.of_le (FS.outstanding_of_env h) (FS.size_of_env h) hle

end

/-! ## Blocks -/

/-- The bitmap blocks. -/
def bitmapBlocks (sb : Superblock) : Finset ℕ :=
  Finset.Ico sb.bmapstart.toNat (sb.bmapstart.toNat + nbitmap sb)

theorem BBLOCK_mem {sb : Superblock} {b : ℕ} (hb : b < sb.size.toNat) :
    BBLOCK b sb ∈ bitmapBlocks sb := by
  have hdiv : b / BPB < nbitmap sb := Nat.lt_succ_of_le (Nat.div_le_div_right hb.le)
  unfold BBLOCK
  generalize b / BPB = q at hdiv ⊢
  rw [bitmapBlocks, mem_Ico]
  omega

/-- `log_write` writes a block, if the log has room. -/
theorem logWrite_spec (s : FS) (b : ℕ) (data : Block) :
    wp (logWrite b data) (fun _ s' => s' = s.write b data ∧ Fits s.log.lh.length s.log)
      (fun _ _ => ¬ Fits s.log.lh.length s.log) s := by
  unfold logWrite
  simp only [wp_bind, wp_modify, wp_get, wp_ite, panic, wp_throw, setBlock_eq]
  refine ⟨fun hfull hfit => ?_, fun hroom => ⟨fun hout hfit => ?_, fun hin => ⟨rfl, ?_⟩⟩⟩
  · obtain ⟨-, h2, h3⟩ := hfit
    omega
  · have := hfit.1
    omega
  · exact ⟨by omega, by omega, by omega⟩

/-- Why an operation that needs free blocks and room in the log stops : there are no free blocks
left, if these do not suffice, or the log is full, if there is no room. -/
def Lacks (x : Stop) (blocks room : Prop) : Prop :=
  x = .panic "balloc: out of blocks" ∧ ¬ blocks ∨ ¬ room

theorem Lacks.not_and {x : Stop} {P Q : Prop} (h : Lacks x P Q) : ¬ (P ∧ Q) := by
  rcases h with ⟨-, h⟩ | h
  · exact fun hPQ => h hPQ.1
  · exact fun hPQ => h hPQ.2

theorem Lacks.mono {x : Stop} {P P' Q Q' : Prop} (h : Lacks x P Q) (hP : P' → P) (hQ : Q' → Q) :
    Lacks x P' Q' :=
  h.imp (fun h => ⟨h.1, mt hP h.2⟩) (mt hQ)

/-- The state after `balloc` takes block `b`. -/
def FS.takeBlock (s : FS) (b : ℕ) : FS :=
  (s.write (BBLOCK b s.sb) (setBit (s.disk (BBLOCK b s.sb)) (b % BPB))).write b zeroBlock

/-- `balloc` takes the block its loops stop at, or there is none, or the log is full. -/
theorem balloc_scan (s : FS) :
    wp balloc (fun b s' => ballocScan s.disk s.sb = some b ∧ s' = s.takeBlock b)
      (fun x _ => x = .panic "balloc: out of blocks" ∧ ballocScan s.disk s.sb = none ∨
        ∃ b, ballocScan s.disk s.sb = some b ∧
          ¬ Fits (load {BBLOCK b s.sb} s.log.lh) s.log) s := by
  unfold balloc
  rw [wp_bind, wp_get]
  cases hscan : ballocScan s.disk s.sb with
  | none => exact .inl ⟨rfl, rfl⟩
  | some b =>
    dsimp only
    refine wp_seq (wp_mono' (logWrite_spec s _ _) (fun _ _ => id)
      fun _ _ h => .inr ⟨b, rfl, fun hfit => h ?_⟩) ?_
    · exact hfit.of_le rfl rfl (length_le_load _ _)
    rintro _ s1 ⟨rfl, -⟩
    refine wp_seq (wp_mono' (logWrite_spec _ b zeroBlock) (fun _ _ => id)
      fun _ _ h => .inr ⟨b, rfl, fun hfit => h ?_⟩) ?_
    · refine hfit.of_le rfl rfl ((length_le_load {BBLOCK b s.sb} _).trans ?_)
      exact (load_absorb_of_mem (mem_singleton_self _) _).le
    · rintro _ s2 ⟨rfl, -⟩
      exact ⟨rfl, rfl⟩

/-- Block `b` is the lowest free one. -/
def FS.Lowest (s : FS) (b : ℕ) : Prop :=
  b ∈ freeBlocks s.disk s.sb ∧ ∀ c ∈ freeBlocks s.disk s.sb, b ≤ c

theorem lowest_of_ballocScan {s : FS} {b : ℕ} (h : ballocScan s.disk s.sb = some b) :
    s.Lowest b :=
  ⟨mem_freeBlocks.2 (ballocScan_isLeast h).1,
    fun _ hc => (ballocScan_isLeast h).2 (mem_freeBlocks.1 hc)⟩

/-- `balloc` takes the lowest free block. It logs the block and its bitmap block. -/
theorem balloc_spec (s : FS) :
    wp balloc (fun b s' => s.Lowest b ∧ s' = s.takeBlock b)
      (fun x _ => Lacks x (0 < (freeBlocks s.disk s.sb).card)
        (∀ b, s.Lowest b → Fits (load {BBLOCK b s.sb} s.log.lh) s.log)) s := by
  refine wp_mono' (balloc_scan s) (fun b _ h => ⟨lowest_of_ballocScan h.1, h.2⟩) fun x _ h => ?_
  rcases h with ⟨rfl, hscan⟩ | ⟨b, hb, hfit⟩
  · refine .inl ⟨rfl, fun hpos => ?_⟩
    obtain ⟨b, hb⟩ := card_pos.1 hpos
    obtain ⟨hlt, hfree⟩ := mem_freeBlocks.1 hb
    exact hfree (used_of_ballocScan_eq_none hscan hlt)
  · exact .inr fun h => hfit (h b (lowest_of_ballocScan hb))

/-- The state after `bfree` gives block `b` back. -/
def FS.giveBlock (s : FS) (b : ℕ) : FS :=
  s.write (BBLOCK b s.sb) (clearBit (s.disk (BBLOCK b s.sb)) (b % BPB))

/-- `bfree` frees a block that is in use. -/
theorem bfree_spec (s : FS) (b : ℕ) (hsb : readsb s.disk = s.sb) :
    wp (bfree b) (fun _ s' => Used s.disk s.sb b ∧ s' = s.giveBlock b)
      (fun _ _ => ¬ (Used s.disk s.sb b ∧ Fits s.log.lh.length s.log)) s := by
  unfold bfree
  simp only [wp_bind, wp_modify, wp_get, wp_ite, panic, wp_throw, bread, wp_pure, hsb,
    Bool.not_eq_true]
  refine ⟨fun hclear hused => ?_, fun hused => ?_⟩
  · rw [Used, hclear] at hused
    exact Bool.noConfusion hused.1
  · exact wp_mono' (logWrite_spec _ _ _) (fun _ _ h => ⟨hused, h.1⟩) fun _ _ h hfit => h hfit.2

/-! ## Inodes -/

/-- Inode `i` is in slot `k` of the cache, with its copy read. -/
def Loaded (s : FS) (k : Iptr) (i : ℕ) : Prop :=
  0 < (s.icache k).ref ∧ (s.icache k).valid = true ∧ (s.icache k).inum = i

/-- Inode `i` as the kernel has it. -/
def cur (s : FS) (i : ℕ) : Dinode :=
  if i < ninum s.sb then
    match cachedSlot s.icache ROOTDEV i with
    | some k => if (s.icache k).valid then (s.icache k).din else dinode s.disk s.sb i
    | none => dinode s.disk s.sb i
  else Dinode.zero

/-- The slots in use hold different inodes of the root device. -/
structure Distinct (sb : Superblock) (c : Iptr → Inode) : Prop where
  dev : ∀ k, 0 < (c k).ref → (c k).dev = ROOTDEV
  pos : ∀ k, 0 < (c k).ref → 1 ≤ (c k).inum
  lt : ∀ k, 0 < (c k).ref → (c k).inum < ninum sb
  unique : ∀ k l, 0 < (c k).ref → 0 < (c l).ref → (c k).inum = (c l).inum → k = l

theorem Distinct.cachedSlot {sb : Superblock} {c : Iptr → Inode} (h : Distinct sb c) {k : Iptr}
    (hk : 0 < (c k).ref) : cachedSlot c ROOTDEV (c k).inum = some k := by
  cases hs : Xv6.cachedSlot c ROOTDEV (c k).inum with
  | none => exact absurd rfl (cachedSlot_eq_none hs k hk (h.dev k hk))
  | some l =>
    obtain ⟨hl, -, hinum⟩ := cachedSlot_eq_some hs
    rw [h.unique l k hl hk hinum]

/-- The invariant of the store. The copy in slot `x` may be ahead of the disk. -/
structure Store (x : Option Iptr) (s : FS) : Prop where
  geometry : Geometry s.sb
  super : readsb s.disk = s.sb
  distinct : Distinct s.sb s.icache
  typed : ∀ k i, Loaded s k i → (s.icache k).din.type ≠ 0
  clean : ∀ k i, Loaded s k i → x ≠ some k → (s.icache k).din = dinode s.disk s.sb i
  owned : Owned s.sb (cur s) s.disk

section

variable {s s' : FS} {k : Iptr} {i : ℕ}

theorem Loaded.lt (h : Loaded s k i) (hd : Distinct s.sb s.icache) : i < ninum s.sb :=
  h.2.2 ▸ hd.lt k h.1

theorem cur_of_loaded (hd : Distinct s.sb s.icache) (h : Loaded s k i) :
    cur s i = (s.icache k).din := by
  have hslot := hd.cachedSlot h.1
  rw [h.2.2] at hslot
  simp only [cur, if_pos (h.lt hd), hslot, if_pos h.2.1]

theorem cur_of_not_loaded (hi : i < ninum s.sb) (h : ∀ k, ¬ Loaded s k i) :
    cur s i = dinode s.disk s.sb i := by
  rw [cur, if_pos hi]
  cases hslot : cachedSlot s.icache ROOTDEV i with
  | none => rfl
  | some k =>
    obtain ⟨hk, -, hinum⟩ := cachedSlot_eq_some hslot
    have hv : (s.icache k).valid ≠ true := fun hv => h k ⟨hk, hv, hinum⟩
    exact if_neg hv

theorem cur_of_le (hi : ninum s.sb ≤ i) : cur s i = Dinode.zero :=
  if_neg (Nat.not_lt.2 hi)

theorem cur_congr (hd : Distinct s.sb s.icache) (hd' : Distinct s'.sb s'.icache)
    (hsb : s'.sb = s.sb)
    (hload : ∀ k i, Loaded s k i → ∃ l, Loaded s' l i ∧ (s'.icache l).din = (s.icache k).din)
    (hnew : ∀ k i, Loaded s' k i → (∀ l, ¬ Loaded s l i) →
      (s'.icache k).din = dinode s.disk s.sb i)
    (hdisk : ∀ i < ninum s.sb, (∀ k, ¬ Loaded s k i) → (∀ k, ¬ Loaded s' k i) →
      dinode s'.disk s.sb i = dinode s.disk s.sb i) : cur s' = cur s := by
  funext i
  rcases Nat.lt_or_ge i (ninum s.sb) with hi | hi
  · by_cases hl : ∃ k, Loaded s k i
    · obtain ⟨k, hk⟩ := hl
      obtain ⟨l, hl, hdin⟩ := hload k i hk
      rw [cur_of_loaded hd' hl, hdin, cur_of_loaded hd hk]
    · rw [not_exists] at hl
      rw [cur_of_not_loaded hi hl]
      by_cases hl' : ∃ k, Loaded s' k i
      · obtain ⟨k, hk⟩ := hl'
        rw [cur_of_loaded hd' hk, hnew k i hk hl]
      · rw [not_exists] at hl'
        rw [cur_of_not_loaded (hsb ▸ hi) hl', hsb, hdisk i hi hl hl']
  · rw [cur_of_le hi, cur_of_le (hsb ▸ hi)]

end

/-! ## Changes of the store -/

namespace Store

variable {s : FS} {x : Option Iptr} {k : Iptr} {i : ℕ}

theorem cur_eq (h : Store x s) (hk : Loaded s k i) : cur s i = (s.icache k).din :=
  cur_of_loaded h.distinct hk

theorem cur_type (h : Store x s) (hk : Loaded s k i) : (cur s i).type ≠ 0 :=
  h.cur_eq hk ▸ h.typed k i hk

theorem lt (h : Store x s) (hk : Loaded s k i) : i < ninum s.sb :=
  hk.lt h.distinct

/-- A loaded inode agrees with the disk unless it is being changed. -/
theorem dinode_eq (h : Store none s) (hi : i < ninum s.sb) : dinode s.disk s.sb i = cur s i := by
  by_cases hl : ∃ k, Loaded s k i
  · obtain ⟨k, hk⟩ := hl
    rw [h.cur_eq hk, h.clean k i hk (by simp)]
  · rw [not_exists] at hl
    rw [cur_of_not_loaded hi hl]

theorem mono (h : Store none s) (x : Option Iptr) : Store x s :=
  { h with clean := fun k i hk _ => h.clean k i hk (by simp) }

end Store

/-! ## Changes of the store -/

/-- The caches differ in copies of inodes at most. -/
def SameSlots (s s' : FS) : Prop :=
  ∀ k, s'.icache k = { s.icache k with din := (s'.icache k).din }

namespace SameSlots

variable {s s' s'' : FS}

theorem refl (s : FS) : SameSlots s s := fun _ => rfl

theorem trans (h : SameSlots s s') (h' : SameSlots s' s'') : SameSlots s s'' := fun k => by
  rw [h' k, h k]

theorem setDin (s : FS) (k : Iptr) (d : Dinode) : SameSlots s (s.setDin k d) := fun l => by
  by_cases hlk : l = k
  · subst hlk
    simp [FS.setDin]
  · simp [FS.setDin, update_of_ne hlk]

theorem ref (h : SameSlots s s') (k : Iptr) : (s'.icache k).ref = (s.icache k).ref := by rw [h k]

theorem dev (h : SameSlots s s') (k : Iptr) : (s'.icache k).dev = (s.icache k).dev := by rw [h k]

theorem inum (h : SameSlots s s') (k : Iptr) : (s'.icache k).inum = (s.icache k).inum := by
  rw [h k]

theorem valid (h : SameSlots s s') (k : Iptr) : (s'.icache k).valid = (s.icache k).valid := by
  rw [h k]

theorem busy (h : SameSlots s s') (k : Iptr) : (s'.icache k).busy = (s.icache k).busy := by
  rw [h k]

theorem loaded (h : SameSlots s s') {k : Iptr} {i : ℕ} : Loaded s' k i ↔ Loaded s k i := by
  rw [Loaded, h.ref, h.valid, h.inum, Loaded]

theorem distinct (h : SameSlots s s') {sb : Superblock} (hd : Distinct sb s.icache) :
    Distinct sb s'.icache := by
  obtain ⟨h1, h2, h3, h4⟩ := hd
  constructor <;> simpa only [h.ref, h.dev, h.inum]

end SameSlots

/-- A change of disk, log and cache that logs blocks of `V` and at most `n` others. -/
structure Eff (V : Finset ℕ) (n : ℕ) (s s' : FS) : Prop where
  env : s'.env = s.env
  loads : ∀ W, V ⊆ W → load W s'.log.lh ≤ load W s.log.lh + n

/-- Such a change that keeps the slots of the cache. -/
structure Step (V : Finset ℕ) (n : ℕ) (s s' : FS) : Prop extends Eff V n s s' where
  same : SameSlots s s'

section

variable {s s' s'' : FS} {V W : Finset ℕ} {m n : ℕ}

theorem Eff.trans (h : Eff V m s s') (h' : Eff W n s' s'') : Eff (V ∪ W) (m + n) s s'' where
  env := h'.env.trans h.env
  loads X hX := by
    have := h.loads X (union_subset_left hX)
    have := h'.loads X (union_subset_right hX)
    omega

theorem Eff.mono (h : Eff V m s s') (hV : V ⊆ W) (hn : m ≤ n) : Eff W n s s' :=
  { h with loads := fun X hX => (h.loads X (hV.trans hX)).trans (Nat.add_le_add_left hn _) }

theorem Step.trans (h : Step V m s s') (h' : Step W n s' s'') : Step (V ∪ W) (m + n) s s'' :=
  ⟨h.toEff.trans h'.toEff, h.same.trans h'.same⟩

theorem Step.mono (h : Step V m s s') (hV : V ⊆ W) (hn : m ≤ n) : Step W n s s' :=
  ⟨h.toEff.mono hV hn, h.same⟩

theorem Step.write (s : FS) (b : ℕ) (data : Block) : Step {b} 0 s (s.write b data) :=
  ⟨⟨rfl, fun _ hW => (load_absorb_of_mem (hW (mem_singleton_self b)) _).le⟩,
    SameSlots.refl s⟩

end

namespace Store

variable {s s' : FS} {x : Option Iptr} {k : Iptr} {i b : ℕ} {data : Block}

/-- A change of the bitmap, of data blocks and of the copy of one inode keeps the store, as
long as the blocks are owned. -/
theorem change (h : Store x s) (hx : x = none ∨ x = some k) (hk : Loaded s k i)
    (hsb : s'.sb = s.sb) (hsame : SameSlots s s')
    (hdin : ∀ l ≠ k, (s'.icache l).din = (s.icache l).din)
    (hdisk : ∀ b < s.sb.bmapstart.toNat, s'.disk b = s.disk b)
    (htype : (s'.icache k).din.type ≠ 0)
    (howned : Owned s.sb (update (cur s) i (s'.icache k).din) s'.disk) :
    Store (some k) s' ∧ cur s' = update (cur s) i (s'.icache k).din := by
  have hd' : Distinct s'.sb s'.icache := hsb.symm ▸ hsame.distinct h.distinct
  have hdinode : ∀ l < ninum s.sb, dinode s'.disk s.sb l = dinode s.disk s.sb l :=
    fun l hl => dinode_congr (hdisk _ (h.geometry.inode_block hl).2)
  have hcur : cur s' = update (cur s) i (s'.icache k).din := by
    funext j
    by_cases hj : j = i
    · subst hj
      rw [update_self, cur_of_loaded hd' (hsame.loaded.2 hk)]
    · rw [update_of_ne hj]
      rcases Nat.lt_or_ge j (ninum s.sb) with hlt | hge
      · by_cases hl : ∃ l, Loaded s l j
        · obtain ⟨l, hl⟩ := hl
          have hlk : l ≠ k := by
            rintro rfl
            exact hj (hl.2.2.symm.trans hk.2.2)
          rw [cur_of_loaded hd' (hsame.loaded.2 hl), h.cur_eq hl, hdin l hlk]
        · rw [not_exists] at hl
          rw [cur_of_not_loaded hlt hl,
            cur_of_not_loaded (hsb ▸ hlt) fun l hl' => hl l (hsame.loaded.1 hl'), hsb,
            hdinode j hlt]
      · rw [cur_of_le hge, cur_of_le (hsb ▸ hge)]
  refine ⟨⟨hsb ▸ h.geometry, ?_, hd', fun l j hl => ?_, fun l j hl hne => ?_, ?_⟩, hcur⟩
  · have hlt : 1 < s.sb.bmapstart.toNat := by
      have := h.geometry.log_start
      have := h.geometry.log_end
      have := h.geometry.inodes_end
      omega
    rw [hsb, readsb_congr (hdisk 1 hlt), h.super]
  · by_cases hlk : l = k
    · exact hlk ▸ htype
    · rw [hdin l hlk]
      exact h.typed l j (hsame.loaded.1 hl)
  · have hlk : l ≠ k := fun hlk => hne (congrArg some hlk.symm)
    have hl' := hsame.loaded.1 hl
    rw [hdin l hlk, hsb, hdinode j (h.lt hl'), h.clean l j hl']
    rcases hx with rfl | rfl
    · simp
    · exact hne
  · rw [hsb, hcur]
    exact howned

theorem write_data (h : Store x s) (data : Block) {m j : ℕ}
    (hown : Own s.sb (cur s) s.disk b (m, j))
    (hj : j ≠ NDIRECT) :
    Store x (s.write b data) ∧ cur (s.write b data) = cur s := by
  have hin : InData s.sb b := (h.owned.exact.used_of_own _ _ hown).1
  have hne : ∀ l < ninum s.sb, dinode (s.write b data).disk s.sb l = dinode s.disk s.sb l :=
    fun l hl => dinode_congr (update_of_ne (h.geometry.data_ne_inode hin hl).symm _ _)
  have hcur : cur (s.write b data) = cur s :=
    cur_congr h.distinct h.distinct rfl (fun k i hk => ⟨k, hk, rfl⟩)
      (fun k i hk hno => absurd hk (hno k)) fun i hi _ _ => hne i hi
  refine ⟨⟨h.geometry, ?_, h.distinct, h.typed, fun l j hl hne' => ?_, ?_⟩, hcur⟩
  · have := h.geometry.two_le_data hin
    exact (readsb_congr (update_of_ne (by omega) _ _)).trans h.super
  · exact (h.clean l j hl hne').trans (hne j (h.lt hl)).symm
  · rw [hcur]
    exact (h.owned.write_data h.geometry data hown hj).1

theorem flush (h : Store (some k) s) (hk : Loaded s k i) :
    Store none (s.write (IBLOCK i s.sb) (putDinode s.disk s.sb i (s.icache k).din)) ∧
      cur (s.write (IBLOCK i s.sb) (putDinode s.disk s.sb i (s.icache k).din)) = cur s := by
  have hi := h.lt hk
  have hblk := h.geometry.inode_block hi
  have hput : ∀ j, dinode (s.write (IBLOCK i s.sb)
      (putDinode s.disk s.sb i (s.icache k).din)).disk s.sb j =
        if j = i then (s.icache k).din else dinode s.disk s.sb j :=
    fun j => dinode_put s.disk s.sb i j _
  have hcur : cur (s.write (IBLOCK i s.sb) (putDinode s.disk s.sb i (s.icache k).din)) = cur s := by
    refine cur_congr h.distinct h.distinct rfl (fun k i hk => ⟨k, hk, rfl⟩)
      (fun k i hk hno => absurd hk (hno k)) fun j _ hno _ => ?_
    have hji : j ≠ i := by
      rintro rfl
      exact hno k hk
    rw [hput, if_neg hji]
  refine ⟨⟨h.geometry, ?_, h.distinct, h.typed, fun l j hl _ => ?_, ?_⟩, hcur⟩
  · exact (readsb_congr (update_of_ne (by omega) _ _)).trans h.super
  · refine Eq.trans ?_ (hput j).symm
    show (s.icache l).din = _
    by_cases hlk : l = k
    · subst hlk
      rw [if_pos (hl.2.2.symm.trans hk.2.2)]
    · have hji : j ≠ i := by
        rintro rfl
        exact hlk (h.distinct.unique l k hl.1 hk.1 (hl.2.2.trans hk.2.2.symm))
      rw [if_neg hji]
      exact h.clean l j hl fun hlk' => hlk (Option.some.inj hlk').symm
  · rw [hcur]
    refine h.owned.disk_congr (fun c hc => ?_) fun c hc => used_congr ?_
    · exact update_of_ne (h.geometry.data_ne_inode hc hi) _ _
    · exact update_of_ne (h.geometry.bitmap_ne_inode hc hi) _ _

end Store

end Xv6
