import Mathlib.Data.List.GetD
import Xv6.Lib.Transition
import Xv6.Lib.Wp
import Xv6.Param

/-!
# Crash atomicity of the redo log

`commit` and `recover_from_log` of `log.c`, as programs on a disk that loses power after
a given number of block writes. A crash leaves the disk as the writes before it made it, and loses
the buffer cache and the in-memory header. The next boot runs `recoverFromLog`, which can crash in
turn.

A group commit is the list of logged blocks with their contents in the buffer cache
(`Tx`). `Recoverable g T d` says that recovery on `d` makes the blocks outside the log equal to
`T` : the header lists some blocks, their log copies are as in `T`, and every other block outside
the log is already. Every write of `recoverFromLog` keeps it, and every write of `commit` keeps it
for the old contents before the first `writeHead`, for the new ones from it on.
-/

open Function Prog Layout List

namespace Xv6.LogDisk

/-- Where the log lies : `log.start` and `log.size`. The header is one of its blocks. -/
structure Geom where
  /-- Block of the header. -/
  start : ℕ
  /-- Number of blocks, the header included. -/
  size : ℕ
  pos : 0 < size

/-- Block `b` is in the log area. -/
def Geom.InLog (g : Geom) (b : ℕ) : Prop :=
  g.start ≤ b ∧ b < g.start + g.size

/-- The disk, the buffer cache and the in-memory log header, with the number of block
writes left before the power fails. -/
structure Dev where
  disk : ℕ → Block
  /-- The blocks as the buffer cache holds them. -/
  buf : ℕ → Block
  lh : List UInt32
  /-- Block writes left. -/
  power : ℕ

/-- The power fails. -/
inductive Crash where
  | crash

/-- Programs on the disk. -/
abbrev LogM := EStateM Crash Dev

/-! ## The code of `log.c` -/

def bread (b : ℕ) : LogM Block := do
  return (← get).buf b

/-- `bwrite` of the buffer of block `b`, changed to `data`. -/
def bwrite (b : ℕ) (data : Block) : LogM Unit := do
  let s ← get
  if s.power = 0 then
    throw .crash
  else
    set { s with
      disk := update s.disk b data
      buf := update s.buf b data
      power := s.power - 1 }

/-- The header block `hb` after `write_head` stored the header in it. -/
def putHead (hb : Block) (lh : List UInt32) : Block :=
  lh.zipIdx.foldl (fun hb p => Bytes.write Codec.u32 hb (4 * (p.2 + 1)) p.1)
    (Bytes.write Codec.u32 hb 0 (UInt32.ofNat lh.length))

/-- `hb->n`. -/
def headN (hb : Block) : UInt32 :=
  Bytes.read Codec.u32 hb 0

/-- The header in the header block `hb`, as `read_head` reads it. -/
def getHead (hb : Block) : List UInt32 :=
  (List.range (headN hb).toInt32.toInt.toNat).map fun i =>
    Bytes.read Codec.u32 hb (4 * (i + 1))

section

variable (g : Geom)

def writeHead : LogM Unit := do
  let hb ← bread g.start
  let s ← get
  bwrite g.start (putHead hb s.lh)

def readHead : LogM Unit := do
  let hb ← bread g.start
  modify fun s => { s with lh := getHead hb }

def writeLog : LogM Unit := do
  let s ← get
  forM s.lh.zipIdx fun p => do
    let src ← bread p.1.toNat
    bwrite (g.start + p.2 + 1) src

def installTrans : LogM Unit := do
  let s ← get
  forM s.lh.zipIdx fun p => do
    let lbuf ← bread (g.start + p.2 + 1)
    bwrite p.1.toNat lbuf

def recoverFromLog : LogM Unit := do
  readHead g
  installTrans g
  modify fun s => { s with lh := [] }
  writeHead g

def commit : LogM Unit := do
  let s ← get
  if s.lh.length > 0 then do
    writeLog g
    writeHead g
    installTrans g
    modify fun s => { s with lh := [] }
    writeHead g
  else
    pure ()

end

/-! ## Runs with crashes -/

/-- A group commit : the logged blocks and what the buffer cache holds for them. -/
structure Tx (g : Geom) where
  blocks : List UInt32
  data : ℕ → Block
  fits : blocks.length ≤ LOGSIZE
  room : blocks.length ≤ g.size - 1
  outside : ∀ b ∈ blocks, ¬g.InLog b.toNat

/-- The blocks of `d` with those of the commit replaced. -/
def Tx.apply {g : Geom} (t : Tx g) (d : ℕ → Block) : ℕ → Block :=
  fun b => if ∃ c ∈ t.blocks, c.toNat = b then t.data b else d b

/-- The computer : its disk, and whether the kernel is up or recovery is still to run. -/
structure Machine where
  disk : ℕ → Block
  up : Bool

/-- What happens next, with the number of block writes before the power fails. -/
inductive Event (g : Geom) where
  | commit (t : Tx g) (power : ℕ)
  /-- A boot, which runs recovery. -/
  | recover (power : ℕ)
  /-- The power fails while the kernel is up and no commit is running. -/
  | off

/-- The machine after a program ran : up if it returned, down if the power failed. -/
def Machine.after : EStateM.Result Crash Dev Unit → Machine
  | .ok _ s => ⟨s.disk, true⟩
  | .error _ s => ⟨s.disk, false⟩

/-- One event. A commit needs the kernel up, recovery needs it down. -/
def Machine.step {g : Geom} (m : Machine) : Event g → Option Machine
  | .commit t power =>
    if m.up then some (.after (LogDisk.commit g ⟨m.disk, t.apply m.disk, t.blocks, power⟩))
    else none
  | .recover power =>
    if m.up then none else some (.after (recoverFromLog g ⟨m.disk, m.disk, [], power⟩))
  | .off => if m.up then some ⟨m.disk, false⟩ else none

/-- A sequence of events. -/
def Machine.run {g : Geom} (m : Machine) (es : List (Event g)) : Option Machine :=
  Transition.run Machine.step m es

/-- The commits of a sequence of events. -/
def commits {g : Geom} : List (Event g) → List (Tx g)
  | [] => []
  | .commit t _ :: es => t :: commits es
  | .recover _ :: es => commits es
  | .off :: es => commits es

/-- The commits whose first `write_head` reached the disk : the log copies and the header
were written before the power failed. A commit of no blocks has nothing to write. -/
def reached {g : Geom} : List (Event g) → List (Tx g)
  | [] => []
  | .commit t power :: es =>
    if t.blocks = [] ∨ t.blocks.length < power then t :: reached es else reached es
  | .recover _ :: es => reached es
  | .off :: es => reached es

/-- The disk after a list of commits. -/
def applyAll {g : Geom} (d : ℕ → Block) (ts : List (Tx g)) : ℕ → Block :=
  ts.foldl (fun d t => t.apply d) d

/-! ## The header block -/

theorem read_putHead_loop : ∀ (lh : List UInt32) (k : ℕ) (hb : Block) (j : ℕ),
    k + lh.length < 128 →
    Bytes.read Codec.u32 ((lh.zipIdx k).foldl
        (fun hb p => Bytes.write Codec.u32 hb (4 * (p.2 + 1)) p.1) hb) (4 * j) =
      if k < j ∧ j ≤ k + lh.length then lh.getD (j - (k + 1)) 0
      else Bytes.read Codec.u32 hb (4 * j)
  | [], k, hb, j, _ => by rw [if_neg (by simp)]; rfl
  | b :: lh, k, hb, j, hk => by
    rw [length_cons] at hk ⊢
    have hw := Bytes.read_write_index Codec.u32 hb (i := k + 1) (j := j) b
      (by simp only [Codec.u32, BSIZE]; omega)
    rw [show Codec.u32.size = 4 from rfl] at hw
    simp only [zipIdx_cons, foldl_cons]
    rw [read_putHead_loop lh (k + 1) _ j (by omega), hw]
    rcases Nat.lt_trichotomy j (k + 1) with hj | rfl | hj
    · rw [if_neg (by omega), if_neg (by omega), if_neg (by omega)]
    · rw [if_neg (by omega), if_pos rfl, if_pos (by omega), Nat.sub_self, getD_cons_zero]
    · have hj' : j - (k + 1) = j - (k + 1 + 1) + 1 := by omega
      rw [hj', getD_cons_succ, if_neg (by omega : j ≠ k + 1)]
      exact if_congr (by omega) rfl rfl

theorem getHead_putHead (hb : Block) {lh : List UInt32} (h : lh.length ≤ LOGSIZE) :
    getHead (putHead hb lh) = lh := by
  simp only [LOGSIZE, MAXOPBLOCKS] at h
  have hword : ∀ j, Bytes.read Codec.u32 (putHead hb lh) (4 * j) =
      if 0 < j ∧ j ≤ lh.length then lh.getD (j - 1) 0
      else Bytes.read Codec.u32 (Bytes.write Codec.u32 hb 0 (UInt32.ofNat lh.length)) (4 * j) := by
    intro j
    rw [putHead, read_putHead_loop lh 0 _ j (by omega), Nat.zero_add]
  have hn : (headN (putHead hb lh)).toInt32.toInt.toNat = lh.length := by
    have h0 := hword 0
    rw [if_neg (by omega), Nat.mul_zero, Bytes.read_write _ _ _ (by decide)] at h0
    rw [headN, h0, UInt32.toInt32_ofNat', Int32.toInt_ofNat_of_lt (by omega), Int.toNat_natCast]
  rw [getHead, hn]
  refine ext_getElem (by simp) fun i hi hi' => ?_
  rw [getElem_map, getElem_range, hword, if_pos ⟨by omega, hi'⟩, Nat.add_sub_cancel,
    getD_eq_getElem _ _ hi']

theorem getHead_of_headN {hb : Block} (h : headN hb = 0) : getHead hb = [] := by
  rw [getHead, h]
  rfl

theorem headN_putHead_nil (hb : Block) : headN (putHead hb []) = 0 :=
  Bytes.read_write Codec.u32 hb 0 (by decide)

/-! ## One write -/

theorem wp_bread {b : ℕ} {Q : Block → Dev → Prop} {E : Crash → Dev → Prop} {s : Dev} :
    wp (bread b) Q E s ↔ Q (s.buf b) s :=
  Iff.rfl

/-- The device after block `b` was written. -/
def Dev.wrote (s : Dev) (b : ℕ) (data : Block) : Dev :=
  { s with
    disk := update s.disk b data
    buf := update s.buf b data
    power := s.power - 1 }

theorem wp_bwrite {b : ℕ} {data : Block} {Q : Unit → Dev → Prop} {E : Crash → Dev → Prop}
    {s : Dev} (hE : s.power = 0 → E .crash s) (hQ : 0 < s.power → Q () (s.wrote b data)) :
    wp (bwrite b data) Q E s := by
  simp only [bwrite, wp_bind, wp_get]
  split_ifs with h
  · exact hE h
  · exact hQ (by omega)

theorem wp_writeHead {g : Geom} {Q : Unit → Dev → Prop} {E : Crash → Dev → Prop} {s : Dev}
    (hE : s.power = 0 → E .crash s)
    (hQ : 0 < s.power → Q () (s.wrote g.start (putHead (s.buf g.start) s.lh))) :
    wp (writeHead g) Q E s := by
  simp only [writeHead, wp_bind, wp_bread, wp_get]
  exact wp_bwrite hE hQ

/-! ## Recovery -/

variable {g : Geom} {T : ℕ → Block}

/-- Recovery on `d` makes the blocks outside the log equal to those of `T`. -/
structure Recoverable (g : Geom) (T d : ℕ → Block) : Prop where
  outside : ∀ c ∈ getHead (d g.start), ¬g.InLog c.toNat
  room : (getHead (d g.start)).length ≤ g.size - 1
  copies : ∀ i (h : i < (getHead (d g.start)).length),
    d (g.start + i + 1) = T (getHead (d g.start))[i].toNat
  home : ∀ b, ¬g.InLog b → (∀ c ∈ getHead (d g.start), c.toNat ≠ b) → d b = T b

/-- The log is empty and the blocks outside it are those of `T`. -/
structure Clean (g : Geom) (T d : ℕ → Block) : Prop where
  empty : headN (d g.start) = 0
  home : ∀ b, ¬g.InLog b → d b = T b

theorem Geom.inLog_start (g : Geom) : g.InLog g.start :=
  ⟨le_rfl, Nat.lt_add_of_pos_right g.pos⟩

theorem Geom.inLog_copy (g : Geom) {i n : ℕ} (hi : i < n) (hn : n ≤ g.size - 1) :
    g.InLog (g.start + i + 1) :=
  ⟨by omega, by omega⟩

theorem Clean.recoverable {d : ℕ → Block} (h : Clean g T d) : Recoverable g T d where
  outside := by simp [getHead_of_headN h.empty]
  room := by simp [getHead_of_headN h.empty]
  copies i hi := by simp [getHead_of_headN h.empty] at hi
  home b hb _ := h.home b hb

/-- Writing the contents in `T` to a listed block keeps the disk recoverable. -/
theorem Recoverable.install {d : ℕ → Block} (h : Recoverable g T d) {c : UInt32}
    (hc : c ∈ getHead (d g.start)) :
    Recoverable g T (update d c.toNat (T c.toNat)) ∧
      update d c.toNat (T c.toNat) g.start = d g.start := by
  have hne : ∀ b, g.InLog b → update d c.toNat (T c.toNat) b = d b := fun b hb =>
    update_of_ne (fun e : b = c.toNat => h.outside c hc (e ▸ hb)) _ _
  have hstart := hne _ g.inLog_start
  refine ⟨⟨?_, ?_, ?_, ?_⟩, hstart⟩
  · rw [hstart]; exact h.outside
  · rw [hstart]; exact h.room
  · intro i hi
    simp only [hstart] at hi ⊢
    rw [hne _ (g.inLog_copy hi h.room)]
    exact h.copies i hi
  · intro b hb hl
    rw [hstart] at hl
    rw [update_of_ne (hl c hc).symm]
    exact h.home b hb hl

/-- The state of `install_trans` with the entries before `i` of the header `l` done. -/
structure Installing (g : Geom) (T : ℕ → Block) (l : List UInt32) (i : ℕ) (s : Dev) : Prop where
  head : getHead (s.disk g.start) = l
  lh : s.lh = l
  disk : Recoverable g T s.disk
  buf : ∀ j (h : j < l.length), s.buf (g.start + j + 1) = T l[j].toNat
  done : ∀ j (h : j < l.length), j < i → s.disk l[j].toNat = T l[j].toNat

/-- One more block is copied home. -/
theorem Installing.step {l : List UInt32} {i : ℕ} {s : Dev} (h : Installing g T l i s)
    (hi : i < l.length) :
    Installing g T l (i + 1) (s.wrote l[i].toNat (s.buf (g.start + i + 1))) := by
  have hmem : l[i] ∈ getHead (s.disk g.start) := by rw [h.head]; exact getElem_mem hi
  have hout := h.disk.outside _ hmem
  have hroom : l.length ≤ g.size - 1 := by simpa only [h.head] using h.disk.room
  rw [h.buf i hi]
  obtain ⟨hrec, hstart⟩ := h.disk.install hmem
  refine ⟨by simpa only [Dev.wrote, hstart] using h.head, h.lh, hrec, ?_, ?_⟩
  · intro j hj
    have hne : g.start + j + 1 ≠ l[i].toNat := fun e =>
      hout (e ▸ g.inLog_copy hj hroom)
    simpa only [Dev.wrote, update_of_ne hne] using h.buf j hj
  · intro j hj hji
    simp only [Dev.wrote, update_apply]
    split_ifs with e
    · rw [e]
    · refine h.done j hj (lt_of_le_of_ne (Nat.lt_succ_iff.1 hji) ?_)
      rintro rfl
      exact e rfl

/-- `install_trans` copies the blocks home. -/
theorem installTrans_spec {l : List UInt32} {s : Dev} (h : Installing g T l 0 s) :
    wp (installTrans g) (fun _ s' => Installing g T l l.length s')
      (fun _ s' => Recoverable g T s'.disk) s := by
  simp only [installTrans, wp_bind, wp_get]
  rw [h.lh]
  refine wp_forM_zipIdx _ l (fun i s' => Installing g T l i s') h fun i hi s' hs => ?_
  simp only [wp_bind, wp_bread]
  exact wp_bwrite (fun _ => hs.disk) fun _ => hs.step hi

theorem Installing.home_eq {l : List UInt32} {s : Dev} (h : Installing g T l l.length s) {b : ℕ}
    (hb : ¬g.InLog b) : s.disk b = T b := by
  by_cases hl : ∃ c ∈ l, c.toNat = b
  · obtain ⟨c, hc, rfl⟩ := hl
    obtain ⟨j, hj, rfl⟩ := getElem_of_mem hc
    exact h.done j hj hj
  · refine h.disk.home b hb fun c hc e => hl ⟨c, ?_, e⟩
    rwa [h.head] at hc

theorem clearHead_spec {s : Dev} (hlh : s.lh = []) (hrec : Recoverable g T s.disk)
    (hhome : ∀ b, ¬g.InLog b → s.disk b = T b) :
    wp (writeHead g) (fun _ s' => Clean g T s'.disk) (fun _ s' => Recoverable g T s'.disk) s := by
  refine wp_writeHead (fun _ => hrec) fun _ => ⟨?_, fun b hb => ?_⟩
  · simp only [Dev.wrote, hlh, update_self, headN_putHead_nil]
  · have hne : b ≠ g.start := fun e => hb (e ▸ g.inLog_start)
    simpa only [Dev.wrote, update_of_ne hne] using hhome b hb

theorem install_clear_spec {l : List UInt32} {s : Dev} (h : Installing g T l 0 s) :
    wp (do installTrans g; modify fun s => { s with lh := [] }; writeHead g)
      (fun _ s' => Clean g T s'.disk) (fun _ s' => Recoverable g T s'.disk) s := by
  refine wp_seq (installTrans_spec h) fun _ s' hs => ?_
  simp only [wp_bind, wp_modify]
  exact clearHead_spec rfl hs.disk fun b hb => hs.home_eq hb

/-- Recovery empties the log, and can be repeated after a crash. -/
theorem recoverFromLog_spec {d : ℕ → Block} (h : Recoverable g T d) (power : ℕ) :
    wp (recoverFromLog g) (fun _ s' => Clean g T s'.disk)
      (fun _ s' => Recoverable g T s'.disk) ⟨d, d, [], power⟩ := by
  simp only [recoverFromLog, readHead, wp_bind (m := bread _ >>= _), wp_bind (m := bread _),
    wp_bread, wp_modify]
  exact install_clear_spec ⟨rfl, rfl, h, h.copies, fun j _ hj => absurd hj (Nat.not_lt_zero j)⟩

/-! ## Commit -/

/-- The state of `write_log` with the entries before `i` of the commit's header done, on
a disk that was `d` before : nothing outside the log has changed, nor has the header. -/
structure Copying {g : Geom} (t : Tx g) (d : ℕ → Block) (power i : ℕ) (s : Dev) : Prop where
  lh : s.lh = t.blocks
  power : s.power + i = power
  head : s.disk g.start = d g.start
  home : ∀ b, ¬g.InLog b → s.disk b = d b
  buf : ∀ b, ¬g.InLog b → s.buf b = t.apply d b
  done : ∀ j (h : j < t.blocks.length), j < i →
    s.disk (g.start + j + 1) = t.apply d t.blocks[j].toNat ∧
      s.buf (g.start + j + 1) = t.apply d t.blocks[j].toNat

/-- One more block is copied to the log. -/
theorem Copying.step {t : Tx g} {d : ℕ → Block} {power i : ℕ} {s : Dev}
    (h : Copying t d power i s) (hi : i < t.blocks.length) (hp : 0 < s.power) :
    Copying t d power (i + 1)
      (s.wrote (g.start + i + 1) (s.buf t.blocks[i].toNat)) := by
  have hin := g.inLog_copy hi t.room
  have hbuf := h.buf _ (t.outside _ (getElem_mem hi))
  have hne : ∀ b, ¬g.InLog b → b ≠ g.start + i + 1 := fun b hb e => hb (e ▸ hin)
  refine ⟨h.lh, ?_, ?_, ?_, ?_, ?_⟩
  · have := h.power
    simp only [Dev.wrote]
    omega
  · simpa only [Dev.wrote, update_of_ne (by omega : g.start ≠ g.start + i + 1)]
      using h.head
  · intro b hb
    simpa only [Dev.wrote, update_of_ne (hne b hb)] using h.home b hb
  · intro b hb
    simpa only [Dev.wrote, update_of_ne (hne b hb)] using h.buf b hb
  · intro j hj hji
    rcases Nat.lt_succ_iff_lt_or_eq.1 hji with hlt | rfl
    · have hne' : g.start + j + 1 ≠ g.start + i + 1 := by omega
      simpa only [Dev.wrote, update_of_ne hne'] using h.done j hj hlt
    · simp only [Dev.wrote, update_self, hbuf, and_self]

/-- `write_log` changes nothing outside the log. -/
theorem writeLog_spec {t : Tx g} {d : ℕ → Block} {power : ℕ} {s : Dev}
    (h : Copying t d power 0 s) :
    wp (writeLog g) (fun _ s' => Copying t d power t.blocks.length s')
      (fun _ s' => power < t.blocks.length ∧ s'.disk g.start = d g.start ∧
        ∀ b, ¬g.InLog b → s'.disk b = d b) s := by
  simp only [writeLog, wp_bind, wp_get]
  rw [h.lh]
  refine wp_forM_zipIdx _ t.blocks (fun i s' => Copying t d power i s') h fun i hi s' hs => ?_
  simp only [wp_bind, wp_bread]
  refine wp_bwrite (fun hp => ⟨?_, hs.head, hs.home⟩) fun hp => hs.step hi hp
  have := hs.power
  omega

theorem Clean.congr {d d' : ℕ → Block} (h : Clean g T d) (hs : d' g.start = d g.start)
    (hd : ∀ b, ¬g.InLog b → d' b = d b) : Clean g T d' :=
  ⟨hs ▸ h.empty, fun b hb => (hd b hb).trans (h.home b hb)⟩

theorem Tx.apply_of_not_mem (t : Tx g) (d : ℕ → Block) {b : ℕ}
    (h : ∀ c ∈ t.blocks, c.toNat ≠ b) : t.apply d b = d b :=
  if_neg fun ⟨c, hc, e⟩ => h c hc e

theorem Tx.apply_congr (t : Tx g) {d d' : ℕ → Block} (hd : ∀ b, ¬g.InLog b → d b = d' b) {b : ℕ}
    (hb : ¬g.InLog b) : t.apply d b = t.apply d' b := by
  simp only [Tx.apply, hd b hb]

theorem Clean.of_eq {T' d : ℕ → Block} (h : Clean g T d) (hT : ∀ b, ¬g.InLog b → T b = T' b) :
    Clean g T' d :=
  ⟨h.empty, fun b hb => (h.home b hb).trans (hT b hb)⟩

theorem Recoverable.of_eq {T' d : ℕ → Block} (h : Recoverable g T d)
    (hT : ∀ b, ¬g.InLog b → T b = T' b) : Recoverable g T' d where
  outside := h.outside
  room := h.room
  copies i hi := (h.copies i hi).trans (hT _ (h.outside _ (getElem_mem hi)))
  home b hb hl := (h.home b hb hl).trans (hT b hb)

/-- The first `write_head` makes the commit's header and log copies what recovery reads. -/
theorem Copying.installing {t : Tx g} {d : ℕ → Block} {power : ℕ} {s : Dev}
    (h : Copying t d power t.blocks.length s) :
    Installing g (t.apply d) t.blocks 0
      (s.wrote g.start (putHead (s.buf g.start) s.lh)) := by
  have hhead : getHead ((s.wrote g.start (putHead (s.buf g.start) s.lh)).disk g.start) =
      t.blocks := by
    simp only [Dev.wrote, update_self, h.lh, getHead_putHead _ t.fits]
  have hcopy : ∀ j, g.start + j + 1 ≠ g.start := fun j => by omega
  refine ⟨hhead, h.lh, ⟨?_, ?_, ?_, ?_⟩, ?_, fun j _ hj => absurd hj (Nat.not_lt_zero j)⟩
  · rw [hhead]; exact t.outside
  · rw [hhead]; exact t.room
  · intro i hi
    simp only [hhead] at hi ⊢
    simpa only [Dev.wrote, update_of_ne (hcopy i)] using (h.done i hi hi).1
  · intro b hb hl
    rw [hhead] at hl
    have hne : b ≠ g.start := fun e => hb (e ▸ g.inLog_start)
    rw [t.apply_of_not_mem d hl]
    simpa only [Dev.wrote, update_of_ne hne] using h.home b hb
  · intro j hj
    simpa only [Dev.wrote, update_of_ne (hcopy j)] using (h.done j hj hj).2

/-- A commit on a disk with an empty log makes the blocks outside the log those of the
commit. Crashing, it leaves a disk that recovers to the old blocks if the power failed
before the first `write_head`, to the new ones after it. -/
theorem commit_spec {d : ℕ → Block} (h : Clean g T d) (t : Tx g) (power : ℕ) :
    wp (commit g)
      (fun _ s' => Clean g (t.apply T) s'.disk ∧ (t.blocks ≠ [] → t.blocks.length < power))
      (fun _ s' => t.blocks ≠ [] ∧
        Recoverable g (if t.blocks.length < power then t.apply T else T) s'.disk)
      ⟨d, t.apply d, t.blocks, power⟩ := by
  have hcopy : Copying t d power 0 ⟨d, t.apply d, t.blocks, power⟩ :=
    ⟨rfl, rfl, rfl, fun _ _ => rfl, fun _ _ => rfl, fun j _ hj => absurd hj (Nat.not_lt_zero j)⟩
  have hT : ∀ b, ¬g.InLog b → t.apply d b = t.apply T b := fun b hb => t.apply_congr h.home hb
  simp only [commit, wp_bind (m := get), wp_get]
  by_cases hn : t.blocks.length > 0
  · have hne : t.blocks ≠ [] := length_pos_iff.1 hn
    rw [if_pos hn]
    refine wp_seq (wp_mono' (writeLog_spec hcopy) (fun _ _ => id) ?_) fun _ s1 h1 => ?_
    · -- The power failed in `write_log` : the header is still empty.
      rintro _ s' ⟨hlt, hs, hd⟩
      rw [if_neg (by omega)]
      exact ⟨hne, (h.congr hs hd).recoverable⟩
    have hpow := h1.power
    refine wp_seq (wp_writeHead (Q := fun _ s' => Installing g (t.apply d) t.blocks 0 s' ∧
      t.blocks.length < power) (fun hp => ?_) fun hp => ⟨h1.installing, by omega⟩) ?_
    · rw [if_neg (by omega)]
      exact ⟨hne, (h.congr h1.head h1.home).recoverable⟩
    · rintro _ s2 ⟨h2, hlt⟩
      rw [if_pos hlt]
      refine wp_mono' (install_clear_spec h2) (fun _ s' hs => ⟨hs.of_eq hT, fun _ => hlt⟩)
        fun _ s' hs => ⟨hne, hs.of_eq hT⟩
  · rw [if_neg hn]
    have hnil : t.blocks = [] := length_eq_zero_iff.1 (by omega)
    refine ⟨⟨h.empty, fun b hb => ?_⟩, fun hne => absurd hnil hne⟩
    rw [t.apply_of_not_mem T (by simp [hnil])]
    exact h.home b hb

/-! ## Runs -/

/-- The invariant of the machine, with the blocks outside the log standing for `T`. -/
def Machine.Holds (g : Geom) (T : ℕ → Block) (m : Machine) : Prop :=
  if m.up then Clean g T m.disk else Recoverable g T m.disk

theorem Machine.Holds.after {T' : ℕ → Block} {r : EStateM.Result Crash Dev Unit}
    (hok : ∀ s, r = .ok () s → Clean g T' s.disk)
    (herr : ∀ e s, r = .error e s → Recoverable g T' s.disk) :
    (Machine.after r).Holds g T' := by
  cases r with
  | ok a s => exact hok s rfl
  | error e s => exact herr e s rfl

/-- Each event keeps the invariant, for the blocks of the commit when its first
`write_head` reached the disk. -/
theorem Machine.Holds.step {m m' : Machine} (h : m.Holds g T) {e : Event g}
    (hm : m.step e = some m') : m'.Holds g (applyAll T (reached [e])) := by
  obtain ⟨d, up⟩ := m
  cases e with
  | commit t power =>
    cases up with
    | false => simp [Machine.step] at hm
    | true =>
      obtain rfl : _ = m' := by simpa [Machine.step] using hm
      have hc := commit_spec (T := T) h t power
      have hreach : applyAll T (reached [Event.commit t power]) =
          if t.blocks = [] ∨ t.blocks.length < power then t.apply T else T := by
        simp only [reached]
        split_ifs <;> rfl
      rw [hreach]
      refine .after (fun s hs => ?_) fun e s hs => ?_
      · obtain ⟨hclean, hne⟩ := wp_ok hc hs
        rwa [if_pos (or_iff_not_imp_left.2 hne)]
      · obtain ⟨hne, hrec⟩ := wp_error hc hs
        simpa only [hne, false_or] using hrec
  | recover power =>
    cases up with
    | true => simp [Machine.step] at hm
    | false =>
      obtain rfl : _ = m' := by simpa [Machine.step] using hm
      have hr := recoverFromLog_spec (T := T) h power
      exact .after (fun s hs => wp_ok hr hs) fun e s hs => wp_error hr hs
  | off =>
    cases up with
    | false => simp [Machine.step] at hm
    | true =>
      obtain rfl : _ = m' := by simpa [Machine.step] using hm
      exact Clean.recoverable (T := T) h

theorem commit_reached {m m' : Machine} (h : m.Holds g T) (hup : m.up = true) {t : Tx g}
    {power : ℕ} (hm : m.step (.commit t power) = some m') (hup' : m'.up = true) :
    t.blocks = [] ∨ t.blocks.length < power := by
  rw [Machine.Holds, if_pos hup] at h
  obtain rfl : _ = m' := by simpa [Machine.step, hup] using hm
  have hc := commit_spec h t power
  cases hr : commit g ⟨m.disk, t.apply m.disk, t.blocks, power⟩ with
  | ok a s => exact or_iff_not_imp_left.2 (wp_ok hc hr).2
  | error e s => simp [hr, Machine.after] at hup'

theorem reached_cons (e : Event g) (es : List (Event g)) :
    reached (e :: es) = reached [e] ++ reached es := by
  cases e with
  | commit t power =>
    simp only [reached]
    split_ifs <;> rfl
  | recover power => rfl
  | off => rfl

/-- The invariant holds along a sequence of events. -/
theorem Machine.Holds.run : ∀ {es : List (Event g)} {T : ℕ → Block} {m m' : Machine},
    m.Holds g T → m.run es = some m' → m'.Holds g (applyAll T (reached es))
  | [], T, m, m', h, hm => by
    obtain rfl : m = m' := by simpa [Machine.run, Transition.run] using hm
    exact h
  | e :: es, T, m, m', h, hm => by
    obtain ⟨m1, h1, hm1⟩ := Transition.run_cons hm
    rw [reached_cons, applyAll, foldl_append]
    exact (h.step h1).run hm1

/-- Recovery has not completed before the last event. -/
def FirstRecovery {g : Geom} (m : Machine) (es : List (Event g)) : Prop :=
  ∀ pre power post m', es = pre ++ .recover power :: post → post ≠ [] →
    m.run (pre ++ [.recover power]) = some m' → m'.up = false

theorem FirstRecovery.tail {m m1 : Machine} {e : Event g} {es : List (Event g)}
    (h : FirstRecovery m (e :: es)) (hm : m.step e = some m1) : FirstRecovery m1 es := by
  rintro pre power post m' rfl hpost hrun
  refine h (e :: pre) power post m' rfl hpost ?_
  simpa only [cons_append, Machine.run, Transition.run, hm, Option.bind_some] using hrun

theorem commits_of_down : ∀ {es : List (Event g)} {m m' : Machine}, m.up = false →
    m.run es = some m' → FirstRecovery m es → commits es = []
  | [], _, _, _, _, _ => rfl
  | e :: es, m, m', hdown, hm, hf => by
    obtain ⟨m1, h1, hm1⟩ := Transition.run_cons hm
    cases e with
    | commit t power => simp [Machine.step, hdown] at h1
    | off => simp [Machine.step, hdown] at h1
    | recover power =>
      by_cases hes : es = []
      · rw [hes]; rfl
      · have hdown1 : m1.up = false := by
          refine hf [] power es m1 rfl hes ?_
          simp only [nil_append, Machine.run, Transition.run, h1, Option.bind_some]
        show commits es = []
        exact commits_of_down hdown1 hm1 (hf.tail h1)

theorem reached_eq_nil : ∀ es : List (Event g), commits es = [] → reached es = []
  | [], _ => rfl
  | .commit _ _ :: _, h => by simp [commits] at h
  | .recover _ :: es, h => reached_eq_nil es h
  | .off :: es, h => reached_eq_nil es h

theorem reached_first : ∀ {es : List (Event g)} {T : ℕ → Block} {m m' : Machine},
    m.Holds g T → m.up = true → m.run es = some m' → FirstRecovery m es →
    List.IsPrefix (reached es) (commits es)
  | [], _, _, _, _, _, _, _ => nil_prefix
  | e :: es, T, m, m', h, hup, hm, hf => by
    obtain ⟨m1, h1, hm1⟩ := Transition.run_cons hm
    have hf1 := hf.tail h1
    have hH := h.step h1
    cases e with
    | recover power => simp [Machine.step, hup] at h1
    | off =>
      have hdown : m1.up = false := by
        obtain rfl : _ = m1 := by simpa [Machine.step, hup] using h1
        rfl
      rw [reached, reached_eq_nil _ (commits_of_down hdown hm1 hf1)]
      exact nil_prefix
    | commit t power =>
      by_cases hup1 : m1.up = true
      · have hreach : t.blocks = [] ∨ t.blocks.length < power :=
          commit_reached h hup h1 hup1
        rw [reached, if_pos hreach, commits]
        exact (prefix_cons_inj t).2 (reached_first hH hup1 hm1 hf1)
      · have hc := commits_of_down (by simpa using hup1) hm1 hf1
        rw [reached, reached_eq_nil _ hc, commits, hc]
        split_ifs
        · exact prefix_refl _
        · exact nil_prefix

/-- Crash atomicity. Start from any disk with an empty log, with the kernel up, and let any sequence
of group commits, power failures and recoveries follow, the power failing after any number of block
writes. Whenever the kernel is up again, the blocks outside the log are those after the commits
whose first `write_head` reached the disk, in order, and the log is empty. Until the first recovery
completes these are the first commits of the sequence. -/
theorem crash_atomicity (g : Geom) (d : ℕ → Block) (hd : headN (d g.start) = 0)
    (es : List (Event g)) (m : Machine) (hm : Machine.run ⟨d, true⟩ es = some m)
    (hup : m.up = true) :
    (∀ b, ¬g.InLog b → m.disk b = applyAll d (reached es) b) ∧ headN (m.disk g.start) = 0 ∧
      (FirstRecovery ⟨d, true⟩ es → List.IsPrefix (reached es) (commits es)) := by
  have h : Machine.Holds g d ⟨d, true⟩ := ⟨hd, fun _ _ => rfl⟩
  have h' := h.run hm
  rw [Machine.Holds, if_pos hup] at h'
  exact ⟨h'.home, h'.empty, reached_first h rfl hm⟩

/-- A log of a header and two blocks. -/
def smallLog : Geom := ⟨2, 3, by decide⟩

/-- A commit of block `10`. -/
def smallTx : Tx smallLog where
  blocks := [10]
  data _ _ := 7
  fits := by decide
  room := by decide
  outside := by simp [smallLog, Geom.InLog]

/-- The power fails right after the header of a commit is written, and again before the
first write of recovery; the next recovery completes the commit. -/
theorem crash_atomicity_smallTx : ∃ m,
    Machine.run ⟨fun _ => zeroBlock, true⟩
      [.commit smallTx 2, .recover 0, .recover 5] = some m ∧ m.up = true ∧
      m.disk 10 = (fun _ => 7) ∧ headN (m.disk 2) = 0 := by
  obtain ⟨m, hm, hup⟩ : ∃ m, Machine.run ⟨fun _ => zeroBlock, true⟩
      [.commit smallTx 2, .recover 0, .recover 5] = some m ∧ m.up = true :=
    ⟨_, rfl, rfl⟩
  have h := crash_atomicity smallLog (fun _ => zeroBlock) (by decide) _ m hm hup
  exact ⟨m, hm, hup, h.1 10 (by simp [smallLog, Geom.InLog]), h.2.1⟩

end Xv6.LogDisk
