import Mathlib
import Xv6.File

/-!
# Buffers of system calls

`read`, `write`, `fstat` and `pipe` take a pointer to user memory. `argptr` checks that the
buffer lies below `proc->sz`, with a length that is an `int` in the call, added as an
unsigned number in the check, and again a signed or an unsigned number in the functions
that copy. A call is followed from the words on the user stack to the addresses the kernel reads
and writes.

A negative length passes the check when the sum wraps around to an address below `sz`. The loops of
pipes, of the console and of `filewrite` then do nothing, but `readi` takes the length for a large
unsigned number and copies up to the end of the file, past `sz` if the file is long enough. This is
the only way out (`buffers_confined`).
-/

open Option

namespace Xv6.UserBuf

/-- Start of the kernel part of an address space. -/
abbrev KERNBASE : UInt32 := 0x80000000

/-- An inode, as far as `readi` and `writei` decide what to copy. -/
structure Ino where
  /-- Major device number, for an inode of type `T_DEV`. -/
  major : Option Int16
  size : UInt32

/-- What an open file is. -/
inductive Target where
  | pipe
  | inode (ip : Ino) (off : UInt32)

/-- An open file. -/
structure OFile where
  readable : Bool
  writable : Bool
  target : Target

/-- The process that makes the call. -/
structure Process where
  sz : UInt32
  mem : UInt32 → UInt8
  esp : UInt32
  ofile : Fin NOFILE → Option OFile

/-- What is not decided by the arguments. -/
structure Env where
  /-- Number of bytes a pipe or the console gives or takes before the call ends. -/
  avail : ℕ
  /-- `pipealloc` and `fdalloc` succeed. -/
  alloc : Bool

/-- A word as an `int`. -/
def signed (n : UInt32) : ℤ :=
  n.toInt32.toInt

/-! ## Arguments -/

/-- The little-endian word at `addr`. -/
def Process.word (u : Process) (addr : UInt32) : UInt32 :=
  (u.mem addr).toUInt32 + (u.mem (addr + 1)).toUInt32 * 2 ^ 8 +
    (u.mem (addr + 2)).toUInt32 * 2 ^ 16 + (u.mem (addr + 3)).toUInt32 * 2 ^ 24

def fetchint (u : Process) (addr : UInt32) : Option UInt32 :=
  if addr ≥ u.sz ∨ addr + 4 > u.sz then none else some (u.word addr)

def argint (u : Process) (n : UInt32) : Option UInt32 :=
  fetchint u (u.esp + 4 + 4 * n)

def argptr (u : Process) (n size : UInt32) : Option UInt32 := do
  let i ← argint u n
  if i ≥ u.sz ∨ i + size > u.sz then none else some i

def argfd (u : Process) (n : UInt32) : Option OFile := do
  let fd ← argint u n
  if h : 0 ≤ signed fd ∧ signed fd < NOFILE then u.ofile ⟨(signed fd).toNat, by omega⟩ else none

/-! ## Addresses -/

/-- The addresses of `m` bytes at `p`. -/
def span (p : UInt32) (m : ℕ) : List UInt32 :=
  (List.range m).map fun j => p + UInt32.ofNat j

/-- The loops of `piperead` and `pipewrite` over `addr[i]`. -/
def pipeLoop (addr : UInt32) (n : ℤ) : ℕ → ℕ → List UInt32
  | 0, _ => []
  | avail + 1, i =>
    if (i : ℤ) < n then (addr + UInt32.ofNat i) :: pipeLoop addr n avail (i + 1) else []

/-- The loop of `consoleread`. -/
def consoleread (dst : UInt32) (n : ℤ) : ℕ → List UInt32
  | 0 => []
  | avail + 1 => if 0 < n then dst :: consoleread (dst + 1) (n - 1) avail else []

/-- The loop of `consolewrite`. -/
def consolewrite (buf : UInt32) (n : ℤ) : List UInt32 :=
  span buf n.toNat

/-- The major number of the console, the one device in `devsw`. -/
abbrev CONSOLE : Int16 := 1

/-- `devsw[major]` has functions. -/
def hasDevice (major : Int16) : Prop :=
  ¬ (major < 0 ∨ major.toInt ≥ NDEV) ∧ major = CONSOLE

instance (major : Int16) : Decidable (hasDevice major) :=
  inferInstanceAs (Decidable (_ ∧ _))

/-- The user side of the `memmove`s of `readi` and `writei`, from offset `off` with `rem`
bytes to go, in at most `fuel` turns. -/
def blockLoop : ℕ → ℕ → ℕ → UInt32 → List UInt32
  | 0, _, _, _ => []
  | fuel + 1, off, rem, p =>
    if rem = 0 then []
    else
      let m := min rem (BSIZE - off % BSIZE)
      span p m ++ blockLoop fuel (off + m) (rem - m) (p + UInt32.ofNat m)

def readi (ip : Ino) (dst off n : UInt32) (env : Env) : List UInt32 :=
  match ip.major with
  | some major => if hasDevice major then consoleread dst (signed n) env.avail else []
  | none =>
    if off > ip.size ∨ off + n < off then []
    else
      let n := if off + n > ip.size then ip.size - off else n
      blockLoop n.toNat off.toNat n.toNat dst

/-- `writei`, with its result and the inode it leaves; there is no result where it is
`-1`. -/
def writei (ip : Ino) (src off n : UInt32) : List UInt32 × Option (ℕ × Ino) :=
  match ip.major with
  | some major =>
    if hasDevice major then (consolewrite src (signed n), some (n.toNat, ip)) else ([], none)
  | none =>
    if off > ip.size ∨ off + n < off then ([], none)
    else if (off + n).toNat > MAXFILE * BSIZE then ([], none)
    else
      (blockLoop n.toNat off.toNat n.toNat src, some (n.toNat,
        if n > 0 ∧ off + n > ip.size then { ip with size := off + n } else ip))

def fileread (f : OFile) (addr n : UInt32) (env : Env) : List UInt32 :=
  if f.readable = false then []
  else
    match f.target with
    | .pipe => pipeLoop addr (signed n) env.avail 0
    | .inode ip off => readi ip addr off n env

/-- The loop of `filewrite` with `i` bytes of `n` done, in at most `fuel` turns. -/
def filewriteLoop (addr : UInt32) (n : ℤ) : ℕ → ℕ → Ino → UInt32 → List UInt32
  | 0, _, _, _ => []
  | fuel + 1, i, ip, off =>
    if n ≤ i then []
    else
      let n1 := min (n - i).toNat filewriteMax
      match writei ip (addr + UInt32.ofNat i) off (UInt32.ofNat n1) with
      | (acc, none) => acc
      | (acc, some (r, ip')) =>
        acc ++ if r ≠ n1 then [] else filewriteLoop addr n fuel (i + r) ip' (off + UInt32.ofNat r)

def filewrite (f : OFile) (addr n : UInt32) (env : Env) : List UInt32 :=
  if f.writable = false then []
  else
    match f.target with
    | .pipe => pipeLoop addr (signed n) env.avail 0
    | .inode ip off => filewriteLoop addr (signed n) (signed n).toNat 0 ip off

/-- Size of `struct stat`. -/
abbrev STAT : UInt32 := 20

/-- `filestat` : the fields of `struct stat`, with their offsets and sizes. -/
def filestat (f : OFile) (st : UInt32) : List UInt32 :=
  match f.target with
  | .inode _ _ => [(4, 4), (8, 4), (0, 2), (12, 2), (16, 4)].flatMap fun x => span (st + x.1) x.2
  | .pipe => []

/-! ## The calls -/

/-- A system call with a buffer. -/
inductive Call where
  | read
  | write
  | fstat
  | pipe
  deriving DecidableEq

/-- The user addresses of the buffer that a call reads or writes; `none` when the checks of
the arguments fail. -/
def Call.run (u : Process) (env : Env) : Call → Option (List UInt32)
  | .read => do
    let f ← argfd u 0
    let n ← argint u 2
    let p ← argptr u 1 n
    return fileread f p n env
  | .write => do
    let f ← argfd u 0
    let n ← argint u 2
    let p ← argptr u 1 n
    return filewrite f p n env
  | .fstat => do
    let f ← argfd u 0
    let st ← argptr u 1 STAT
    return filestat f st
  | .pipe => do
    let fd ← argptr u 0 8
    return if env.alloc then span fd 4 ++ span (fd + 4) 4 else []

/-! ## What the checks say -/

theorem signed_eq (n : UInt32) :
    signed n = if n.toNat < 2 ^ 31 then (n.toNat : ℤ) else n.toNat - 2 ^ 32 := by
  have h := BitVec.toInt_eq_toNat_cond n.toBitVec
  have hn : n.toBitVec.toNat = n.toNat := rfl
  rw [hn] at h
  unfold signed
  rw [Int32.toInt, UInt32.toBitVec_toInt32, h]
  split_ifs <;> omega

variable {u : Process} {env : Env}

theorem argptr_eq_some {n size p : UInt32} (h : argptr u n size = some p) :
    p.toNat < u.sz.toNat ∧ (p.toNat + size.toNat) % 2 ^ 32 ≤ u.sz.toNat := by
  simp only [argptr, bind_eq_bind, bind_eq_some_iff,
    ite_none_left_eq_some, not_or, ge_iff_le, gt_iff_lt, not_le, not_lt, some.injEq,
    UInt32.le_iff_toNat_le, UInt32.lt_iff_toNat_lt, UInt32.toNat_add] at h
  obtain ⟨i, -, h, rfl⟩ := h
  exact h

/-- `argptr` keeps a range of proper length below `sz`. -/
theorem argptr_confined {n size p : UInt32} (hsz : u.sz < KERNBASE)
    (h : argptr u n size = some p) (hsize : 0 ≤ signed size) :
    p.toNat + size.toNat ≤ u.sz.toNat := by
  have hp := argptr_eq_some h
  have hk : u.sz.toNat < 2 ^ 31 := hsz
  have hs := size.toNat_lt
  rw [signed_eq] at hsize
  split_ifs at hsize with hlt
  · omega
  · omega

theorem argptr_signed {k n p : UInt32} (hsz : u.sz < KERNBASE) (hp : argptr u k n = some p) :
    p.toNat + (signed n).toNat ≤ u.sz.toNat := by
  have hlt := (argptr_eq_some hp).1
  by_cases hn : 0 ≤ signed n
  · have := argptr_confined hsz hp hn
    rw [signed_eq] at hn ⊢
    split_ifs at hn ⊢ <;> omega
  · omega

theorem argptr_part {k size p : UInt32} {off m : ℕ} (hsz : u.sz < KERNBASE)
    (hp : argptr u k size = some p) (hsize : 0 ≤ signed size) (h : off + m ≤ size.toNat) :
    (p + UInt32.ofNat off).toNat + m ≤ u.sz.toNat := by
  have := argptr_confined hsz hp hsize
  have := u.sz.toNat_lt
  rw [UInt32.toNat_add, UInt32.toNat_ofNat']
  omega

/-! ## What is copied -/

theorem span_confined {sz p : UInt32} {m : ℕ} (h : p.toNat + m ≤ sz.toNat) :
    ∀ a ∈ span p m, a < sz := by
  intro a ha
  simp only [span, List.mem_map, List.mem_range] at ha
  obtain ⟨j, hj, rfl⟩ := ha
  rw [UInt32.lt_iff_toNat_lt, UInt32.toNat_add, UInt32.toNat_ofNat']
  have := sz.toNat_lt
  omega

theorem span_escape {sz p : UInt32} {m : ℕ} (hp : p.toNat < sz.toNat)
    (h : sz.toNat < p.toNat + m) : sz ∈ span p m := by
  simp only [span, List.mem_map, List.mem_range]
  refine ⟨sz.toNat - p.toNat, by omega, ?_⟩
  rw [← UInt32.toNat_inj, UInt32.toNat_add, UInt32.toNat_ofNat']
  have := sz.toNat_lt
  omega

theorem span_append (p : UInt32) (m n : ℕ) :
    span p (m + n) = span p m ++ span (p + UInt32.ofNat m) n := by
  unfold span
  rw [List.range_add, List.map_append, List.map_map]
  congr 1
  refine List.map_congr_left fun j _ => ?_
  simp only [Function.comp_apply, UInt32.ofNat_add, UInt32.add_assoc]

/-- Block by block, the range is gone through once. -/
theorem blockLoop_eq : ∀ (fuel off rem : ℕ) (p : UInt32), rem ≤ fuel →
    blockLoop fuel off rem p = span p rem
  | 0, _, rem, _, h => by
    obtain rfl : rem = 0 := by omega
    rfl
  | fuel + 1, off, rem, p, h => by
    unfold blockLoop
    split_ifs with h0
    · subst h0
      rfl
    · have hm : 0 < BSIZE - off % BSIZE := Nat.sub_pos_of_lt (Nat.mod_lt _ (by decide))
      dsimp only
      rw [blockLoop_eq fuel _ _ _ (by omega), ← span_append]
      congr 1
      omega

theorem pipeLoop_confined {sz addr : UInt32} {n : ℤ} (h : addr.toNat + n.toNat ≤ sz.toNat) :
    ∀ (avail i : ℕ), ∀ a ∈ pipeLoop addr n avail i, a < sz
  | 0, _, a, ha => by cases ha
  | avail + 1, i, a, ha => by
    unfold pipeLoop at ha
    split_ifs at ha with hi
    · rcases List.mem_cons.1 ha with rfl | ha
      · exact span_confined h _ (List.mem_map.2 ⟨i, by simp; omega, rfl⟩)
      · exact pipeLoop_confined h avail (i + 1) a ha
    · cases ha

theorem consoleread_confined {sz : UInt32} : ∀ (avail : ℕ) {dst : UInt32} {n : ℤ},
    dst.toNat + n.toNat ≤ sz.toNat → ∀ a ∈ consoleread dst n avail, a < sz
  | 0, _, _, _, a, ha => by cases ha
  | avail + 1, dst, n, h, a, ha => by
    unfold consoleread at ha
    split_ifs at ha with hn
    · have hsz := sz.toNat_lt
      rcases List.mem_cons.1 ha with rfl | ha
      · rw [UInt32.lt_iff_toNat_lt]
        omega
      · refine consoleread_confined avail ?_ a ha
        rw [UInt32.toNat_add, UInt32.toNat_one]
        omega
    · cases ha

theorem writei_confined {sz src : UInt32} {ip : Ino} {off n : UInt32}
    (h : src.toNat + n.toNat ≤ sz.toNat) (hn : n.toNat < 2 ^ 31) :
    ∀ a ∈ (writei ip src off n).1, a < sz := by
  have hsigned : (signed n).toNat = n.toNat := by
    rw [signed_eq, if_pos hn, Int.toNat_natCast]
  unfold writei consolewrite
  split
  · split_ifs
    · rw [hsigned]
      exact span_confined h
    · simp
  · split_ifs
    all_goals first
      | (rw [blockLoop_eq _ _ _ _ le_rfl]; exact span_confined h)
      | simp

theorem filewriteLoop_confined {sz addr : UInt32} {n : ℤ} (h : addr.toNat + n.toNat ≤ sz.toNat) :
    ∀ (fuel i : ℕ) (ip : Ino) (off : UInt32), ∀ a ∈ filewriteLoop addr n fuel i ip off, a < sz
  | 0, _, _, _, a, ha => by cases ha
  | fuel + 1, i, ip, off, a, ha => by
    unfold filewriteLoop at ha
    split_ifs at ha with hi
    · cases ha
    · have hsz := sz.toNat_lt
      have hmax : filewriteMax = 6656 := rfl
      have hw : ∀ a ∈ (writei ip (addr + UInt32.ofNat i) off
          (UInt32.ofNat (min (n - i).toNat filewriteMax))).1, a < sz := by
        apply writei_confined
        · rw [UInt32.toNat_add, UInt32.toNat_ofNat', UInt32.toNat_ofNat']
          omega
        · rw [UInt32.toNat_ofNat']
          omega
      dsimp only at ha
      split at ha
      · rename_i heq
        rw [heq] at hw
        exact hw a ha
      · rename_i heq
        rw [heq] at hw
        rcases List.mem_append.1 ha with ha | ha
        · exact hw a ha
        · split_ifs at ha
          · cases ha
          · exact filewriteLoop_confined h fuel _ _ _ a ha

/-- The number of bytes `readi` copies from a file. -/
def readCount (size off n : UInt32) : ℕ :=
  if off > size ∨ off + n < off then 0 else min n.toNat (size.toNat - off.toNat)

theorem readi_file {ip : Ino} (hmajor : ip.major = none) (dst off n : UInt32) :
    readi ip dst off n env = span dst (readCount ip.size off n) := by
  unfold readi readCount
  rw [hmajor]
  dsimp only
  split_ifs with hbad hclip
  · rfl
  all_goals
    simp only [gt_iff_lt, UInt32.lt_iff_toNat_lt, UInt32.toNat_add, not_or, not_lt] at *
    have := off.toNat_lt
    have := n.toNat_lt
    have := ip.size.toNat_lt
  · rw [blockLoop_eq _ _ _ _ le_rfl, UInt32.toNat_sub_of_le _ _ (UInt32.le_iff_toNat_le.2 hbad.1)]
    congr 1
    omega
  · rw [blockLoop_eq _ _ _ _ le_rfl]
    congr 1
    omega

theorem readCount_le (size off n : UInt32) : readCount size off n ≤ n.toNat := by
  unfold readCount
  split_ifs <;> omega

/-- A read of a file (or a directory) with a negative length, for which the file has more
bytes from the offset on than the process has from the address on. -/
def Escapes (u : Process) : Call → Prop
  | .read => ∃ f ip off n p, argfd u 0 = some f ∧ argint u 2 = some n ∧ argptr u 1 n = some p ∧
      f.readable = true ∧ f.target = .inode ip off ∧ ip.major = none ∧
      signed n < 0 ∧ u.sz.toNat < p.toNat + readCount ip.size off n
  | _ => False

theorem fileread_confined_iff {f : OFile} {p n : UInt32} (hsz : u.sz < KERNBASE)
    (hp : argptr u 1 n = some p) : (∀ a ∈ fileread f p n env, a < u.sz) ↔
      ∀ ip off, f.readable = true → f.target = .inode ip off → ip.major = none → signed n < 0 →
        p.toNat + readCount ip.size off n ≤ u.sz.toNat := by
  have hlt := (argptr_eq_some hp).1
  have hsigned := argptr_signed hsz hp
  unfold fileread
  split_ifs with hr
  · simp [hr]
  · rw [Bool.not_eq_false] at hr
    cases ht : f.target with
    | pipe => simpa using pipeLoop_confined hsigned env.avail 0
    | inode ip off =>
      dsimp only
      cases hmajor : ip.major with
      | some major =>
        refine ⟨fun _ ip' off' _ heq hnone => ?_, fun _ => ?_⟩
        · cases heq
          rw [hmajor] at hnone
          cases hnone
        · unfold readi
          rw [hmajor]
          dsimp only
          split_ifs
          · exact consoleread_confined _ hsigned
          · simp
      | none =>
        rw [readi_file hmajor]
        constructor
        · rintro hall ip' off' - heq - -
          cases heq
          by_contra hgt
          exact UInt32.lt_irrefl _ (hall _ (span_escape hlt (by omega)))
        · intro hle
          apply span_confined
          by_cases hn : 0 ≤ signed n
          · have := argptr_confined hsz hp hn
            have := readCount_le ip.size off n
            omega
          · exact hle ip off hr rfl hmajor (by omega)

/-- `filewrite` reads below `sz`. -/
theorem filewrite_confined {f : OFile} {p n : UInt32} (hsz : u.sz < KERNBASE)
    (hp : argptr u 1 n = some p) : ∀ a ∈ filewrite f p n env, a < u.sz := by
  have hsigned := argptr_signed hsz hp
  unfold filewrite
  split_ifs
  · simp
  · split
    · exact pipeLoop_confined hsigned _ _
    · exact filewriteLoop_confined hsigned _ _ _ _

theorem filestat_confined {f : OFile} {st : UInt32} (hsz : u.sz < KERNBASE)
    (hst : argptr u 1 STAT = some st) : ∀ a ∈ filestat f st, a < u.sz := by
  intro a ha
  unfold filestat at ha
  split at ha
  · simp only [List.mem_flatMap, List.mem_cons, List.not_mem_nil, or_false] at ha
    obtain ⟨x, rfl | rfl | rfl | rfl | rfl, ha⟩ := ha
    all_goals exact span_confined (argptr_part hsz hst (by decide) (by decide)) a ha
  · cases ha

/-- Once the checks of the arguments have passed, every address of the call lies below
`sz`, unless the call is a read with a negative length that gets past the end of the
memory. -/
theorem buffers_confined (u : Process) (env : Env) (call : Call) (acc : List UInt32)
    (hsz : u.sz < KERNBASE) (h : call.run u env = some acc) :
    (∀ a ∈ acc, a < u.sz) ↔ ¬ Escapes u call := by
  cases call <;> simp only [Call.run, bind_eq_bind, bind_eq_some_iff, pure_def, some.injEq] at h
  case read =>
    obtain ⟨f, hf, n, hn, p, hp, rfl⟩ := h
    rw [fileread_confined_iff hsz hp]
    constructor
    · rintro hall ⟨f', ip, off, n', p', hf', hn', hp', hr, ht, hmajor, hneg, hlt⟩
      rw [hf] at hf'
      rw [hn] at hn'
      cases hf'
      cases hn'
      rw [hp] at hp'
      cases hp'
      have := hall ip off hr ht hmajor hneg
      omega
    · intro hno ip off hr ht hmajor hneg
      by_contra hlt
      exact hno ⟨f, ip, off, n, p, hf, hn, hp, hr, ht, hmajor, hneg, by omega⟩
  case write =>
    obtain ⟨f, -, n, -, p, hp, rfl⟩ := h
    simpa only [Escapes, not_false_eq_true, iff_true] using filewrite_confined hsz hp
  case fstat =>
    obtain ⟨f, -, st, hst, rfl⟩ := h
    simpa only [Escapes, not_false_eq_true, iff_true] using filestat_confined hsz hst
  case pipe =>
    obtain ⟨fd, hfd, rfl⟩ := h
    simp only [Escapes, not_false_eq_true, iff_true]
    split_ifs
    · intro a ha
      have h8 := argptr_confined hsz hfd (by decide)
      rcases List.mem_append.1 ha with ha | ha
      · exact span_confined (by change fd.toNat + 8 ≤ _ at h8; omega) a ha
      · exact span_confined (argptr_part hsz hfd (by decide) (by decide)) a ha
    · simp

/-- A process of one page whose stack pointer is `4080`, with the words `fd`, `buf` and `n`
of a call on its stack, and with one open file, a file of `size` bytes read from its
start. -/
def caller (size : UInt32) (fd buf n : UInt32) : Process where
  sz := 4096
  mem a :=
    let byte (x k : UInt32) : UInt8 := (x >>> (8 * k)).toUInt8
    if 4084 ≤ a ∧ a < 4088 then byte fd (a - 4084)
    else if 4088 ≤ a ∧ a < 4092 then byte buf (a - 4088)
    else if 4092 ≤ a then byte n (a - 4092)
    else 0
  esp := 4080
  ofile i := if i = 0 then some ⟨true, false, .inode ⟨none, size⟩ 0⟩ else none

/-- A read of four bytes into the memory. -/
theorem buffers_confined_read :
    (caller 512 0 4000 4).sz < KERNBASE ∧
      Call.run (caller 512 0 4000 4) ⟨0, true⟩ .read = some [4000, 4001, 4002, 4003] ∧
      ((∀ a ∈ [4000, 4001, 4002, 4003], a < (caller 512 0 4000 4).sz) ↔
        ¬ Escapes (caller 512 0 4000 4) .read) :=
  ⟨by decide, by decide, buffers_confined _ ⟨0, true⟩ .read _ (by decide) (by decide)⟩

/-- A read of `-1` bytes at the last byte of the memory passes the checks, and writes the
first three bytes of the file there and past it. -/
theorem read_negative_escapes :
    Call.run (caller 3 0 4095 0xFFFFFFFF) ⟨0, true⟩ .read = some [4095, 4096, 4097] ∧
      (caller 3 0 4095 0xFFFFFFFF).sz = 4096 := by
  decide

end Xv6.UserBuf
