import Xv6.Param

/-!
# The processors of the machine

`mpinit` of `mp.c` looks for the configuration table that the firmware left in memory
(`mpsearch`, `mpconfig`), and takes the number of processors and the number of the interrupt
controller from its entries. Memory is read at kernel addresses, of 32 bits, that wrap around.

An entry of a type that the switch does not know is not passed over, so the scan ends if the table
is made of entries of known types, and only then (`mpinit_ends_iff`). Nothing stops the scan after
`NCPU` processors, and a table without one leaves none (`mpinit_in_bounds_iff`).
-/

open List

namespace Xv6.Mp

abbrev Mem := UInt32 → UInt8

/-! ## The configuration table -/

def p2v (a : UInt32) : UInt32 :=
  a + 0x80000000

/-- The 16-bit number at `a`. -/
def half (mem : Mem) (a : UInt32) : UInt32 :=
  (mem (a + 1)).toUInt32 <<< 8 ||| (mem a).toUInt32

/-- The 32-bit number at `a`. -/
def word (mem : Mem) (a : UInt32) : UInt32 :=
  half mem (a + 2) <<< 16 ||| half mem a

def sum (mem : Mem) (addr : UInt32) (len : ℕ) : UInt8 :=
  (List.range len).foldl (fun s i => s + mem (addr + UInt32.ofNat i)) 0

/-- Whether `memcmp` of the bytes at `p` with a signature is zero. -/
def signed (mem : Mem) (p : UInt32) (signature : String) : Bool :=
  signature.toList.zipIdx.all fun c => mem (p + UInt32.ofNat c.2) = c.1.toUInt8

def mpsearch1 (mem : Mem) (a : UInt32) (len : ℕ) : Option UInt32 :=
  ((List.range (len / 16)).map fun i => p2v a + 16 * UInt32.ofNat i).find? fun p =>
    signed mem p "_MP_" && sum mem p 16 = 0

def mpsearch (mem : Mem) : Option UInt32 :=
  let bda := p2v 0x400
  let p := half mem (bda + 0x0e) <<< 4
  let mp :=
    if p ≠ 0 then mpsearch1 mem p 1024
    else mpsearch1 mem (half mem (bda + 0x13) * 1024 - 1024) 1024
  mp <|> mpsearch1 mem 0xf0000 0x10000

/-- `conf->length`. -/
def length (mem : Mem) (conf : UInt32) : UInt32 :=
  half mem (conf + 4)

/-- `mpconfig` : the floating pointer, and the table. -/
def mpconfig (mem : Mem) : Option (UInt32 × UInt32) :=
  match mpsearch mem with
  | none => none
  | some mp =>
    let physaddr := word mem (mp + 4)
    let conf := p2v physaddr
    let version := mem (conf + 6)
    if physaddr = 0 then none
    else if ¬signed mem conf "PCMP" then none
    else if version ≠ 1 ∧ version ≠ 4 then none
    else if sum mem conf (length mem conf).toNat ≠ 0 then none
    else some (mp, conf)

/-! ## The scan -/

/-- The variables of `mpinit`. -/
structure State where
  p : UInt32
  ncpu : ℕ
  /-- The element of `cpus` that `bcpu` points at. -/
  bcpu : ℕ
  ismp : Bool
  lapic : UInt32
  ioapicid : UInt8
  /-- The elements of `cpus` that were written, or that `bcpu` pointed at. -/
  cpus : List ℕ
  /-- Whether external interrupts are masked at the IMCR. -/
  imcr : Bool
  deriving DecidableEq

abbrev MPPROC : UInt8 := 0

abbrev MPBOOT : UInt8 := 2

/-- A turn of the scan. -/
def entry (mem : Mem) (s : State) : State :=
  match (mem s.p).toNat with
  | 0 =>
    let apicid := (mem (s.p + 1)).toNat
    let flags := mem (s.p + 3)
    { s with
      p := s.p + 20
      ismp := s.ismp && s.ncpu = apicid
      bcpu := if flags &&& MPBOOT ≠ 0 then s.ncpu else s.bcpu
      cpus := s.cpus ++ [s.ncpu]
      ncpu := s.ncpu + 1 }
  | 2 => { s with p := s.p + 8, ioapicid := mem (s.p + 1) }
  | 1 | 3 | 4 => { s with p := s.p + 8 }
  | _ => { s with ismp := false }

/-- The scan up to `e`, for at most `fuel` turns. -/
def scan (mem : Mem) (e : UInt32) : ℕ → State → Option State
  | 0, _ => none
  | fuel + 1, s => if s.p < e then scan mem e fuel (entry mem s) else some s

/-- The scan starts after the header. -/
def start (mem : Mem) (conf : UInt32) : State :=
  { p := conf + 44, ncpu := 0, bcpu := 0, ismp := true, lapic := word mem (conf + 36)
    ioapicid := 0, cpus := [0], imcr := false }

/-- `mpinit`, with at most `fuel` turns of the scan. -/
def mpinit (mem : Mem) (fuel : ℕ) : Option State :=
  match mpconfig mem with
  | none => some { start mem 0 with p := 0, ismp := false, lapic := 0 }
  | some (mp, conf) =>
    (scan mem (conf + length mem conf) fuel (start mem conf)).map fun s =>
      if ¬s.ismp then { s with ncpu := 1, lapic := 0, ioapicid := 0 }
      else { s with imcr := mem (mp + 12) ≠ 0 }

/-! ## Entries -/

/-- The length of an entry, if its type is known. -/
def entryLength (type : UInt8) : Option UInt32 :=
  match type.toNat with
  | 0 => some 20
  | 1 | 2 | 3 | 4 => some 8
  | _ => none

/-- From `p` on the table has entries of the types `ts`, up to its end. -/
inductive Entries (mem : Mem) (e : UInt32) : UInt32 → List UInt8 → Prop
  | nil {p : UInt32} (h : ¬p < e) : Entries mem e p []
  | cons {p n : UInt32} {ts : List UInt8} (h : p < e) (hn : entryLength (mem p) = some n)
    (hts : Entries mem e (p + n) ts) : Entries mem e p (mem p :: ts)

variable {mem : Mem} {e p n : UInt32} {s s' : State} {fuel : ℕ} {ts : List UInt8}

theorem entry_known (h : entryLength (mem s.p) = some n) : (entry mem s).p = s.p + n := by
  unfold entryLength at h
  unfold entry
  split at h <;> cases h <;> simp [*]

theorem entry_unknown (h : entryLength (mem s.p) = none) : (entry mem s).p = s.p := by
  unfold entryLength at h
  unfold entry
  split at h <;> cases h
  split <;> first | rfl | simp_all

theorem entry_cpus (mem : Mem) (s : State) :
    (entry mem s).ncpu = s.ncpu + [mem s.p].count MPPROC ∧
      (entry mem s).cpus = s.cpus ++ List.range' s.ncpu ([mem s.p].count MPPROC) := by
  have hproc : mem s.p = MPPROC ↔ (mem s.p).toNat = 0 := UInt8.toNat_inj.symm
  by_cases h0 : (mem s.p).toNat = 0
  · rw [hproc.2 h0]
    unfold entry
    rw [h0]
    exact ⟨rfl, rfl⟩
  · have hcount : [mem s.p].count MPPROC = 0 := by
      rw [count_singleton, if_neg (by simpa [hproc] using h0)]
    rw [hcount]
    unfold entry
    split
    · contradiction
    all_goals exact ⟨rfl, (append_nil _).symm⟩

/-- Only a processor, or an entry of unknown type, changes `ismp`. -/
theorem entry_ismp (hn : entryLength (mem s.p) = some n) (h : mem s.p ≠ MPPROC) :
    (entry mem s).ismp = s.ismp := by
  have h0 : (mem s.p).toNat ≠ 0 := fun h0 => h (UInt8.toNat_inj.1 h0)
  unfold entryLength at hn
  unfold entry
  split at hn <;> cases hn <;> simp_all

/-! ## The scan -/

theorem scan_of_entries (h : Entries mem e p ts) (hp : s.p = p) :
    ∃ s', scan mem e (ts.length + 1) s = some s' := by
  induction h generalizing s with
  | nil h =>
    subst hp
    exact ⟨s, if_neg h⟩
  | cons h hn _ ih =>
    subst hp
    rw [length_cons, scan, if_pos h]
    exact ih (entry_known hn)

theorem scan_unknown (hp : s.p < e) (hn : entryLength (mem s.p) = none) :
    scan mem e fuel s = none := by
  induction fuel generalizing s with
  | zero => rfl
  | succ fuel ih =>
    have hstay : (entry mem s).p = s.p := entry_unknown hn
    rw [scan, if_pos hp]
    exact ih (by rwa [hstay]) (by rwa [hstay])

/-- A scan that ends came to entries of known types, and counted the processors among them. -/
theorem entries_of_scan (h : scan mem e fuel s = some s') :
    ∃ ts, Entries mem e s.p ts ∧ s'.ncpu = s.ncpu + ts.count MPPROC ∧
      s'.cpus = s.cpus ++ List.range' s.ncpu (ts.count MPPROC) ∧
      (MPPROC ∉ ts → s'.ismp = s.ismp) := by
  induction fuel generalizing s with
  | zero => cases h
  | succ fuel ih =>
    by_cases hp : s.p < e
    · have hn : entryLength (mem s.p) ≠ none := by
        intro hn
        rw [scan_unknown hp hn] at h
        cases h
      obtain ⟨n, hn⟩ := Option.ne_none_iff_exists'.1 hn
      rw [scan, if_pos hp] at h
      obtain ⟨ts, hts, hncpu, hcpus, hismp⟩ := ih h
      obtain ⟨hncpu1, hcpus1⟩ := entry_cpus mem s
      rw [entry_known hn] at hts
      have hcount : (mem s.p :: ts).count MPPROC = [mem s.p].count MPPROC + ts.count MPPROC := by
        rw [← count_append, singleton_append]
      refine ⟨_, .cons hp hn hts, ?_, ?_, fun hno => ?_⟩
      · rw [hncpu, hncpu1, hcount, Nat.add_assoc]
      · rw [hcpus, hcpus1, hncpu1, hcount, append_assoc, range'_append_1]
      · rw [mem_cons, not_or] at hno
        rw [hismp hno.2, entry_ismp hn (Ne.symm hno.1)]
    · rw [scan, if_neg hp] at h
      cases h
      exact ⟨[], .nil hp, rfl, (append_nil _).symm, fun _ => rfl⟩

/-! ## `mpinit` -/

variable {mp conf : UInt32}

theorem mpinit_eq_some (hconf : mpconfig mem = some (mp, conf)) :
    (∃ fuel s, mpinit mem fuel = some s) ↔
      ∃ fuel s, scan mem (conf + length mem conf) fuel (start mem conf) = some s := by
  simp [mpinit, hconf]

/-- The scan of a table ends just if the table is made of entries of known types. -/
theorem mpinit_ends_iff (hconf : mpconfig mem = some (mp, conf)) :
    (∃ fuel s, mpinit mem fuel = some s) ↔
      ∃ ts, Entries mem (conf + length mem conf) (conf + 44) ts := by
  rw [mpinit_eq_some hconf]
  constructor
  · rintro ⟨fuel, s, hs⟩
    obtain ⟨ts, hts, -⟩ := entries_of_scan hs
    exact ⟨ts, hts⟩
  · rintro ⟨ts, hts⟩
    exact ⟨_, scan_of_entries hts rfl⟩

/-- A scan that ends uses elements of `cpus` only, and leaves a number of processors that there is
room for, just if the table has one processor at least and `NCPU` at most. -/
theorem mpinit_in_bounds_iff {fuel : ℕ} {s : State} (hconf : mpconfig mem = some (mp, conf))
    (hs : mpinit mem fuel = some s) :
    ∃ ts, Entries mem (conf + length mem conf) (conf + 44) ts ∧
      (((∀ i ∈ s.cpus, i < NCPU) ∧ 1 ≤ s.ncpu ∧ s.ncpu ≤ NCPU) ↔
        1 ≤ ts.count MPPROC ∧ ts.count MPPROC ≤ NCPU) := by
  rw [mpinit, hconf] at hs
  obtain ⟨t, ht, rfl⟩ := Option.map_eq_some_iff.1 hs
  obtain ⟨ts, hts, hncpu, hcpus, hismp⟩ := entries_of_scan ht
  have hncpu' : t.ncpu = ts.count MPPROC := hncpu.trans (Nat.zero_add _)
  have hcpus' : (∀ i ∈ t.cpus, i < NCPU) ↔ ts.count MPPROC ≤ NCPU := by
    rw [hcpus]
    show (∀ i ∈ [0] ++ List.range' 0 _, i < NCPU) ↔ _
    simp only [mem_append, mem_singleton, mem_range'_1]
    constructor
    · intro h
      by_contra hlt
      have := h NCPU (.inr ⟨Nat.zero_le _, by omega⟩)
      omega
    · rintro h i (rfl | hi)
      · decide
      · omega
  refine ⟨ts, hts, ?_⟩
  cases hmp : t.ismp with
  | false =>
    -- the fallback sets `ncpu`, and there was a processor with a wrong number
    have hone : 1 ≤ ts.count MPPROC := count_pos_iff.2 <| by
      by_contra hno
      rw [hismp hno] at hmp
      cases hmp
    rw [if_pos (by simp)]
    show ((∀ i ∈ t.cpus, i < NCPU) ∧ 1 ≤ 1 ∧ 1 ≤ NCPU) ↔ _
    rw [hcpus']
    exact ⟨fun h => ⟨hone, h.1⟩, fun h => ⟨h.2, by decide, by decide⟩⟩
  | true =>
    rw [if_neg (by simp)]
    show ((∀ i ∈ t.cpus, i < NCPU) ∧ 1 ≤ t.ncpu ∧ t.ncpu ≤ NCPU) ↔ _
    rw [hcpus', hncpu']
    exact ⟨fun h => h.2, fun h => ⟨h.2, h⟩⟩

/-! ## Tables -/

/-- The bytes `bs` at address `a`. -/
def place (a : UInt32) (bs : List UInt8) (mem : Mem) : Mem := fun x =>
  if (x - a).toNat < bs.length then bs.getD (x - a).toNat 0 else mem x

/-- Bytes with a checksum between them. -/
def checked (bs cs : List UInt8) : List UInt8 :=
  bs ++ (0 - (bs ++ cs).foldl (· + ·) 0) :: cs

/-- A machine whose firmware left a table with the entries `bs`. -/
def firmware (bs : List UInt8) : Mem :=
  place (p2v 0x40e) [0, 1] <|
  place (p2v 0x1000) (checked ([95, 77, 80, 95] ++ [0, 0x20, 0, 0, 1, 4]) (List.replicate 5 0)) <|
  place (p2v 0x2000) (checked ([80, 67, 77, 80] ++ [UInt8.ofNat (44 + bs.length), 0, 4])
    (List.replicate 36 0 ++ bs)) fun _ => 0

/-- The entries of `k` processors. -/
def processors (k : ℕ) : List UInt8 :=
  (List.range k).flatMap fun i => [0, UInt8.ofNat i, 0, 1] ++ List.replicate 16 0

theorem mpconfig_processors :
    mpconfig (firmware (processors 1)) = some (p2v 0x1000, p2v 0x2000) := by
  decide +kernel

/-- The scan of a table with one processor ends. -/
theorem mpinit_ends_one : ∃ fuel s, mpinit (firmware (processors 1)) fuel = some s :=
  (mpinit_ends_iff mpconfig_processors).2
    ⟨_, .cons (n := 20) (by decide +kernel) (by decide +kernel) (.nil (by decide +kernel))⟩

/-- An entry of unknown type after the header. -/
theorem mpinit_stuck :
    mpconfig (firmware [9]) = some (p2v 0x1000, p2v 0x2000) ∧
      ∀ fuel, mpinit (firmware [9]) fuel = none := by
  have hconf : mpconfig (firmware [9]) = some (p2v 0x1000, p2v 0x2000) := by decide +kernel
  refine ⟨hconf, fun fuel => ?_⟩
  have hstuck : scan (firmware [9]) (p2v 0x2000 + length (firmware [9]) (p2v 0x2000)) fuel
      (start (firmware [9]) (p2v 0x2000)) = none :=
    scan_unknown (by decide +kernel) (by decide +kernel)
  simp only [mpinit, hconf, hstuck, Option.map_none]

/-- One processor is in bounds. -/
theorem mpinit_in_bounds_one :
    ∃ s, mpinit (firmware (processors 1)) 2 = some s ∧
      (∀ i ∈ s.cpus, i < NCPU) ∧ 1 ≤ s.ncpu ∧ s.ncpu ≤ NCPU := by
  have hs : (mpinit (firmware (processors 1)) 2).isSome = true := by decide +kernel
  obtain ⟨s, hs⟩ := Option.isSome_iff_exists.1 hs
  obtain ⟨ts, hts, hiff⟩ := mpinit_in_bounds_iff mpconfig_processors hs
  refine ⟨s, hs, hiff.2 ?_⟩
  cases hts with
  | nil h => exact absurd h (by decide +kernel)
  | @cons _ n _ h hn hts =>
    obtain rfl : n = 20 := Option.some.inj (hn.symm.trans (by decide +kernel))
    cases hts with
    | nil => decide +kernel
    | cons h => exact absurd h (by decide +kernel)

/-- Nine processors. -/
theorem mpinit_nine :
    (mpconfig (firmware (processors 9))).isSome = true ∧
      (mpinit (firmware (processors 9)) 10).map (fun s => (s.ncpu, s.cpus.contains NCPU)) =
        some (9, true) := by
  decide +kernel

end Xv6.Mp
