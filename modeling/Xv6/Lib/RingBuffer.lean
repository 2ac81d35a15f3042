import Mathlib

/-!
# Ring buffers with free-running counters

A buffer of `N` cells with two 32-bit counters, of the elements written and of those read,
which wrap around at `2 ^ 32`. An element lies in the cell given by its number modulo `N`.
The elements that are written and not yet read are the `content`; `push` appends to it,
`unpush` drops its last element and `pop` its first, also when a counter wraps, as long as `N`
divides `2 ^ 32`.
-/

/-- A ring buffer. -/
structure RingBuffer (α : Type*) (N : ℕ) where
  data : Fin N → α
  nread : UInt32
  nwrite : UInt32

open Function List

namespace RingBuffer

variable {α : Type*} {N : ℕ} [NeZero N]

/-- The cell of element number `n`. -/
def cell (n : ℕ) : Fin N :=
  Fin.ofNat N n

/-- Number of elements held. -/
def length (r : RingBuffer α N) : ℕ :=
  (r.nwrite - r.nread).toNat

/-- The elements held, the oldest first. -/
def content (r : RingBuffer α N) : List α :=
  (List.range r.length).map fun k => r.data (cell (r.nread.toNat + k))

/-- The oldest element. -/
def head (r : RingBuffer α N) : α :=
  r.data (cell r.nread.toNat)

/-- Write an element. -/
def push (r : RingBuffer α N) (x : α) : RingBuffer α N :=
  { r with
    data := update r.data (cell r.nwrite.toNat) x
    nwrite := r.nwrite + 1 }

/-- Take back the newest element. -/
def unpush (r : RingBuffer α N) : RingBuffer α N :=
  { r with nwrite := r.nwrite - 1 }

/-- Read an element. -/
def pop (r : RingBuffer α N) : RingBuffer α N :=
  { r with nread := r.nread + 1 }

/-! ## Length -/

omit [NeZero N] in
theorem length_eq_zero (r : RingBuffer α N) : r.length = 0 ↔ r.nread = r.nwrite := by
  unfold length
  rw [← UInt32.toNat_inj, UInt32.toNat_sub]
  have := r.nread.toNat_lt
  have := r.nwrite.toNat_lt
  omega

omit [NeZero N] in
theorem length_eq_iff (r : RingBuffer α N) {n : ℕ} (hn : n < 2 ^ 32) :
    r.length = n ↔ r.nwrite = r.nread + UInt32.ofNat n := by
  unfold length
  rw [← UInt32.toNat_inj, UInt32.toNat_sub, UInt32.toNat_add, UInt32.toNat_ofNat']
  have := r.nread.toNat_lt
  have := r.nwrite.toNat_lt
  omega

theorem length_push (r : RingBuffer α N) (x : α) (h : r.length + 1 < 2 ^ 32) :
    (r.push x).length = r.length + 1 := by
  unfold length at *
  simp only [push, UInt32.toNat_sub, UInt32.toNat_add, UInt32.toNat_one] at *
  omega

omit [NeZero N] in
theorem length_unpush (r : RingBuffer α N) (h : r.length ≠ 0) :
    r.unpush.length + 1 = r.length := by
  have := r.nread.toNat_lt
  have := r.nwrite.toNat_lt
  unfold length at *
  simp only [unpush, UInt32.toNat_sub, UInt32.toNat_one] at *
  omega

omit [NeZero N] in
theorem length_pop (r : RingBuffer α N) (h : r.length ≠ 0) : r.pop.length + 1 = r.length := by
  have := r.nread.toNat_lt
  have := r.nwrite.toNat_lt
  unfold length at *
  simp only [pop, UInt32.toNat_sub, UInt32.toNat_add, UInt32.toNat_one] at *
  omega

/-! ## Content -/

@[simp] theorem length_content (r : RingBuffer α N) : r.content.length = r.length := by
  simp [content]

theorem content_eq_nil (r : RingBuffer α N) : r.content = [] ↔ r.nread = r.nwrite := by
  rw [← length_eq_zero_iff, length_content, length_eq_zero]

/-- Numbers that agree modulo `2 ^ 32` have the same cell. -/
theorem cell_eq (hN : N ∣ 2 ^ 32) {m n : ℕ} (h : m % 2 ^ 32 = n % 2 ^ 32) :
    (cell m : Fin N) = cell n := by
  apply Fin.ext
  simp only [cell, Fin.ofNat]
  rw [← Nat.mod_mod_of_dvd m hN, ← Nat.mod_mod_of_dvd n hN, h]

theorem cell_nwrite (hN : N ∣ 2 ^ 32) (r : RingBuffer α N) :
    (cell r.nwrite.toNat : Fin N) = cell (r.nread.toNat + r.length) := by
  apply cell_eq hN
  unfold length
  rw [UInt32.toNat_sub]
  have := r.nread.toNat_lt
  have := r.nwrite.toNat_lt
  omega

theorem cell_ne (m : ℕ) {j k : ℕ} (hjk : j < k) (hk : k < N) :
    (cell (m + j) : Fin N) ≠ cell (m + k) := by
  intro h
  have hmod : (m + j) % N = (m + k) % N := congrArg Fin.val h
  have hdvd : N ∣ m + k - (m + j) :=
    Nat.dvd_of_mod_eq_zero (Nat.sub_mod_eq_zero_of_mod_eq hmod.symm)
  have := Nat.le_of_dvd (by omega) hdvd
  omega

/-- `push` puts an element at the end. -/
theorem content_push (hN : N ∣ 2 ^ 32) (r : RingBuffer α N) (x : α) (h : r.length < N)
    (hlt : N < 2 ^ 32) : (r.push x).content = r.content ++ [x] := by
  have hlen := length_push r x (by omega)
  unfold content
  rw [hlen, range_succ, map_append]
  congr 1
  · refine map_congr_left fun k hk => ?_
    have hk := mem_range.1 hk
    change update r.data (cell r.nwrite.toNat) x (cell (r.nread.toNat + k)) = _
    rw [cell_nwrite hN, update_of_ne (cell_ne _ hk h)]
  · change [update r.data (cell r.nwrite.toNat) x (cell (r.nread.toNat + r.length))] = _
    rw [cell_nwrite hN, update_self]

/-- `pop` takes the first element. -/
theorem content_pop (hN : N ∣ 2 ^ 32) (r : RingBuffer α N) (h : r.length ≠ 0) :
    r.content = r.head :: r.pop.content := by
  unfold content
  rw [← length_pop r h, range_succ_eq_map, map_cons, map_map]
  congr 1
  refine map_congr_left fun k _ => ?_
  change r.data _ = r.data _
  congr 1
  apply cell_eq hN
  simp only [pop, UInt32.toNat_add, UInt32.toNat_one]
  omega

end RingBuffer
