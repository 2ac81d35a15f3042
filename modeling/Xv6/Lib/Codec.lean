import Mathlib.Algebra.Order.Ring.Nat
import Mathlib.Tactic.Common

/-!
# Records in byte arrays

A `Codec` lays values of a type out in a fixed number of consecutive bytes. Codecs of
the fixed-width integers, of pairs and of arrays compose to the codec of a C struct.
A byte array of length `n` is a function from `Fin n`. `Bytes.blit` is a bounded copy
into it, `Bytes.read` and `Bytes.write` read and write one record at a byte offset.

The laws are those of a lens : a record read back at the offset it was written is the
record (`Bytes.read_write`), and a write leaves every record it does not overlap
(`Bytes.read_blit_of_disjoint`).
-/

namespace Layout

/-- `f n`, with `n` computed first : a computation in the kernel goes on with the numeral
and not with the expression it came from. -/
def force {α : Type*} (n : ℕ) (f : ℕ → α) : α :=
  match n with
  | 0 => f 0
  | m + 1 => f (m + 1)

@[simp] theorem force_eq {α : Type*} (n : ℕ) (f : ℕ → α) : force n f = f n := by
  cases n <;> rfl

/-- A layout of the values of `α` in `size` bytes. -/
structure Codec (α : Type*) where
  size : ℕ
  /-- The `j`-th byte of a value. -/
  toByte : α → ℕ → UInt8
  /-- The value some bytes stand for. -/
  ofByte : (ℕ → UInt8) → α
  ofByte_congr : ∀ f g, (∀ j < size, f j = g j) → ofByte f = ofByte g
  ofByte_toByte : ∀ a, ofByte (toByte a) = a

namespace Codec

variable {α β : Type*}

/-- Single bytes. -/
def u8 : Codec UInt8 where
  size := 1
  toByte v _ := v
  ofByte f := f 0
  ofByte_congr _ _ h := h 0 (by omega)
  ofByte_toByte _ := rfl

/-- Little-endian 16-bit words. -/
def u16 : Codec UInt16 where
  size := 2
  toByte v j := UInt8.ofNat (v.toNat / 256 ^ j)
  ofByte f := UInt16.ofNat ((f 0).toNat + 256 * (f 1).toNat)
  ofByte_congr f g h := by rw [h 0 (by omega), h 1 (by omega)]
  ofByte_toByte v := by
    have hv := v.toNat_lt
    apply UInt16.toNat_inj.1
    simp only [UInt16.toNat_ofNat', UInt8.toNat_ofNat', Nat.reducePow, Nat.div_one]
    omega

/-- Little-endian 32-bit words. -/
def u32 : Codec UInt32 where
  size := 4
  toByte v j := UInt8.ofNat (v.toNat / 256 ^ j)
  ofByte f := UInt32.ofNat ((f 0).toNat + 256 * (f 1).toNat + 65536 * (f 2).toNat +
    16777216 * (f 3).toNat)
  ofByte_congr f g h := by
    rw [h 0 (by omega), h 1 (by omega), h 2 (by omega), h 3 (by omega)]
  ofByte_toByte v := by
    have hv := v.toNat_lt
    apply UInt32.toNat_inj.1
    simp only [UInt32.toNat_ofNat', UInt8.toNat_ofNat', Nat.reducePow, Nat.div_one]
    omega

theorem toByte_ofByte_u32 (f : ℕ → UInt8) {j : ℕ} (hj : j < 4) :
    u32.toByte (u32.ofByte f) j = f j := by
  have h0 := (f 0).toNat_lt
  have h1 := (f 1).toNat_lt
  have h2 := (f 2).toNat_lt
  have h3 := (f 3).toNat_lt
  apply UInt8.toNat_inj.1
  simp only [u32, UInt32.toNat_ofNat', UInt8.toNat_ofNat']
  obtain rfl | rfl | rfl | rfl : j = 0 ∨ j = 1 ∨ j = 2 ∨ j = 3 := by omega
  all_goals
    simp only [Nat.reducePow, Nat.div_one]
    omega

/-- A layout of `α` read as a layout of `β` along a retraction. -/
def retract (c : Codec α) (enc : β → α) (dec : α → β) (h : ∀ b, dec (enc b) = b) :
    Codec β where
  size := c.size
  toByte b := c.toByte (enc b)
  ofByte f := dec (c.ofByte f)
  ofByte_congr f g hfg := congrArg dec (c.ofByte_congr f g hfg)
  ofByte_toByte b := by rw [c.ofByte_toByte, h]

/-- Signed 16-bit words. -/
def i16 : Codec Int16 :=
  u16.retract Int16.toUInt16 UInt16.toInt16 (by simp)

/-- Two records, one after the other. -/
def prod (c : Codec α) (d : Codec β) : Codec (α × β) where
  size := c.size + d.size
  toByte p j := if j < c.size then c.toByte p.1 j else d.toByte p.2 (j - c.size)
  ofByte f := (c.ofByte f, d.ofByte fun j => f (c.size + j))
  ofByte_congr f g h := by
    rw [c.ofByte_congr f g fun j hj => h j (by omega),
      d.ofByte_congr _ (fun j => g (c.size + j)) fun j hj => h _ (by omega)]
  ofByte_toByte p := by
    rw [c.ofByte_congr _ (c.toByte p.1) fun j hj => if_pos hj,
      d.ofByte_congr _ (d.toByte p.2) fun j _ => by simp [Nat.not_lt.2 (Nat.le_add_right _ j)],
      c.ofByte_toByte, d.ofByte_toByte]

theorem mul_add_lt_mul {i n j s : ℕ} (hi : i < n) (hj : j < s) : i * s + j < n * s :=
  calc i * s + j < i * s + s := Nat.add_lt_add_left hj _
    _ = (i + 1) * s := (Nat.succ_mul i s).symm
    _ ≤ n * s := Nat.mul_le_mul_right s hi

/-- `n` records in a row. -/
def array (c : Codec α) (n : ℕ) : Codec (Fin n → α) where
  size := n * c.size
  toByte v j := force (j / c.size) fun i =>
    if h : i < n then c.toByte (v ⟨i, h⟩) (j % c.size) else 0
  ofByte f i := c.ofByte fun j => f (i * c.size + j)
  ofByte_congr f g h := by
    funext i
    exact c.ofByte_congr _ _ fun j hj => h _ (mul_add_lt_mul i.isLt hj)
  ofByte_toByte v := by
    funext i
    rw [c.ofByte_congr _ (c.toByte (v i)), c.ofByte_toByte]
    intro j hj
    have hpos : 0 < c.size := by omega
    have hdiv : (i * c.size + j) / c.size = i := by
      rw [Nat.mul_comm, Nat.mul_add_div hpos, Nat.div_eq_of_lt hj, Nat.add_zero]
    have hmod : (i * c.size + j) % c.size = j := by
      rw [Nat.mul_comm, Nat.mul_add_mod, Nat.mod_eq_of_lt hj]
    simp only [force_eq, hdiv, hmod, i.isLt, dif_pos]

end Codec

/-- An array of `n` bytes. -/
abbrev Bytes (n : ℕ) := Fin n → UInt8

namespace Bytes

variable {α β : Type*} {n : ℕ}

/-- The byte at offset `i`, `0` past the end. -/
def get (b : Bytes n) (i : ℕ) : UInt8 :=
  if h : i < n then b ⟨i, h⟩ else 0

/-- `memmove(b + off, src, m)`. -/
def blit (b : Bytes n) (off m : ℕ) (src : ℕ → UInt8) : Bytes n :=
  fun i => if off ≤ i.val ∧ i.val < off + m then src (i.val - off) else b i

/-- The record at offset `off`. -/
def read (c : Codec α) (b : Bytes n) (off : ℕ) : α :=
  c.ofByte fun j => b.get (off + j)

/-- Store a record at offset `off`. -/
def write (c : Codec α) (b : Bytes n) (off : ℕ) (a : α) : Bytes n :=
  b.blit off c.size (c.toByte a)

theorem get_blit (b : Bytes n) (off m : ℕ) (src : ℕ → UInt8) {i : ℕ} (hi : i < n) :
    (b.blit off m src).get i =
      if off ≤ i ∧ i < off + m then src (i - off) else b.get i := by
  simp [get, blit, hi]

theorem get_blit_of_not_mem (b : Bytes n) {off m : ℕ} (src : ℕ → UInt8) {i : ℕ}
    (h : i < off ∨ off + m ≤ i) : (b.blit off m src).get i = b.get i := by
  by_cases hi : i < n
  · rw [get_blit b off m src hi, if_neg (by omega)]
  · simp [get, hi]

theorem read_blit_of_disjoint (c : Codec α) (b : Bytes n) {off m off' : ℕ} (src : ℕ → UInt8)
    (h : off' + c.size ≤ off ∨ off + m ≤ off') :
    read c (b.blit off m src) off' = read c b off' :=
  c.ofByte_congr _ _ fun j hj => get_blit_of_not_mem b src (by omega)

/-- What was written is read back. -/
theorem read_write (c : Codec α) (b : Bytes n) {off : ℕ} (a : α) (h : off + c.size ≤ n) :
    read c (write c b off a) off = a := by
  rw [read, c.ofByte_congr _ (c.toByte a), c.ofByte_toByte]
  intro j hj
  rw [write, get_blit b off c.size _ (by omega), if_pos (by omega), Nat.add_sub_cancel_left]

/-- A write elsewhere changes nothing. -/
theorem read_write_of_disjoint (c : Codec α) (d : Codec β) (b : Bytes n) {off off' : ℕ} (a : α)
    (h : off' + d.size ≤ off ∨ off + c.size ≤ off') :
    read d (write c b off a) off' = read d b off' :=
  read_blit_of_disjoint d b _ h

theorem read_write_index (c : Codec α) (b : Bytes n) {i j : ℕ} (a : α)
    (hi : c.size * i + c.size ≤ n) :
    read c (write c b (c.size * i) a) (c.size * j) =
      if j = i then a else read c b (c.size * j) := by
  split_ifs with hij
  · rw [hij, read_write c b a hi]
  · refine read_write_of_disjoint c c b a ?_
    rcases Nat.lt_or_gt_of_ne hij with h | h
    · exact .inl (by rw [← Nat.mul_succ]; exact Nat.mul_le_mul_left _ h)
    · exact .inr (by rw [← Nat.mul_succ]; exact Nat.mul_le_mul_left _ h)

end Bytes

end Layout
