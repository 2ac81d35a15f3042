import Mathlib.Data.Int.Notation
import Mathlib.Data.Nat.Digits.Defs
import Xv6.Lib.Cstring

/-!
# Numbers and numerals

`printint` of `console.c` and of `printf.c`, and `atoi` of `ulib.c`. The two versions of `printint`
differ in the table of digits only; both put the digits into `buf` from the last one on, and then
print `buf` backwards. The numeral they print is the one of `Nat.toDigits` (`printint_exact`), also
for the least integer, whose negation is itself.
-/

open List

namespace Xv6.Printint

open Cstring

/-! ## `printint` -/

/-- The size of `buf`. -/
abbrev BUFSIZE : ℕ := 16

abbrev MINUS : UInt8 := 45

/-- The loop that puts the digits of `x` into `buf`, with `room` bytes left : the bytes it writes.
None where it would write after the end. -/
def digitLoop (digits : List UInt8) (base : UInt32) : ℕ → UInt32 → Option (List UInt8)
  | 0, _ => none
  | room + 1, x =>
    let c := digits.getD (x % base).toNat 0
    if x / base ≠ 0 then (digitLoop digits base room (x / base)).map (c :: ·) else some [c]

/-- `if(neg) buf[i++] = '-'`. -/
def putSign (neg : Bool) (buf : List UInt8) : Option (List UInt8) :=
  if neg then if buf.length < BUFSIZE then some (buf ++ [MINUS]) else none else some buf

/-- What `printint` prints; none where it writes outside of `buf`. -/
def printint (digits : List UInt8) (xx : Int32) (base : UInt32) (sgn : Bool) :
    Option (List UInt8) := do
  let neg := sgn && decide (xx < 0)
  let x := if neg then (-xx).toUInt32 else xx.toUInt32
  let buf ← digitLoop digits base BUFSIZE x
  let buf ← putSign neg buf
  return buf.reverse

/-- `printint` of `console.c`. -/
def kprintint : Int32 → UInt32 → Bool → Option (List UInt8) :=
  printint ("0123456789abcdef".toList.map Char.toUInt8)

/-- `printint` of `printf.c`. -/
def uprintint : Int32 → UInt32 → Bool → Option (List UInt8) :=
  printint ("0123456789ABCDEF".toList.map Char.toUInt8)

/-! ## `atoi` -/

/-- The loop of `atoi` over at most `fuel` characters; none if there are more digits. -/
def atoiLoop (mem : ℕ → UInt8) : ℕ → ℕ → Int32 → Option Int32
  | 0, _, _ => none
  | fuel + 1, s, n =>
    if 48 ≤ mem s ∧ mem s ≤ 57 then
      atoiLoop mem fuel (s + 1) (n * 10 + (mem s).toUInt32.toInt32 - 48)
    else some n

def atoi (mem : ℕ → UInt8) (fuel s : ℕ) : Option Int32 :=
  atoiLoop mem fuel s 0

/-! ## Numerals -/

/-- The numeral of an integer in base 10. -/
def decimal (i : ℤ) : List UInt8 :=
  if i < 0 then MINUS :: (Nat.toDigits 10 i.natAbs).map Char.toUInt8
  else (Nat.toDigits 10 i.natAbs).map Char.toUInt8

section

variable {digits : List UInt8} {f : Char → UInt8} {base x : UInt32} {room : ℕ}

theorem digitLoop_of_lt (hdigit : ∀ d < base.toNat, digits.getD d 0 = f d.digitChar)
    (hx : x.toNat < base.toNat) :
    digitLoop digits base (room + 1) x = some [f x.toNat.digitChar] := by
  have hdiv : x / base = 0 := UInt32.toNat_inj.1 (by
    rw [UInt32.toNat_div, Nat.div_eq_of_lt hx, UInt32.toNat_zero])
  rw [digitLoop, if_neg (not_not.2 hdiv), UInt32.toNat_mod, Nat.mod_eq_of_lt hx, hdigit _ hx]

/-- The loop prints the digits, lowest first. -/
theorem digitLoop_eq (hb : 1 < base.toNat)
    (hdigit : ∀ d < base.toNat, digits.getD d 0 = f d.digitChar)
    (hx : x.toNat < base.toNat ^ (room + 1)) :
    digitLoop digits base (room + 1) x =
      some ((Nat.toDigits base.toNat x.toNat).map f).reverse := by
  induction room generalizing x with
  | zero =>
    rw [Nat.zero_add, Nat.pow_one] at hx
    rw [digitLoop_of_lt hdigit hx, Nat.toDigits_of_lt_base hx]
    rfl
  | succ room ih =>
    rcases Nat.lt_or_ge x.toNat base.toNat with hlt | hle
    · rw [digitLoop_of_lt hdigit hlt, Nat.toDigits_of_lt_base hlt]
      rfl
    · have hdiv : x / base ≠ 0 := fun h => by
        have h0 := congrArg UInt32.toNat h
        rw [UInt32.toNat_div] at h0
        exact Nat.ne_of_gt (Nat.div_pos hle (by omega)) h0
      have hx' : (x / base).toNat < base.toNat ^ (room + 1) := by
        rw [UInt32.toNat_div]
        exact Nat.div_lt_of_lt_mul (by rwa [← Nat.pow_succ'])
      rw [digitLoop, if_pos hdiv, ih hx', UInt32.toNat_mod, UInt32.toNat_div,
        hdigit _ (Nat.mod_lt _ (by omega)), Nat.toDigits_of_base_le hb hle]
      simp

theorem digitLoop_bufsize (hb : 1 < base.toNat)
    (hdigit : ∀ d < base.toNat, digits.getD d 0 = f d.digitChar)
    (hpow : 2 ^ 32 ≤ base.toNat ^ BUFSIZE) (x : UInt32) :
    digitLoop digits base BUFSIZE x =
      some ((Nat.toDigits base.toNat x.toNat).map f).reverse :=
  digitLoop_eq hb hdigit (Nat.lt_of_lt_of_le x.toNat_lt hpow)

theorem toNat_toUInt32 {xx : Int32} (h : ¬ xx < 0) : (xx.toUInt32.toNat : ℤ) = xx.toInt := by
  rw [Int32.lt_iff_toInt_lt] at h
  have heq : xx.toInt = xx.toUInt32.toBitVec.toInt := rfl
  have hlt := xx.toUInt32.toNat_lt
  rw [heq, BitVec.toInt_eq_toNat_cond, UInt32.toNat_toBitVec] at h ⊢
  have h0 : Int32.toInt 0 = 0 := rfl
  split_ifs at h ⊢ <;> omega

theorem toNat_toUInt32_neg {xx : Int32} (h : xx < 0) : ((-xx).toUInt32.toNat : ℤ) = -xx.toInt := by
  rw [Int32.lt_iff_toInt_lt] at h
  have heq : xx.toInt = xx.toUInt32.toBitVec.toInt := rfl
  have hneg : (-xx).toUInt32.toNat = (2 ^ 32 - xx.toUInt32.toNat) % 2 ^ 32 :=
    BitVec.toNat_neg xx.toBitVec
  have hlt := xx.toUInt32.toNat_lt
  rw [heq, BitVec.toInt_eq_toNat_cond, UInt32.toNat_toBitVec] at h ⊢
  have h0 : Int32.toInt 0 = 0 := rfl
  rw [hneg]
  split_ifs at h ⊢ <;> omega

/-- A signed number is printed in decimal. -/
theorem printint_signed (hdigit : ∀ d < 10, digits.getD d 0 = d.digitChar.toUInt8) (xx : Int32) :
    printint digits xx 10 true = some (decimal xx.toInt) := by
  have hloop : ∀ x : UInt32, digitLoop digits 10 BUFSIZE x =
      some ((Nat.toDigits 10 x.toNat).map Char.toUInt8).reverse :=
    digitLoop_bufsize (by decide) hdigit (by decide)
  by_cases hneg : xx < 0
  · have habs := toNat_toUInt32_neg hneg
    have hlt : xx.toInt < 0 := Int32.lt_iff_toInt_lt.1 hneg
    have hlen : (Nat.toDigits 10 (-xx).toUInt32.toNat).length < BUFSIZE :=
      Nat.lt_of_le_of_lt (Nat.toDigits_length _ _ 10 (by decide)
        (Nat.lt_trans (-xx).toUInt32.toNat_lt (by decide))) (by decide)
    have habs' : (-xx).toUInt32.toNat = xx.toInt.natAbs := by omega
    rw [habs'] at hlen
    simp only [printint, Bool.true_and, decide_eq_true hneg, if_true, hloop, habs', putSign,
      Option.bind_eq_bind, Option.bind_some, length_reverse, length_map, hlen,
      reverse_append, reverse_reverse, decimal, hlt]
    rfl
  · have habs := toNat_toUInt32 hneg
    have hge : ¬ xx.toInt < 0 := fun h => hneg (Int32.lt_iff_toInt_lt.2 h)
    have habs' : xx.toUInt32.toNat = xx.toInt.natAbs := by omega
    simp [printint, hneg, hloop, putSign, habs', decimal, hge]

/-- An unsigned one in hexadecimal. -/
theorem printint_unsigned (hdigit : ∀ d < 16, digits.getD d 0 = f d.digitChar) (xx : Int32) :
    printint digits xx 16 false = some ((Nat.toDigits 16 xx.toUInt32.toNat).map f) := by
  have hloop : ∀ x : UInt32, digitLoop digits 16 BUFSIZE x =
      some ((Nat.toDigits 16 x.toNat).map f).reverse :=
    digitLoop_bufsize (by decide) hdigit (by decide)
  simp [printint, putSign, hloop]

end

/-! ## Reading a numeral -/

/-- The number that `atoi` has read after the digits `l`. -/
def readDigits (n : Int32) (l : List UInt8) : Int32 :=
  l.foldl (fun n c => n * 10 + c.toUInt32.toInt32 - 48) n

/-- `atoi` reads the digits up to the end. -/
theorem atoiLoop_eq {mem : ℕ → UInt8} {l : List UInt8} {fuel s : ℕ} {n : Int32}
    (h : IsStr mem s l) (hl : ∀ c ∈ l, 48 ≤ c ∧ c ≤ 57) (hfuel : l.length < fuel) :
    atoiLoop mem fuel s n = some (readDigits n l) := by
  induction l generalizing s n fuel with
  | nil =>
    obtain ⟨fuel, rfl⟩ := Nat.exists_eq_add_of_lt hfuel
    have h0 : mem s = 0 := h.null
    rw [atoiLoop, h0, if_neg (by decide)]
    rfl
  | cons c l ih =>
    obtain ⟨hc, -, h'⟩ := IsStr.cons_iff.1 h
    obtain ⟨fuel, rfl⟩ := Nat.exists_eq_add_of_lt hfuel
    rw [atoiLoop, hc, if_pos (hl c mem_cons_self),
      ih h' (fun d hd => hl d (mem_cons_of_mem c hd)) (by simp; omega)]
    rfl

theorem digit_range : ∀ d < 10, 48 ≤ d.digitChar.toUInt8 ∧ d.digitChar.toUInt8 ≤ 57 := by
  decide

theorem digit_value : ∀ d < 10, d.digitChar.toUInt8.toUInt32.toInt32 - 48 = Int32.ofNat d := by
  decide

/-- The digits of a number are read back. -/
theorem readDigits_toDigits (n : ℕ) :
    (∀ c ∈ (Nat.toDigits 10 n).map Char.toUInt8, 48 ≤ c ∧ c ≤ 57) ∧
      readDigits 0 ((Nat.toDigits 10 n).map Char.toUInt8) = Int32.ofNat n := by
  induction n using Nat.strongRecOn with
  | _ n ih =>
    rcases Nat.lt_or_ge n 10 with hlt | hle
    · rw [Nat.toDigits_of_lt_base hlt, map_singleton]
      refine ⟨fun c hc => ?_, ?_⟩
      · rw [mem_singleton.1 hc]
        exact digit_range n hlt
      · rw [← digit_value n hlt]
        simp [readDigits]
    · obtain ⟨hrange, hread⟩ := ih (n / 10) (Nat.div_lt_self (by omega) (by decide))
      have hmod : n % 10 < 10 := Nat.mod_lt n (by decide)
      rw [Nat.toDigits_of_base_le (by decide) hle, map_append, map_singleton]
      refine ⟨fun c hc => ?_, ?_⟩
      · rcases mem_append.1 hc with hc | hc
        · exact hrange c hc
        · rw [mem_singleton.1 hc]
          exact digit_range _ hmod
      · rw [readDigits, foldl_append]
        show readDigits 0 _ * 10 + _ - 48 = Int32.ofNat n
        rw [hread, Int32.sub_eq_add_neg, Int32.add_assoc, ← Int32.sub_eq_add_neg,
          digit_value _ hmod]
        conv_rhs => rw [← Nat.div_add_mod' n 10, Int32.ofNat_add, Int32.ofNat_mul]
        rfl

/-- `printint` prints the canonical numeral without leaving its buffer, and `atoi` reads it back. -/
theorem printint_exact (xx : Int32) :
    (kprintint xx 10 true = some (decimal xx.toInt) ∧
      uprintint xx 10 true = some (decimal xx.toInt)) ∧
    (kprintint xx 16 false = some ((Nat.toDigits 16 xx.toUInt32.toNat).map Char.toUInt8) ∧
      uprintint xx 16 false =
        some ((Nat.toDigits 16 xx.toUInt32.toNat).map fun c => c.toUpper.toUInt8)) ∧
    (0 ≤ xx → ∀ (mem : ℕ → UInt8) (s fuel : ℕ), IsStr mem s (decimal xx.toInt) →
      (decimal xx.toInt).length < fuel → atoi mem fuel s = some xx) := by
  refine ⟨⟨printint_signed (by decide) xx, printint_signed (by decide) xx⟩,
    ⟨printint_unsigned (by decide) xx, printint_unsigned (by decide) xx⟩, ?_⟩
  intro hnonneg mem s fuel hstr hfuel
  have hge : 0 ≤ xx.toInt := Int32.le_iff_toInt_le.1 hnonneg
  obtain ⟨hrange, hread⟩ := readDigits_toDigits xx.toInt.natAbs
  rw [decimal, if_neg (by omega)] at hstr hfuel
  rw [atoi, atoiLoop_eq hstr hrange hfuel, hread, ← Int32.ofInt_eq_ofNat, Int.natAbs_of_nonneg hge,
    Int32.ofInt_toInt]

end Xv6.Printint
