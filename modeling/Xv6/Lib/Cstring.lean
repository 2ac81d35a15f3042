import Mathlib.Data.List.TakeDrop
import Mathlib.Data.Nat.Notation
import Mathlib.Logic.Function.Basic
import Mathlib.Tactic.Common

/-!
# C strings in memory

A memory is a function from addresses to bytes. `IsStr mem p l` says that the characters `l` stand
at address `p` with a null byte after them. A string has strings in it, one at each of its
characters (`IsStr.drop`); a null byte written over one of its characters cuts it there
(`IsStr.cut`), and a byte written elsewhere leaves it (`IsStr.update`).

`readStr` reads a string and `strchr` looks for a character in it, both up to a bound on the number
of characters.
-/

open List

namespace Cstring

variable {mem mem' : ℕ → UInt8} {p q n i : ℕ} {l l' : List UInt8} {c : UInt8}

/-- The characters `l` stand at `p`, with a null byte after them. -/
structure IsStr (mem : ℕ → UInt8) (p : ℕ) (l : List UInt8) : Prop where
  char : ∀ i (hi : i < l.length), mem (p + i) = l[i]
  null : mem (p + l.length) = 0
  plain : (0 : UInt8) ∉ l

/-- At most `n` characters of the string at `p`. -/
def readStr (mem : ℕ → UInt8) : ℕ → ℕ → List UInt8
  | 0, _ => []
  | n + 1, p => if mem p = 0 then [] else mem p :: readStr mem n (p + 1)

/-- The address of the first `c` among `n` characters of the string at `p`. -/
def strchr (mem : ℕ → UInt8) (c : UInt8) : ℕ → ℕ → Option ℕ
  | 0, _ => none
  | n + 1, p =>
    if mem p = 0 then none else if mem p = c then some p else strchr mem c n (p + 1)

namespace IsStr

theorem nil (h : mem p = 0) : IsStr mem p [] :=
  ⟨fun _ hi => absurd hi (Nat.not_lt_zero _), h, not_mem_nil⟩

/-- The string after the first character. -/
theorem cons_iff : IsStr mem p (c :: l) ↔ mem p = c ∧ c ≠ 0 ∧ IsStr mem (p + 1) l := by
  constructor
  · intro h
    refine ⟨h.char 0 (Nat.succ_pos _), fun hc => h.plain (hc ▸ mem_cons_self), ?_, ?_, ?_⟩
    · intro i hi
      rw [Nat.add_assoc, Nat.add_comm 1 i]
      exact h.char (i + 1) (Nat.succ_lt_succ hi)
    · rw [Nat.add_assoc, Nat.add_comm 1]
      exact h.null
    · exact fun hmem => h.plain (mem_cons_of_mem c hmem)
  · rintro ⟨hp, hc, h⟩
    refine ⟨fun i hi => ?_, ?_, ?_⟩
    · cases i with
      | zero => exact hp
      | succ i =>
        rw [getElem_cons_succ, ← h.char i (Nat.lt_of_succ_lt_succ hi), Nat.add_assoc,
          Nat.add_comm 1 i]
    · rw [length_cons, Nat.add_comm l.length 1, ← Nat.add_assoc]
      exact h.null
    · rw [mem_cons, not_or]
      exact ⟨hc.symm, h.plain⟩

theorem head (h : IsStr mem p l) : mem p = l.headD 0 := by
  cases l with
  | nil => exact h.null
  | cons c l => exact (cons_iff.1 h).1

theorem drop (h : IsStr mem p l) (hi : i ≤ l.length) : IsStr mem (p + i) (l.drop i) where
  char j hj := by
    rw [length_drop] at hj
    rw [Nat.add_assoc, getElem_drop]
    exact h.char (i + j) (by omega)
  null := by
    rw [length_drop, Nat.add_assoc, Nat.add_sub_cancel' hi]
    exact h.null
  plain hmem := h.plain (mem_of_mem_drop hmem)

theorem congr (h : IsStr mem p l) (heq : ∀ j, p ≤ j → j ≤ p + l.length → mem' j = mem j) :
    IsStr mem' p l where
  char i hi := by
    rw [heq _ (by omega) (by omega)]
    exact h.char i hi
  null := by
    rw [heq _ (by omega) (by omega)]
    exact h.null
  plain := h.plain

theorem update (h : IsStr mem p l) (hq : q < p ∨ p + l.length < q) (x : UInt8) :
    IsStr (Function.update mem q x) p l :=
  h.congr fun j hj hj' => Function.update_of_ne (by omega) x mem

theorem cut (h : IsStr mem p l) (hi : i ≤ l.length) :
    IsStr (Function.update mem (p + i) 0) p (l.take i) where
  char j hj := by
    rw [length_take] at hj
    rw [Function.update_of_ne (by omega), getElem_take]
    exact h.char j (by omega)
  null := by
    rw [length_take, Nat.min_eq_left hi]
    exact Function.update_self _ _ _
  plain hmem := h.plain (mem_of_mem_take hmem)

theorem readStr_eq : ∀ {l : List UInt8} {n p : ℕ}, IsStr mem p l → l.length ≤ n →
    readStr mem n p = l
  | [], 0, _, _, _ => rfl
  | [], n + 1, p, h, _ => if_pos h.null
  | c :: l, n + 1, p, h, hn => by
    obtain ⟨hp, hc, h'⟩ := cons_iff.1 h
    rw [readStr, hp, if_neg hc, h'.readStr_eq (Nat.le_of_succ_le_succ hn)]

/-- `strchr` finds nothing in a string without the character. -/
theorem strchr_eq_none : ∀ {l : List UInt8} {n p : ℕ}, IsStr mem p l → c ∉ l →
    strchr mem c n p = none
  | _, 0, _, _, _ => rfl
  | [], n + 1, p, h, _ => if_pos h.null
  | d :: l, n + 1, p, h, hc => by
    obtain ⟨hp, hd, h'⟩ := cons_iff.1 h
    rw [mem_cons, not_or] at hc
    rw [strchr, hp, if_neg hd, if_neg (Ne.symm hc.1), h'.strchr_eq_none hc.2]

/-- `strchr` finds the first one. -/
theorem strchr_eq_some : ∀ {l : List UInt8} {n p : ℕ}, IsStr mem p (l ++ c :: l') → c ∉ l →
    l.length < n → strchr mem c n p = some (p + l.length)
  | [], n + 1, p, h, _, _ => by
    obtain ⟨hp, hc, -⟩ := cons_iff.1 h
    rw [strchr, hp, if_neg hc, if_pos rfl, length_nil, Nat.add_zero]
  | d :: l, n + 1, p, h, hc, hn => by
    obtain ⟨hp, hd, h'⟩ := cons_iff.1 h
    rw [mem_cons, not_or] at hc
    rw [strchr, hp, if_neg hd, if_neg (Ne.symm hc.1),
      h'.strchr_eq_some hc.2 (Nat.lt_of_succ_lt_succ hn), length_cons, Nat.add_assoc,
      Nat.add_comm 1]

end IsStr

end Cstring
