import Mathlib.Algebra.Ring.Nat
import Mathlib.Tactic.Common

/-!
# Copies of memory

`memmove` of `string.c`, which copies down from the end where the source runs into the
destination, and `memmove` of `ulib.c`, which always copies up. A pointer is a 32-bit address and
wraps around as the comparisons of the source see it.

A copy reads what it has not yet overwritten if the destination is not among the source bytes
still to come : `copyUp_apply` and `copyDown_apply` say so for each direction, with distances
modulo `2 ^ 32`.
-/

open Function

namespace Xv6.Memmove

abbrev Mem := UInt32 → UInt8

variable {mem : Mem} {d s a : UInt32} {k : ℕ}

/-- `while(n-- > 0) *d++ = *s++`, with 32-bit addresses or the indices of a buffer. -/
def copyUp {A : Type} [DecidableEq A] [Add A] [OfNat A 1] : ℕ → A → A → (A → UInt8) → A → UInt8
  | 0, _, _, mem => mem
  | n + 1, d, s, mem => copyUp n (d + 1) (s + 1) (update mem d (mem s))

/-- `while(n-- > 0) *--d = *--s`. -/
def copyDown : ℕ → UInt32 → UInt32 → Mem → Mem
  | 0, _, _, mem => mem
  | n + 1, d, s, mem => copyDown n (d - 1) (s - 1) (update mem (d - 1) (mem (s - 1)))

/-- `memmove` of `string.c`. -/
def memmove (mem : Mem) (dst src n : UInt32) : Mem :=
  if src < dst ∧ dst < src + n then copyDown n.toNat (dst + n) (src + n) mem
  else copyUp n.toNat dst src mem

/-- `memmove` of `ulib.c`. -/
def umemmove (mem : Mem) (vdst vsrc : UInt32) (n : Int32) : Mem :=
  copyUp n.toInt.toNat vdst vsrc mem

/-! ## The loops -/

theorem copyUp_add (i j : ℕ) : ∀ (d s : UInt32) (mem : Mem), copyUp (i + j) d s mem =
    copyUp j (d + UInt32.ofNat i) (s + UInt32.ofNat i) (copyUp i d s mem) := by
  induction i with
  | zero => simp [copyUp]
  | succ i ih =>
    intro d s mem
    rw [Nat.add_right_comm, copyUp, ih, copyUp, UInt32.ofNat_add, UInt32.add_comm (UInt32.ofNat i),
      UInt32.add_assoc, UInt32.add_assoc]
    rfl

theorem toNat_sub_one_of_ne (h : a ≠ d) : (a - (d + 1)).toNat + 1 = (a - d).toNat := by
  have hne : a.toNat ≠ d.toNat := fun h' => h (UInt32.toNat_inj.1 h')
  have ha := a.toNat_lt
  have hd := d.toNat_lt
  simp only [UInt32.toNat_sub, UInt32.toNat_add, UInt32.toNat_ofNat]
  omega

theorem copyUp_apply (hk : k ≤ 2 ^ 32) (h : d = s ∨ k ≤ (d - s).toNat) :
    copyUp k d s mem a = if (a - d).toNat < k then mem (s + (a - d)) else mem a := by
  induction k generalizing d s mem with
  | zero => rfl
  | succ k ih =>
    have hnext : d + 1 = s + 1 ∨ k ≤ (d + 1 - (s + 1)).toNat := by
      have hsub : d + 1 - (s + 1) = d - s := by grind
      rw [hsub]
      exact h.imp (congrArg (· + 1)) fun h => by omega
    rw [copyUp, ih (by omega) hnext]
    by_cases ha : a = d
    · subst ha
      have hlast : ¬ (a - (a + 1)).toNat < k := by
        have : a - (a + 1) = -1 := by grind
        rw [this]
        exact Nat.not_lt.2 (Nat.le_of_lt_succ hk)
      rw [if_neg hlast, update_self, UInt32.sub_self, UInt32.add_zero]
      exact (if_pos (Nat.succ_pos k)).symm
    · have hsub := toNat_sub_one_of_ne ha
      have hsrc : s + 1 + (a - (d + 1)) = s + (a - d) := by grind
      rw [hsrc, update_of_ne ha]
      by_cases hlt : (a - (d + 1)).toNat < k
      · rw [if_pos hlt, if_pos (by omega)]
        -- the byte read now was not overwritten by the first one
        refine update_of_ne (fun hd => ?_) _ _
        have hda : d - s = a - d := by grind
        rcases h with h | h
        · exact ha (by grind)
        · rw [hda] at h
          omega
      · rw [if_neg hlt, if_neg (by omega)]

theorem copyDown_eq (k : ℕ) (d s : UInt32) (mem : Mem) (a : UInt32) :
    copyDown k d s mem a = copyUp k (-d) (-s) (fun x => mem (-1 - x)) (-1 - a) := by
  induction k generalizing d s mem with
  | zero =>
    exact congrArg mem (show a = -1 - (-1 - a) by grind)
  | succ k ih =>
    have hmem : (fun x => update mem (d - 1) (mem (s - 1)) (-1 - x)) =
        update (fun x => mem (-1 - x)) (-d) (mem (-1 - -s)) := by
      funext x
      by_cases hx : x = -d
      · rw [hx, update_self, show -1 - -d = d - 1 by grind, update_self,
          show -1 - -s = s - 1 by grind]
      · rw [update_of_ne hx, update_of_ne fun h => hx (by grind)]
    rw [copyDown, ih, hmem, copyUp, show -(d - 1) = -d + 1 by grind,
      show -(s - 1) = -s + 1 by grind]

theorem copyDown_apply (hk : k ≤ 2 ^ 32) (h : d = s ∨ k ≤ (s - d).toNat) :
    copyDown k d s mem a = if (d - 1 - a).toNat < k then mem (s - (d - a)) else mem a := by
  have h' : -d = -s ∨ k ≤ (-d - -s).toNat := by
    rw [show -d - -s = s - d by grind]
    exact h.imp_left (congrArg _)
  rw [copyDown_eq, copyUp_apply hk h', show -1 - a - -d = d - 1 - a by grind,
    show -1 - (-s + (d - 1 - a)) = s - (d - a) by grind, show -1 - (-1 - a) = a by grind]

/-! ## The functions -/

/-- The `n` bytes at `dst` are those that were at `src`, and the others as they were. -/
theorem memmove_apply {dst src n : UInt32} (hs : src.toNat + n.toNat < 2 ^ 32)
    (hd : dst.toNat + n.toNat < 2 ^ 32) (a : UInt32) :
    memmove mem dst src n a =
      if (a - dst).toNat < n.toNat then mem (src + (a - dst)) else mem a := by
  have ha := a.toNat_lt
  have hn : n.toNat ≤ 2 ^ 32 := Nat.le_of_lt n.toNat_lt
  unfold memmove
  split
  · -- the source runs into the destination
    next hover =>
    rw [UInt32.lt_iff_toNat_lt, UInt32.lt_iff_toNat_lt, UInt32.toNat_add] at hover
    have hdist : n.toNat ≤ (src + n - (dst + n)).toNat := by
      simp only [UInt32.toNat_sub, UInt32.toNat_add]
      omega
    have hin : (dst + n - 1 - a).toNat < n.toNat ↔ (a - dst).toNat < n.toNat := by
      simp only [UInt32.toNat_sub, UInt32.toNat_add, UInt32.toNat_one]
      omega
    rw [copyDown_apply hn (.inr hdist), show src + n - (dst + n - a) = src + (a - dst) by grind]
    simp only [hin]
  · next hover =>
    refine copyUp_apply hn ?_
    rw [UInt32.lt_iff_toNat_lt, UInt32.lt_iff_toNat_lt, UInt32.toNat_add] at hover
    by_cases heq : dst = src
    · exact .inl heq
    · have hne : dst.toNat ≠ src.toNat := fun h => heq (UInt32.toNat_inj.1 h)
      right
      rw [UInt32.toNat_sub]
      omega

/-- `memmove` of `string.c` copies, whatever the overlap. -/
theorem memmove_moves (mem : Mem) (dst src n : UInt32) (hs : src.toNat + n.toNat < 2 ^ 32)
    (hd : dst.toNat + n.toNat < 2 ^ 32) :
    (∀ i < n, memmove mem dst src n (dst + i) = mem (src + i)) ∧
      ∀ a, a < dst ∨ dst + n ≤ a → memmove mem dst src n a = mem a := by
  refine ⟨fun i hi => ?_, fun a ha => ?_⟩ <;> rw [memmove_apply hs hd]
  · rw [show dst + i - dst = i by grind, if_pos (UInt32.lt_iff_toNat_lt.1 hi)]
  · refine if_neg ?_
    have hlt := a.toNat_lt
    rw [UInt32.lt_iff_toNat_lt, UInt32.le_iff_toNat_le, UInt32.toNat_add] at ha
    rw [UInt32.toNat_sub]
    omega

/-- Three bytes are moved up by one. -/
theorem memmove_moves_up :
    let mem : Mem := fun a => a.toUInt8
    (∀ i < 3, memmove mem 11 10 3 (11 + i) = mem (10 + i)) ∧
      ∀ a, a < 11 ∨ 11 + 3 ≤ a → memmove mem 11 10 3 a = mem a :=
  memmove_moves _ 11 10 3 (by decide) (by decide)

/-! ## Both functions -/

theorem copyUp_of_le (hk : k ≤ (a - d).toNat) : copyUp k d s mem a = mem a := by
  induction k generalizing d s mem with
  | zero => rfl
  | succ k ih =>
    have hne : a ≠ d := by
      rintro rfl
      rw [UInt32.sub_self] at hk
      exact absurd hk (Nat.not_succ_le_zero k)
    have hsub := toNat_sub_one_of_ne hne
    rw [copyUp, ih (by omega), update_of_ne hne]

theorem copyUp_overlap (h : (d - s).toNat < k) (hk : k ≤ 2 ^ 32) (hne : d ≠ s) :
    copyUp k d s mem (d + (d - s)) = mem s := by
  obtain ⟨j, rfl⟩ := Nat.exists_eq_add_of_lt h
  have hcast : UInt32.ofNat (d - s).toNat = d - s := UInt32.ofNat_toNat
  have hpos : (d - d).toNat < (d - s).toNat := by
    rw [UInt32.sub_self]
    refine Nat.pos_of_ne_zero fun h0 => hne ?_
    have := UInt32.toNat_inj.1 (h0.trans UInt32.toNat_zero.symm)
    grind
  rw [Nat.add_assoc, copyUp_add, hcast, copyUp, copyUp_of_le ?_, update_self,
    show s + (d - s) = d by grind, copyUp_apply (by omega) (.inr (Nat.le_refl _)), if_pos hpos,
    UInt32.sub_self, UInt32.add_zero]
  have hlast : d + (d - s) - (d + (d - s) + 1) = -1 := by grind
  rw [hlast]
  show j ≤ 2 ^ 32 - 1
  omega

/-- The two functions agree where the source does not run into the destination, and only there. -/
theorem umemmove_eq_iff (dst src : UInt32) (n : Int32) (hn : 0 ≤ n)
    (hs : src.toNat + n.toUInt32.toNat < 2 ^ 32) (hd : dst.toNat + n.toUInt32.toNat < 2 ^ 32) :
    (∀ mem, umemmove mem dst src n = memmove mem dst src n.toUInt32) ↔
      ¬ (src < dst ∧ dst < src + n.toUInt32) := by
  have hcast : n.toInt.toNat = n.toUInt32.toNat := by
    have hn' : 0 ≤ n.toInt := Int32.le_iff_toInt_le.1 hn
    have heq : n.toInt = n.toUInt32.toBitVec.toInt := rfl
    rw [heq, BitVec.toInt_eq_toNat_cond] at hn' ⊢
    rw [UInt32.toNat_toBitVec] at hn' ⊢
    split_ifs at hn' ⊢ <;> omega
  constructor
  · rintro h ⟨hlt, hover⟩
    rw [UInt32.lt_iff_toNat_lt] at hlt
    rw [UInt32.lt_iff_toNat_lt, UInt32.toNat_add] at hover
    have hdist : (dst - src).toNat < n.toUInt32.toNat := by
      rw [UInt32.toNat_sub]
      omega
    have hne : dst ≠ src := by
      rintro rfl
      exact Nat.lt_irrefl _ hlt
    -- the byte at `src` is told apart from the one at `dst`
    have hboth := congrFun (h fun a => if a = src then 1 else 0) (dst + (dst - src))
    rw [umemmove, hcast, copyUp_overlap hdist (Nat.le_of_lt n.toUInt32.toNat_lt) hne,
      memmove_apply hs hd, show dst + (dst - src) - dst = dst - src by grind, if_pos hdist,
      show src + (dst - src) = dst by grind, if_pos rfl, if_neg hne] at hboth
    exact absurd hboth (by decide)
  · intro hover mem
    rw [umemmove, memmove, if_neg hover, hcast]

/-- Three bytes are moved down by one. -/
theorem umemmove_eq_down :
    (∀ mem, umemmove mem 10 11 3 = memmove mem 10 11 3) ↔
      ¬ ((11 : UInt32) < 10 ∧ (10 : UInt32) < 11 + 3) :=
  umemmove_eq_iff 10 11 3 (by decide) (by decide) (by decide)

/-- Moved up by one, the first of three bytes is repeated. -/
theorem umemmove_repeats :
    let mem : Mem := fun a => a.toUInt8
    umemmove mem 11 10 3 12 = 10 ∧ memmove mem 11 10 3 12 = 11 := by
  decide

end Xv6.Memmove
