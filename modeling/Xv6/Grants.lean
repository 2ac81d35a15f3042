import Xv6.UserMem

/-!
# Calls of `kalloc`

Which calls of `kalloc` find a page is a matter of the free list and of the failures that are in
store, both at the start. A program whose calls have all found a page so far has drawn as many from
the head of the list (`Drawn`), and its next call finds one if one more is granted
(`kalloc_drawn`).
-/

open Prog List

namespace Xv6.Vm

/-- The first `k` calls of `kalloc` from the memory `v` on find a page. -/
def Grants (v : Mem) (k : ℕ) : Prop :=
  k ≤ v.freelist.length ∧ ∀ b ∈ v.fails.take k, b = false

/-- The memory `v` after `k` calls of `kalloc` from `v0` on, that all found a page. -/
structure Drawn (v0 : Mem) (k : ℕ) (v : Mem) : Prop where
  grants : Grants v0 k
  freelist : v.freelist = v0.freelist.drop k
  fails : v.fails = v0.fails.drop k

variable {v0 v v' : Mem} {d k n x : ℕ} {perm : UInt32} {E : Stop → Mem → Prop}

theorem Grants.mono {j : ℕ} (h : Grants v k) (hj : j ≤ k) : Grants v j :=
  ⟨hj.trans h.1, fun b hb => h.2 b (take_subset_take_left _ hj hb)⟩

theorem Drawn.refl (v : Mem) : Drawn v 0 v :=
  ⟨⟨Nat.zero_le _, by simp⟩, rfl, rfl⟩

theorem Drawn.congr (h : Drawn v0 k v) (hl : v'.freelist = v.freelist) (hf : v'.fails = v.fails) :
    Drawn v0 k v' :=
  ⟨h.grants, hl.trans h.freelist, hf.trans h.fails⟩

/-- The calls that follow find a page if they do as calls from the start on. -/
theorem Drawn.grants_add (h : Drawn v0 k v) {j : ℕ} : Grants v j ↔ Grants v0 (k + j) := by
  have hk := h.grants.1
  rw [Grants, Grants, h.freelist, h.fails, length_drop, take_add, forall_mem_append,
    and_iff_right h.grants.2, Nat.le_sub_iff_add_le' hk]

theorem Drawn.trans {j : ℕ} (h : Drawn v0 k v) (h' : Drawn v j v') : Drawn v0 (k + j) v' :=
  ⟨h.grants_add.1 h'.grants, by rw [h'.freelist, h.freelist, drop_drop],
    by rw [h'.fails, h.fails, drop_drop]⟩

theorem Drawn.grants_succ (h : Drawn v0 k v) :
    Grants v0 (k + 1) ↔ v.freelist ≠ [] ∧ v.fails.headD false = false := by
  rw [← h.grants_add, Grants, Nat.one_le_iff_ne_zero, ne_eq, length_eq_zero_iff]
  cases v.fails <;> simp

/-- `kalloc` draws a page. -/
theorem kalloc_drawn (h : Drawn v0 k v) :
    wp kalloc (fun r v' => (r ≠ none ↔ Grants v0 (k + 1)) ∧
      (r ≠ none → Drawn v0 (k + 1) v')) E v := by
  have hg := h.grants_succ
  unfold kalloc
  simp only [wp_bind, wp_get]
  split
  · next x l hf hl =>
    have hgrant : Grants v0 (k + 1) := hg.2 ⟨by simp [hl], hf⟩
    refine ⟨by simp [hgrant], fun _ => ⟨hgrant, ?_, ?_⟩⟩
    · rw [← drop_drop, ← h.freelist, hl]
      rfl
    · rw [← drop_drop, ← h.fails, drop_one]
  · next hne =>
    have hno : ¬Grants v0 (k + 1) := by
      rw [hg]
      rintro ⟨hl, hf⟩
      obtain ⟨x, l, hl⟩ := exists_cons_of_ne_nil hl
      exact hne x l hf hl
    exact ⟨by simp [hno], fun h => absurd rfl h⟩

theorem kalloc_same : wp kalloc (fun r v' => r = none →
    v'.word = v.word ∧ v'.freelist = v.freelist) E v := by
  unfold kalloc
  simp only [wp_bind, wp_get]
  split
  · exact fun hr => absurd hr (by simp)
  · exact fun _ => ⟨rfl, rfl⟩

/-- A program that calls `kalloc` once if `c` and not at all otherwise, and succeeds if
that does. -/
def Draws {α : Type} (v0 : Mem) (k : ℕ) (c : Prop) (ok : α → Prop) (r : α) (v' : Mem) : Prop :=
  (c → (ok r ↔ Grants v0 (k + 1)) ∧ (ok r → Drawn v0 (k + 1) v')) ∧ (¬c → ok r ∧ Drawn v0 k v')

/-- `walkpgdir` draws one if the table is missing. -/
theorem walkpgdir_drawn (h : Drawn v0 k v) :
    wp (walkpgdir d n true) (Draws v0 k (v.table d (PDX n) = none) (· ≠ none)) E v := by
  unfold walkpgdir
  simp only [wp_bind, wp_get]
  cases hp : present (v.word d (PDX n)) with
  | true =>
    have ht : v.table d (PDX n) ≠ none := by simp [Mem.table, hp]
    exact ⟨fun hc => absurd hc ht, fun _ => ⟨by simp, h⟩⟩
  | false =>
    have ht : v.table d (PDX n) = none := by simp [Mem.table, hp]
    refine wp_seq (kalloc_drawn h) ?_
    rintro r v1 ⟨hr, hd⟩
    cases r with
    | none => exact ⟨fun _ => ⟨by simpa using hr, fun h => absurd rfl h⟩, fun hc => absurd ht hc⟩
    | some t =>
      refine ⟨fun _ => ⟨by simpa using hr, fun _ => (hd (by simp)).congr rfl rfl⟩,
        fun hc => absurd ht hc⟩

/-- So does `mappages` of a page. -/
theorem mapUser_drawn (h : Drawn v0 k v) :
    wp (mappages d perm 1 n x) (Draws v0 k (v.table d (PDX n) = none) (· = true))
      (fun _ _ => True) v := by
  unfold mappages
  refine wp_bind.2 (wp_mono (walkpgdir_drawn h) ?_)
  rintro r v1 ⟨hnone, hsome⟩
  cases r with
  | none =>
    refine ⟨fun hc => ⟨by simpa using (hnone hc).1, by simp⟩, fun hc => absurd rfl (hsome hc).1⟩
  | some tj =>
    refine wp_bind.2 (wp_get.2 ?_)
    split_ifs with hp
    · trivial
    refine wp_bind.2 ((wp_modify _).2 ⟨fun hc => ⟨by simpa using (hnone hc).1, fun _ => ?_⟩,
      fun hc => ⟨rfl, (hsome hc).2.congr rfl rfl⟩⟩)
    exact ((hnone hc).2 (by simp)).congr rfl rfl

end Xv6.Vm
