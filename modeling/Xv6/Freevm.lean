import Xv6.Copyuvm

/-!
# Giving up an address space

What `deallocuvm` and `freevm` put on the free list, page by page. The loop of `deallocuvm` goes on
by as many pages as a table has entries where a table is missing, from wherever in that table it
is. So the first pages of the next table that is there are missed, if the loop began in the middle
of a missing one (`Missed`), and they are the only ones (`deallocuvm_cleared_iff`). `freevm` begins
at page 0 and misses none.
-/

open Ownership (Exclusive)
open Prog List

namespace Xv6.Vm

section

variable {K : Link} {P : Pool K} {A B : Type} {O : Owners A B} {v v' v'' : Mem} {a : A}
  {d n m x lo hi last : ℕ} {E : Stop → Mem → Prop} {oldsz newsz : UInt32}

/-! ## The pages that are missed -/

/-- The loop of `deallocuvm` from page `n` on skips page `m` : the tables from that of `n` to that
of `m` are missing, and `m` is nearer to the start of its table than `n` is to that of its own. -/
def Missed (v : Mem) (d n m : ℕ) : Prop :=
  PDX n < PDX m ∧ PTX m < PTX n ∧ ∀ i < PDX m, PDX n ≤ i → v.table d i = none

instance (v : Mem) (d n m : ℕ) : Decidable (Missed v d n m) :=
  inferInstanceAs (Decidable (_ ∧ _ ∧ ∀ i < PDX m, PDX n ≤ i → v.table d i = none))

/-- The frame that the loop of `deallocuvm` from page `n` on frees for page `m`. -/
def reached (v : Mem) (d n m : ℕ) : Option ℕ :=
  if Missed v d n m then none else v.mapped d m

/-- The pages from `lo` to `hi` of the address space `d` that have a frame by `g` are unmapped, and
the frames are freed, each once. -/
structure Cleared (d lo hi : ℕ) (g : ℕ → Option ℕ) (v v' : Mem) : Prop where
  pte : ∀ m < NPAGES, v'.pte d m = if (lo ≤ m ∧ m < hi) ∧ g m ≠ none then 0 else v.pte d m
  free : v'.freelist = ((List.range' lo (hi - lo)).filterMap g).reverse ++ v.freelist

theorem not_missed_of_table (ht : v.table d (PDX n) ≠ none) : ¬Missed v d n m := fun h =>
  ht (h.2.2 (PDX n) h.1 le_rfl)

theorem not_missed_of_first (h0 : PTX n = 0) : ¬Missed v d n m := fun h =>
  absurd h.2.1 (by omega)

theorem reached_skip (ht : v.table d (PDX n) = none) (hm : n + NPTENTRIES ≤ m) :
    reached v d n m = reached v d (n + NPTENTRIES) m := by
  have hiff : Missed v d n m ↔ Missed v d (n + NPTENTRIES) m := by
    have hpdx : PDX (n + NPTENTRIES) = PDX n + 1 := by
      simp only [PDX, NPTENTRIES]
      omega
    have hptx : PTX (n + NPTENTRIES) = PTX n := by
      simp only [PTX, NPTENTRIES]
      omega
    rw [Missed, Missed, hpdx, hptx]
    constructor
    · rintro ⟨-, hlt, hnone⟩
      refine ⟨?_, hlt, fun i hi hle => hnone i hi (by omega)⟩
      simp only [PDX, PTX, NPTENTRIES] at *
      omega
    · rintro ⟨hlt, hlt', hnone⟩
      refine ⟨by omega, hlt', fun i hi hle => ?_⟩
      by_cases he : i = PDX n
      · exact he ▸ ht
      · exact hnone i hi (by omega)
  simp only [reached, hiff]

theorem reached_skipped (ht : v.table d (PDX n) = none) (hn : n ≤ m) (hm : m < n + NPTENTRIES) :
    reached v d n m = none := by
  unfold reached
  split_ifs with hmiss
  · rfl
  by_cases hpdx : PDX m = PDX n
  · rw [Mem.mapped, pte_of_no_table (hpdx ▸ ht), present_zero]
    rfl
  · refine absurd ⟨?_, ?_, fun i hi hle => ?_⟩ hmiss
    · simp only [PDX, NPTENTRIES] at *
      omega
    · simp only [PDX, PTX, NPTENTRIES] at *
      omega
    · obtain rfl : i = PDX n := by
        simp only [PDX, NPTENTRIES] at *
        omega
      exact ht

theorem reached_next (ht : v.table d (PDX n) ≠ none) :
    reached v d n m = v.mapped d m ∧ reached v d (n + 1) m = v.mapped d m := by
  refine ⟨if_neg (not_missed_of_table ht), if_neg ?_⟩
  by_cases h0 : PTX (n + 1) = 0
  · exact not_missed_of_first h0
  · refine not_missed_of_table ?_
    have hpdx : PDX (n + 1) = PDX n := by
      simp only [PDX, PTX, NPTENTRIES] at *
      omega
    rwa [hpdx]

/-! ## The loop -/

theorem Cleared.refl (g : ℕ → Option ℕ) (h : hi ≤ lo) : Cleared d lo hi g v v := by
  refine ⟨fun m _ => ?_, ?_⟩
  · rw [if_neg (by omega)]
  · rw [Nat.sub_eq_zero_of_le h]
    rfl

theorem Cleared.congr {g g' : ℕ → Option ℕ} (h : Cleared d lo hi g' v v')
    (heq : ∀ m, lo ≤ m → m < hi → g' m = g m) : Cleared d lo hi g v v' := by
  refine ⟨fun m hm => ?_, ?_⟩
  · rw [h.pte m hm]
    refine if_congr (and_congr_right fun hm => ?_) rfl rfl
    rw [heq m hm.1 hm.2]
  · rw [h.free, filterMap_congr fun m hm => ?_]
    have := mem_range'_1.1 hm
    exact heq m (by omega) (by omega)

theorem range'_split {lo mid hi : ℕ} (h : lo ≤ mid) (h' : mid ≤ hi) :
    List.range' lo (hi - lo) = List.range' lo (mid - lo) ++ List.range' mid (hi - mid) := by
  rw [show hi - lo = mid - lo + (hi - mid) by omega, ← range'_append_1,
    show lo + (mid - lo) = mid by omega]

/-- The pages before `n` have no frame by `g`, and the others the same as by `g'`. -/
theorem Cleared.skip {g g' : ℕ → Option ℕ} (h : Cleared d n hi g' v v') (hlo : lo ≤ n)
    (hnone : ∀ m, lo ≤ m → m < n → m < hi → g m = none) (heq : ∀ m, n ≤ m → g m = g' m) :
    Cleared d lo hi g v v' := by
  refine ⟨fun m hm => ?_, ?_⟩
  · rw [h.pte m hm]
    by_cases hmn : n ≤ m
    · rw [heq m hmn]
      refine if_congr (and_congr_left fun _ => ?_) rfl rfl
      omega
    · rw [if_neg (by omega), if_neg]
      rintro ⟨⟨hm', hmh⟩, hg⟩
      exact hg (hnone m hm' (by omega) hmh)
  · rw [h.free]
    refine congrArg (fun l : List ℕ => l.reverse ++ v.freelist) ?_
    by_cases hn : n ≤ hi
    · have hnil : (List.range' lo (n - lo)).filterMap g = [] :=
        filterMap_eq_nil_iff.2 fun m hm => by
          have := mem_range'_1.1 hm
          exact hnone m (by omega) (by omega) (by omega)
      rw [range'_split hlo hn, filterMap_append, hnil, nil_append]
      exact filterMap_congr fun m hm => (heq m (mem_range'_1.1 hm).1).symm
    · rw [Nat.sub_eq_zero_of_le (by omega : hi ≤ n)]
      refine (filterMap_eq_nil_iff.2 fun m hm => ?_).symm
      have := mem_range'_1.1 hm
      exact hnone m (by omega) (by omega) (by omega)

theorem Cleared.cons (h : Cleared d (n + 1) hi (v'.mapped d) v' v'') (hn : n < hi)
    (hhi : hi ≤ NPAGES) (hx : v.mapped d n = some x) (hzero : v'.pte d n = 0)
    (hrest : ∀ m < NPAGES, m ≠ n → v'.pte d m = v.pte d m)
    (hfree : v'.freelist = x :: v.freelist) : Cleared d n hi (v.mapped d) v v'' := by
  refine ⟨fun m hm => ?_, ?_⟩
  · rw [h.pte m hm]
    by_cases hmn : m = n
    · subst hmn
      rw [if_neg (by omega), hzero, if_pos ⟨⟨le_rfl, hn⟩, by rw [hx]; exact Option.some_ne_none x⟩]
    · rw [hrest m hm hmn, mapped_congr (hrest m hm hmn)]
      refine if_congr (and_congr_left fun _ => ?_) rfl rfl
      omega
  · rw [h.free, hfree, show hi - n = hi - (n + 1) + 1 by omega, range'_succ,
      filterMap_cons_some hx, reverse_cons, append_assoc, singleton_append,
      filterMap_congr fun m hm => mapped_congr ?_]
    have := mem_range'_1.1 hm
    exact hrest m (by omega) (by omega)

/-- The loop of `deallocuvm` clears the pages that it reaches. -/
theorem deallocLoop_cleared (ha : O.roots a = some d) (hlast : last ≤ KERNPAGE) :
    ∀ (fuel n : ℕ) (v : Mem), Own P O v → last ≤ n + fuel →
      wp (deallocLoop K d last fuel n) (fun _ v' => Cleared d n last (reached v d n) v v') E v := by
  have hN : last ≤ NPAGES := hlast.trans (by decide)
  refine deallocLoop_rule ha hlast (fun n v _ hle => Cleared.refl _ hle)
    (fun n v v' hn ht hc => ?_) (fun n v v' hn ht hp hc => ?_)
    fun n x v v1 v' hn ht hx hu hc => ?_
  · exact hc.skip (Nat.le_add_right _ _) (fun m hm hm' _ => reached_skipped ht hm hm')
      fun m hm => reached_skip ht hm
  · refine hc.skip (Nat.le_succ n) (fun m hm hm' _ => ?_) fun m _ =>
      (reached_next ht).1.trans (reached_next ht).2.symm
    obtain rfl : m = n := by omega
    rw [(reached_next ht).1, Mem.mapped, hp, if_neg Bool.false_ne_true]
  · have htable : v1.table d (PDX n) ≠ none := by
      rwa [hu.table _ (PDX_lt (hn.trans_le hN))]
    rw [show reached v d n = v.mapped d from funext fun m => (reached_next ht).1]
    rw [show reached v1 d (n + 1) = v1.mapped d from funext fun m => (reached_next htable).2] at hc
    exact hc.cons hn hN hx hu.same hu.rest hu.free

/-- `deallocuvm` removes every page of its range exactly if the loop misses none that is mapped. -/
theorem deallocuvm_cleared_iff (h : Own P O v) (ha : O.roots a = some d) (hlt : newsz < oldsz)
    (hold : oldsz ≤ KERNBASE) :
    ∃ v', deallocuvm K d oldsz newsz v = .ok newsz v' ∧ Own P O v' ∧ Kept O {a} v v' ∧
      (Cleared d (pageUp newsz) (pageUp oldsz) (v.mapped d) v v' ↔
        ∀ m, pageUp newsz ≤ m → m < pageUp oldsz → present (v.pte d m) = true →
          ¬Missed v d (pageUp newsz) m) := by
  have hspec : wp (deallocuvm K d oldsz newsz) (fun r v' => r = newsz ∧ Own P O v' ∧
      Kept O {a} v v' ∧ Cleared d (pageUp newsz) (pageUp oldsz) (reached v d (pageUp newsz)) v v')
      (fun _ _ => False) v := by
    unfold deallocuvm
    rw [if_neg (UInt32.not_le.2 hlt)]
    refine wp_seq (wp_and (deallocLoop_spec (U := fun _ => True) ha (pageUp_le hold) _ _ v h
      (by omega))
      (deallocLoop_cleared ha (pageUp_le hold) _ _ v h (by omega))) ?_
    rintro _ v' ⟨hedit, hc⟩
    exact ⟨rfl, hedit.own, hedit.kept, hc⟩
  obtain ⟨r, v', hr, rfl, hown, hkept, hc⟩ := exists_ok_of_wp hspec
  refine ⟨v', hr, hown, hkept, fun hall m hm hm' hp hmiss => ?_, fun hnone => ?_⟩
  · have hmN : m < NPAGES := lt_npages (hm'.trans_le (pageUp_le hold))
    have hpte := hall.pte m hmN
    rw [hc.pte m hmN, if_neg, if_pos] at hpte
    · rw [hpte, present_zero] at hp
      cases hp
    · exact ⟨⟨hm, hm'⟩, by rw [mapped_of_present hp]; exact Option.some_ne_none _⟩
    · rintro ⟨-, hreach⟩
      exact hreach (if_pos hmiss)
  · refine hc.congr fun m hm hm' => ?_
    by_cases hp : present (v.pte d m) = true
    · rw [reached, if_neg (hnone m hm hm' hp)]
    · rw [reached, Mem.mapped, if_neg hp, ite_self]

end

/-- Page 1024 alone is mapped, and `deallocuvm` from page 1 to it leaves it mapped. -/
theorem deallocuvm_skips_page :
    Own (Pool.all smallKernel) (Owners.empty.addRoot 0x400) (pageAt 1024 []) ∧
      deallocuvm smallKernel 0x400 0x401000 0x1000 (pageAt 1024 []) =
        .ok 0x1000 (pageAt 1024 []) ∧
      (pageAt 1024 []).mapped 0x400 1024 = some 0x402 ∧
      ¬Cleared 0x400 (pageUp 0x1000) (pageUp 0x401000) ((pageAt 1024 []).mapped 0x400)
        (pageAt 1024 []) (pageAt 1024 []) := by
  obtain ⟨hown, hpte⟩ := own_pageAt (l := []) nodup_nil nofun (n := 1024) (by decide)
  have hmapped : (pageAt 1024 []).mapped 0x400 1024 = some 0x402 :=
    mapped_of_pte (hpte 1024 (by decide)) (by decide) (by decide)
  refine ⟨hown, ?_, hmapped, fun hc => ?_⟩
  · have htable : (pageAt 1024 []).table 0x400 (PDX 1) = none := by decide
    have hrun : wp (deallocuvm smallKernel 0x400 0x401000 0x1000) (fun r v' => r = 0x1000 ∧
        v' = pageAt 1024 []) (fun _ _ => False) (pageAt 1024 []) := by
      unfold deallocuvm
      rw [if_neg (by decide), show pageUp 0x401000 = 1023 + 1 + 1 by decide,
        show pageUp 0x1000 = 1 by decide]
      unfold deallocLoop
      rw [if_pos (by decide)]
      simp only [bind_assoc, wp_bind, wp_walkpgdir_false, htable, Option.map_none]
      unfold deallocLoop
      rw [if_neg (by decide)]
      exact ⟨rfl, rfl⟩
    obtain ⟨r, v', hok, rfl, rfl⟩ := exists_ok_of_wp hrun
    exact hok
  · have hzero := hc.pte 1024 (by decide)
    rw [if_pos ⟨by decide, by rw [hmapped]; exact Option.some_ne_none _⟩] at hzero
    rw [Mem.mapped, hzero, present_zero] at hmapped
    cases hmapped

/-- Where the page is the first of the range, `deallocuvm` frees its frame. -/
theorem deallocuvm_cleared_iff_first :
    ∃ v', deallocuvm smallKernel 0x400 0x401000 0 (pageAt 1024 []) = .ok 0 v' ∧
      Own (Pool.all smallKernel) (Owners.empty.addRoot 0x400) v' ∧
      Kept (Owners.empty.addRoot 0x400) {none} (pageAt 1024 []) v' ∧
      (Cleared 0x400 (pageUp 0) (pageUp 0x401000) ((pageAt 1024 []).mapped 0x400)
        (pageAt 1024 []) v' ↔
        ∀ m, pageUp 0 ≤ m → m < pageUp 0x401000 → present ((pageAt 1024 []).pte 0x400 m) = true →
          ¬Missed (pageAt 1024 []) 0x400 (pageUp 0) m) :=
  deallocuvm_cleared_iff (a := none) (own_pageAt nodup_nil nofun (by decide)).1 rfl
    (by decide) (by decide)

/-! ## `freevm` -/

section

variable {K : Link} {P : Pool K} {A B : Type} {O : Owners A B} {v : Mem} {a : A} {d : ℕ}

/-- Pages were put on the free list, and none was taken. -/
def Pushed (v v' : Mem) : Prop :=
  v.freelist <:+ v'.freelist

theorem Pushed.refl (v : Mem) : Pushed v v :=
  suffix_rfl

theorem pushed_bind {α β : Type} {m : M α} {f : α → M β} (hm : Always Pushed m)
    (hf : ∀ r, Always Pushed (f r)) : Always Pushed (m >>= f) :=
  always_bind (fun _ _ _ h h' => List.IsSuffix.trans h h') hm hf

theorem pushed_kfree {x : ℕ} : Always Pushed (kfree K x) :=
  always_ite (always_throw Pushed.refl _) (always_modify fun v => suffix_cons x v.freelist)

theorem pushed_walkpgdir {n : ℕ} : Always Pushed (walkpgdir d n false) :=
  ⟨fun v => wp_walkpgdir_false.2 (Pushed.refl v)⟩

theorem pushed_deallocLoop {last : ℕ} : ∀ fuel n, Always Pushed (deallocLoop K d last fuel n)
  | 0, _ => always_pure Pushed.refl _
  | fuel + 1, n => by
    refine always_ite (pushed_bind pushed_walkpgdir fun r => ?_) (always_pure Pushed.refl _)
    cases r with
    | none => exact pushed_deallocLoop _ _
    | some tj =>
      refine pushed_bind (always_get Pushed.refl) fun v => always_ite
        (always_ite (always_throw Pushed.refl _) ?_) (pushed_deallocLoop _ _)
      refine pushed_bind pushed_kfree fun _ => ?_
      exact pushed_bind (always_modify fun _ => suffix_rfl) fun _ => pushed_deallocLoop _ _

theorem pushed_freeTables : ∀ is, Always Pushed (freeTables K d is)
  | [] => always_pure Pushed.refl _
  | _ :: is => by
    refine pushed_bind (always_get Pushed.refl) fun v => always_ite ?_ (pushed_freeTables is)
    exact pushed_bind pushed_kfree fun _ => pushed_freeTables is

theorem pushed_freevm : Always Pushed (freevm K d) := by
  refine pushed_bind (always_ite (always_pure Pushed.refl _) (pushed_bind (pushed_deallocLoop _ _)
    fun _ => always_pure Pushed.refl _)) fun _ => ?_
  exact pushed_bind (pushed_freeTables _) fun _ => pushed_kfree

/-- `freevm` puts the directory, its tables and the frames of the pages below `KERNBASE` on the
free list, each once, and nothing else. -/
theorem freevm_pushes [DecidableEq A] (h : Own P O v) (ha : O.roots a = some d) :
    ∃ v' pushed, freevm K d v = .ok () v' ∧ v'.freelist = pushed ++ v.freelist ∧
      Own P (O.dropRoot a) v' ∧ Kept (O.dropRoot a) ∅ v v' ∧ pushed.Nodup ∧
      ∀ x, x ∈ pushed ↔ x = d ∨ (∃ i < NPTENTRIES, v.table d i = some x) ∨
        ∃ m < KERNPAGE, v.mapped d m = some x := by
  obtain ⟨_, v', hok, ⟨hown, hkept, hfreed⟩, pushed, hpushed⟩ := exists_ok_of_wp
    (wp_always (freevm_spec h ha) pushed_freevm)
  have hnodup : (pushed ++ v.freelist).Nodup := hpushed ▸ hown.nodup
  refine ⟨v', pushed, hok, hpushed.symm, hown, hkept, hnodup.of_append_left, fun x => ?_⟩
  have hmem : x ∈ v'.freelist ↔ x ∈ pushed ∨ x ∈ v.freelist := by
    rw [← hpushed, mem_append]
  -- What belongs to the address space was not free.
  have hnot : (x = d ∨ (∃ i < NPTENTRIES, v.table d i = some x) ∨
      ∃ m < KERNPAGE, v.mapped d m = some x) → x ∉ v.freelist := by
    rintro (rfl | ⟨i, hi, ht⟩ | ⟨m, hm, hx⟩)
    · exact h.not_free (.dir a) x ha
    · exact h.not_free (.table a i) x ((page_table ha hi).trans ht)
    · exact h.not_free (.frame a m) x ((page_frame ha hm).trans hx)
  constructor
  · intro hx
    refine ((hfreed x).1 (hmem.2 (.inl hx))).resolve_left fun hfree => ?_
    exact (nodup_append.1 hnodup).2.2 x hx x hfree rfl
  · intro hx
    exact (hmem.1 ((hfreed x).2 (.inr hx))).resolve_right (hnot hx)

/-- An address space of one page. -/
theorem freevm_pushes_onePage :
    ∃ v' pushed, freevm smallKernel 0x400 (onePage []) = .ok () v' ∧
      v'.freelist = pushed ++ (onePage []).freelist ∧
      Own (Pool.all smallKernel) ((Owners.empty.addRoot 0x400).dropRoot none) v' ∧
      Kept ((Owners.empty.addRoot 0x400).dropRoot none) ∅ (onePage []) v' ∧ pushed.Nodup ∧
      ∀ x, x ∈ pushed ↔ x = 0x400 ∨ (∃ i < NPTENTRIES, (onePage []).table 0x400 i = some x) ∨
        ∃ m < KERNPAGE, (onePage []).mapped 0x400 m = some x :=
  freevm_pushes (own_onePage nodup_nil nofun).1 rfl

end

end Xv6.Vm
