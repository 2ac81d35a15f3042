import Xv6.SpaceOps

/-!
# Pages that come and go

What becomes of each page of a range. A range that is being filled has a fresh frame for each
page that is mapped, and every page taken from the free list is in use, unless a table could not
be allocated : the page meant for that entry is lost (`Filling`). A range that is given up goes
back to the free list (`Undone`), and so does a whole address space with its tables in `freevm`.
-/

open Ownership (Exclusive)
open Prog List

namespace Xv6.Vm

variable {K : Link} {P : Pool K} {A B : Type} {O : Owners A B} {v0 v v' v'' : Mem}
  {a : A} {d n m x y i j t lo hi : ℕ} {w : UInt32} {E : Stop → Mem → Prop}

/-! ## Filling a range -/

/-- The pages from `lo` to `hi` of the address space `d` of `a` are being mapped, page `m` with
the flags `perm m` to a frame from the free list that holds `c m`. With `ok` they all are, and
no page that was taken is lost. -/
structure Filling (P : Pool K) (O : Owners A B) (a : A) (d : ℕ) (perm : ℕ → UInt32)
    (c : ℕ → ℕ → UInt32) (lo hi : ℕ) (ok : Bool) (v0 v : Mem) : Prop where
  grew : Grew P O a d v0 v
  table : ∀ i < NPTENTRIES, (∀ m, lo ≤ m → m < hi → PDX m ≠ i) → v.table d i = v0.table d i
  pte : ∀ m < NPAGES, ¬(lo ≤ m ∧ m < hi) → v.pte d m = v0.pte d m
  page : ∀ m, lo ≤ m → m < hi → present (v.pte d m) = true →
    ∃ x ∈ v0.freelist, v.mapped d m = some x ∧ v.pte d m = entry x (perm m) ∧ v.word x = c m
  full : ok = true → ∀ m, lo ≤ m → m < hi → present (v.pte d m) = true
  free : ok = true → ∀ y ∈ v0.freelist, y ∈ v.freelist ∨
    (∃ i < NPTENTRIES, v0.table d i = none ∧ v.table d i = some y) ∨
    ∃ m, lo ≤ m ∧ m < hi ∧ v.mapped d m = some y
  lost : ok = false → ∃ x ∈ v0.freelist, Loose P O v x
  gap : ok = false → ∃ m, lo ≤ m ∧ m < hi ∧ present (v.pte d m) = false

variable {perm : ℕ → UInt32} {c : ℕ → ℕ → UInt32} {ok : Bool}

theorem Filling.start (h : Own P O v) : Filling P O a d perm c lo lo true v v where
  grew := Grew.refl h
  table _ _ _ := rfl
  pte _ _ _ := rfl
  page m hm hm' := absurd hm' (by omega)
  full _ m hm hm' := absurd hm' (by omega)
  free _ _ hy := .inl hy
  lost hok := by cases hok
  gap hok := by cases hok

theorem Filling.of_word_eq (h : Filling P O a d perm c lo hi ok v0 v) (hown : Own P O v')
    (hw : v'.word = v.word) (hl : v'.freelist = v.freelist) :
    Filling P O a d perm c lo hi ok v0 v' := by
  have htable : ∀ i, v'.table d i = v.table d i := fun i => table_congr (by rw [hw])
  have hpte : ∀ m, v'.pte d m = v.pte d m := fun m => by
    simp only [Mem.pte, htable, hw]
  have hmapped : ∀ m, v'.mapped d m = v.mapped d m := fun m => mapped_congr (hpte m)
  refine ⟨h.grew.trans (Grew.of_word_eq hown hw (by rw [hl])),
    fun i hi hout => (htable i).trans (h.table i hi hout), fun m hm hout => ?_,
    fun m hm hm' hp => ?_, fun hok m hm hm' => ?_, fun hok y hy => ?_, fun hok => ?_,
    fun hok => ?_⟩
  · rw [hpte, h.pte m hm hout]
  · rw [hpte] at hp ⊢
    rw [hmapped, hw]
    exact h.page m hm hm' hp
  · rw [hpte]
    exact h.full hok m hm hm'
  · simp only [hl, htable, hmapped]
    exact h.free hok y hy
  · obtain ⟨x, hx, hloose⟩ := h.lost hok
    exact ⟨x, hx, hloose.of_suffix hw (by rw [hl])⟩
  · obtain ⟨m, hm, hm', hp⟩ := h.gap hok
    exact ⟨m, hm, hm', by rw [hpte, hp]⟩

theorem Own.frame_word {b : A} {e : ℕ} (h : Own P O v) (hgrew : Grew P O a d v v')
    (ha : O.roots a = some d) (hb : O.roots b = some e) (hn : n < KERNPAGE)
    (hx : v.mapped e n = some x) : v'.word x = v.word x := by
  have hr : O.page v (.frame b n) = some x := (page_frame hb hn).trans hx
  have hplain := h.plain_frame hr
  refine hgrew.word x (h.not_free _ x hr) ?_ fun i hi ht => ?_
  · rintro rfl
    exact hplain.dir a ha
  · exact hplain.table a i ((page_table ha hi).trans ht)

theorem mapped_of_pte (hp : v.pte d m = entry x w) (hx : x < NPAGES) (hw : w.toNat < PGSIZE) :
    v.mapped d m = some x := by
  rw [Mem.mapped, hp, if_pos present_entry, frame_entry hx hw]

/-- The next page of the range : a page from the free list, filled, is mapped or lost. -/
theorem Filling.map (perm : ℕ → UInt32) {v1 : Mem} (h : Filling P O a d perm c lo n ok v0 v)
    (ha : O.roots a = some d)
    (hlo : lo ≤ n) (hn : n < KERNPAGE) (hp : present (v0.pte d n) = false)
    (hperm : (perm n).toNat < PGSIZE) (hown1 : Own P O v1) (hw : v1.word = v.word)
    (hx : Loose P O v1 x) (hl : v.freelist = x :: v1.freelist) :
    wp (mappages d (perm n) 1 n x) (fun b v2 => Filling P O a d perm c lo (n + 1) (ok && b) v0 v2 ∧
      if b then v1.freelist.length =
          v2.freelist.length + if v.table d (PDX n) = none then 1 else 0
      else v2.freelist = v1.freelist) E (v1.fill x (c n)) := by
  have hn' := lt_npages hn
  have hgrew2 := Grew.take hown1 ha hw hx hl (c n)
  have hview2 := (hx.kept_fill (c n)).view a d id ha
  have hpte2 : ∀ m < NPAGES, (v1.fill x (c n)).pte d m = v.pte d m := fun m hm =>
    (hview2.pte m hm).trans ((SameView.of_word_eq hw d).pte m hm)
  have htable2 : ∀ i < NPTENTRIES, (v1.fill x (c n)).table d i = v.table d i := fun i hi =>
    (hview2.table i hi).trans (table_congr (by rw [hw]))
  have hmem : x ∈ v0.freelist := h.grew.suffix.mem (hl ▸ mem_cons_self)
  have hx2 := hx.fill (c n)
  have hp2 : present ((v1.fill x (c n)).pte d n) = false := by
    rw [hpte2 n hn', h.pte n hn' (by omega), hp]
  refine wp_mono (mapUser_spec hgrew2.own ha hn hx2 hperm (.inr hp2)) ?_
  rintro b v3 ⟨-, ⟨hgrew3, hspent, htables⟩, -, hrest, hloose, hb⟩
  have hgrew := hgrew2.trans hgrew3
  have hpte3 : ∀ m < NPAGES, m ≠ n → v3.pte d m = v.pte d m := fun m hm hne =>
    (hrest m hm hne).trans (hpte2 m hm)
  -- what the new entry is
  have hnew : b = true → v3.mapped d n = some x ∧ v3.pte d n = entry x (perm n) ∧
      v3.word x = c n := by
    rintro rfl
    rw [if_pos rfl] at hb
    refine ⟨mapped_of_pte hb.1 hx.lt_npages hperm, hb.1, ?_⟩
    rw [hgrew3.word x hx2.not_free, fill_word_same]
    · rintro rfl
      exact hx2.plain.dir a ha
    · exact fun i hi ht => hx2.plain.table a i ((page_table ha hi).trans ht)
  -- and what there is without one
  have hlost : b = false → Loose P O v3 x ∧ present (v3.pte d n) = false ∧
      v3.freelist = v1.freelist := by
    rintro rfl
    rw [if_neg Bool.false_ne_true] at hb
    exact ⟨hx2.of_suffix hb.1 (by rw [hb.2.1]),
      by rw [(SameView.of_word_eq hb.1 d).pte n hn', hp2], hb.2.1⟩
  have hlt : ∀ m, lo ≤ m → m < n → m < NPAGES ∧ m < KERNPAGE ∧ m ≠ n := fun m _ hm =>
    ⟨hm.trans hn', hm.trans hn, hm.ne⟩
  refine ⟨⟨h.grew.trans hgrew, fun i hi hout => ?_, fun m hm hout => ?_, fun m hm hm' hpm => ?_,
    fun hok m hm hm' => ?_, fun hok y hy => ?_, fun hok => ?_, fun hok => ?_⟩, ?_⟩
  · rw [htables i hi fun he => hout n hlo (by omega) (Set.mem_singleton_iff.1 he).symm,
      htable2 i hi]
    exact h.table i hi fun m hm hm' => hout m hm (by omega)
  · rw [hpte3 m hm (by omega), h.pte m hm (by omega)]
  · by_cases he : m = n
    · subst he
      cases b with
      | true => exact ⟨x, hmem, hnew rfl⟩
      | false =>
        rw [(hlost rfl).2.1] at hpm
        cases hpm
    · obtain ⟨hmN, hmK, -⟩ := hlt m hm (by omega)
      rw [hpte3 m hmN he] at hpm
      obtain ⟨x', hx', hmapped, hpte, hword⟩ := h.page m hm (by omega) hpm
      refine ⟨x', hx', (mapped_congr (hpte3 m hmN he)).trans hmapped,
        (hpte3 m hmN he).trans hpte, ?_⟩
      rw [h.grew.own.frame_word hgrew ha ha hmK hmapped, hword]
  · obtain ⟨hok, hb'⟩ := Bool.and_eq_true_iff.1 hok
    by_cases he : m = n
    · subst he
      rw [(hnew hb').2.1, present_entry]
    · rw [hpte3 m (hlt m hm (by omega)).1 he]
      exact h.full hok m hm (by omega)
  · obtain ⟨hok, hb'⟩ := Bool.and_eq_true_iff.1 hok
    rcases h.free hok y hy with hfree | ⟨i, hi, hnone, hsome⟩ | ⟨m, hm, hm', hmapped⟩
    · rw [hl, mem_cons] at hfree
      rcases hfree with rfl | hfree
      · exact .inr (.inr ⟨n, hlo, by omega, (hnew hb').1⟩)
      · rcases hspent y hfree with hfree | ⟨i, hi, hnone, hsome⟩
        · exact .inl hfree
        · rw [htable2 i hi] at hnone
          exact .inr (.inl ⟨i, hi, h.grew.table_none hi hnone, hsome⟩)
    · exact .inr (.inl ⟨i, hi, hnone, hgrew.table_some hi hsome⟩)
    · obtain ⟨hmN, -, hne⟩ := hlt m hm hm'
      exact .inr (.inr ⟨m, hm, by omega, (mapped_congr (hpte3 m hmN hne)).trans hmapped⟩)
  · cases ok with
    | true =>
      exact ⟨x, hmem, (hlost hok).1⟩
    | false =>
      obtain ⟨y, hy, hyl⟩ := h.lost rfl
      have hsuf : v1.freelist <:+ v.freelist := hl ▸ suffix_cons x v1.freelist
      have hyx : y ≠ x := by
        rintro rfl
        exact hyl.not_free (hl ▸ mem_cons_self)
      refine ⟨y, hy, hloose y hyx ?_⟩
      exact (hyl.of_suffix hw hsuf).congr rfl fun a d ha => (hx.kept_fill (c n)).view a d id ha
  · cases ok with
    | true =>
      exact ⟨n, hlo, by omega, (hlost hok).2.1⟩
    | false =>
      obtain ⟨m, hm, hm', hpm⟩ := h.gap rfl
      obtain ⟨hmN, -, hne⟩ := hlt m hm hm'
      exact ⟨m, hm, by omega, by rw [hpte3 m hmN hne, hpm]⟩
  · cases b with
    | true =>
      rw [if_pos rfl] at hb ⊢
      rw [← htable2 _ (PDX_lt hn')]
      exact hb.2
    | false =>
      rw [if_neg Bool.false_ne_true]
      exact (hlost rfl).2.2

/-! ## Giving a range up -/

/-- The pages from `lo` to `hi` of the address space `d` of `a` are unmapped, and their frames
are free. -/
structure Undone (P : Pool K) (O : Owners A B) (a : A) (d lo hi : ℕ) (v v' : Mem) : Prop where
  own : Own P O v'
  kept : Kept O {a} v v'
  table : ∀ i < NPTENTRIES, v'.table d i = v.table d i
  gone : ∀ m, lo ≤ m → m < hi → present (v'.pte d m) = false
  pte : ∀ m < NPAGES, ¬(lo ≤ m ∧ m < hi) → v'.pte d m = v.pte d m
  word : ∀ y, (∀ i < NPTENTRIES, v.table d i ≠ some y) →
    (∀ m, lo ≤ m → m < hi → v.mapped d m ≠ some y) → v'.word y = v.word y
  free : ∀ y, y ∈ v'.freelist ↔ y ∈ v.freelist ∨ ∃ m, lo ≤ m ∧ m < hi ∧ v.mapped d m = some y

theorem not_mapped (hp : present (v.pte d m) = false) : v.mapped d m ≠ some y := by
  simp [Mem.mapped, hp]

theorem Undone.refl (h : Own P O v) (hp : ∀ m, lo ≤ m → m < hi → present (v.pte d m) = false) :
    Undone P O a d lo hi v v := by
  refine ⟨h, Kept.refl O _ v, fun _ _ => rfl, hp, fun _ _ _ => rfl, fun _ _ _ => rfl,
    fun y => ⟨.inl, ?_⟩⟩
  rintro (hy | ⟨m, hm, hm', hmapped⟩)
  · exact hy
  · exact absurd hmapped (not_mapped (hp m hm hm'))

theorem Undone.skip (h : Undone P O a d m hi v v') (hlo : lo ≤ m) (hhi : hi ≤ NPAGES)
    (hp : ∀ j, lo ≤ j → j < m → j < hi → present (v.pte d j) = false) :
    Undone P O a d lo hi v v' := by
  refine ⟨h.own, h.kept, h.table, fun j hj hj' => ?_, fun j hj hout => h.pte j hj (by omega),
    fun y hy hy' => h.word y hy fun j hj hj' => hy' j (by omega) hj', fun y => ?_⟩
  · by_cases hjm : m ≤ j
    · exact h.gone j hjm hj'
    · rw [h.pte j (by omega) (by omega)]
      exact hp j hj (by omega) hj'
  · rw [h.free]
    constructor
    · rintro (hy | ⟨j, hj, hj', hmapped⟩)
      · exact .inl hy
      · exact .inr ⟨j, by omega, hj', hmapped⟩
    · rintro (hy | ⟨j, hj, hj', hmapped⟩)
      · exact .inl hy
      · by_cases hjm : m ≤ j
        · exact .inr ⟨j, hjm, hj', hmapped⟩
        · exact absurd hmapped (not_mapped (hp j hj (by omega) hj'))

/-- Whether the loop of `deallocuvm` from page `n` on misses no page before `last` : it skips
as many pages as a table has entries when a table is missing. -/
def Steps (v : Mem) (d n last : ℕ) : Prop :=
  PTX n = 0 ∨ v.table d (PDX n) ≠ none ∨ ∀ m, n ≤ m → m < last → present (v.pte d m) = false

theorem Unmapped.undone (h : Unmapped P O a d n x v v') (hx : v.mapped d n = some x) :
    Undone P O a d n (n + 1) v v' := by
  refine ⟨h.own, h.kept, h.table, fun m hm hm' => ?_, fun m hm hout => h.rest m hm (by omega),
    fun y hy hy' => h.word y (fun he => hy' n le_rfl (by omega) (he ▸ hx)) hy, fun y => ?_⟩
  · obtain rfl : m = n := by omega
    rw [h.same, present_zero]
  · rw [h.free, mem_cons, or_comm]
    refine or_congr_right ⟨?_, ?_⟩
    · rintro rfl
      exact ⟨n, le_rfl, by omega, hx⟩
    · rintro ⟨m, hm, hm', hmapped⟩
      obtain rfl : m = n := by omega
      exact Option.some.inj (hmapped.symm.trans hx)

theorem Undone.trans (h : Undone P O a d lo m v v') (h' : Undone P O a d m hi v' v'')
    (hlo : lo ≤ m) (hmh : m ≤ hi) (hhi : hi ≤ NPAGES) : Undone P O a d lo hi v v'' := by
  have hmapped : ∀ j, m ≤ j → j < hi → v'.mapped d j = v.mapped d j := fun j hj hj' =>
    mapped_congr (h.pte j (by omega) (by omega))
  refine ⟨h'.own, h.kept.trans h'.kept, fun i hi => (h'.table i hi).trans (h.table i hi),
    fun j hj hj' => ?_, fun j hj hout => ?_, fun y hy hy' => ?_, fun y => ?_⟩
  · by_cases hjm : m ≤ j
    · exact h'.gone j hjm hj'
    · rw [h'.pte j (by omega) (by omega)]
      exact h.gone j hj (by omega)
  · rw [h'.pte j hj (by omega), h.pte j hj (by omega)]
  · rw [h'.word y (fun i hi => by rw [h.table i hi]; exact hy i hi) fun j hj hj' => ?_,
      h.word y hy fun j hj hj' => hy' j hj (by omega)]
    rw [hmapped j hj hj']
    exact hy' j (by omega) hj'
  · rw [h'.free, h.free, or_assoc]
    refine or_congr_right ⟨?_, ?_⟩
    · rintro (⟨j, hj, hj', hy⟩ | ⟨j, hj, hj', hy⟩)
      · exact ⟨j, hj, by omega, hy⟩
      · exact ⟨j, by omega, hj', (hmapped j hj hj').symm.trans hy⟩
    · rintro ⟨j, hj, hj', hy⟩
      by_cases hjm : m ≤ j
      · exact .inr ⟨j, hjm, hj', (hmapped j hjm hj').trans hy⟩
      · exact .inl ⟨j, hj, by omega, hy⟩

theorem Steps.next {last : ℕ} (hn : n < NPAGES) (ht : v.table d (PDX n) ≠ none)
    (htable : ∀ i < NPTENTRIES, v'.table d i = v.table d i) : Steps v' d (n + 1) last := by
  by_cases h0 : PTX (n + 1) = 0
  · exact .inl h0
  · refine .inr (.inl ?_)
    have hpdx : PDX (n + 1) = PDX n := by
      simp only [PDX, PTX, NPTENTRIES] at *
      omega
    rwa [hpdx, htable _ (PDX_lt hn)]

/-- The loop of `deallocuvm` gives up the pages from `n` to `last`, unless it misses some. -/
theorem deallocLoop_undone (ha : O.roots a = some d) {last : ℕ} (hlast : last ≤ KERNPAGE) :
    ∀ (fuel n : ℕ) (v : Mem), Own P O v → last ≤ n + fuel →
      wp (deallocLoop K d last fuel n) (fun _ v' => (∀ y, Loose P O v y → Loose P O v' y) ∧
        (Steps v d n last → Undone P O a d n last v v')) E v := by
  have hN : last ≤ NPAGES := hlast.trans (by decide)
  refine deallocLoop_rule ha hlast ?_ ?_ ?_ ?_
  · intro n v h hle
    exact ⟨fun _ => id, fun _ => Undone.refl h fun m hm hm' => absurd hm' (by omega)⟩
  · rintro n v v' - ht ⟨hloose, hundone⟩
    refine ⟨hloose, fun hsteps => ?_⟩
    refine (hundone ?_).skip (Nat.le_add_right _ _) hN fun j hj hj' hjl => ?_
    · rcases hsteps with h0 | hno | hall
      · refine .inl ?_
        simp only [PTX, NPTENTRIES] at *
        omega
      · exact absurd ht hno
      · exact .inr (.inr fun m hm hm' => hall m (by omega) hm')
    · rcases hsteps with h0 | hno | hall
      · have hpdx : PDX j = PDX n := by
          simp only [PDX, PTX, NPTENTRIES] at *
          omega
        rw [pte_of_no_table (by rw [hpdx, ht]), present_zero]
      · exact absurd ht hno
      · exact hall j hj hjl
  · rintro n v v' hn ht hp ⟨hloose, hundone⟩
    refine ⟨hloose, fun _ => (hundone (Steps.next (by omega) ht fun _ _ => rfl)).skip
      (Nat.le_succ n) hN fun j hj hj' _ => ?_⟩
    obtain rfl : j = n := by omega
    exact hp
  · rintro n x v v1 v' hn ht hx hu ⟨hloose, hundone⟩
    refine ⟨fun y hy => hloose y (hu.loose y hy), fun _ => ?_⟩
    exact (hu.undone hx).trans (hundone (Steps.next (by omega) ht hu.table)) (Nat.le_succ n) hn hN

/-! ## `freevm` -/

/-- The directory `d` and its tables at the indices `is` are nobody's, and each its own page. -/
structure Doomed (P : Pool K) (O : Owners A B) (d : ℕ) (is : List ℕ) (v : Mem) : Prop where
  dir : Loose P O v d
  table : ∀ i ∈ is, ∀ t, v.table d i = some t → Loose P O v t ∧ t ≠ d
  inj : ∀ i ∈ is, ∀ j ∈ is, ∀ t, v.table d i = some t → v.table d j = some t → i = j

theorem Doomed.tail {is : List ℕ} (h : Doomed P O d (i :: is) v) : Doomed P O d is v :=
  ⟨h.dir, fun j hj => h.table j (mem_cons_of_mem i hj),
    fun j hj k hk => h.inj j (mem_cons_of_mem i hj) k (mem_cons_of_mem i hk)⟩

theorem Doomed.put {is : List ℕ} (h : Doomed P O d (i :: is) v) (hnodup : (i :: is).Nodup)
    (ht : v.table d i = some t) : Doomed P O d is (v.put t) := by
  obtain ⟨hloose, hne⟩ := h.table i mem_cons_self t ht
  have hsame : ∀ j, (v.put t).table d j = v.table d j := fun j =>
    table_congr (by rw [show (v.put t).word d = v.word d from fill_word_ne _ hne.symm])
  refine ⟨h.dir.put hloose hne.symm, fun j hj t' ht' => ?_, fun j hj k hk t' ht' ht'' => ?_⟩
  · rw [hsame] at ht'
    obtain ⟨hloose', hne'⟩ := h.table j (mem_cons_of_mem i hj) t' ht'
    refine ⟨hloose'.put hloose fun he => ?_, hne'⟩
    subst he
    have hij := h.inj i mem_cons_self j (mem_cons_of_mem i hj) t' ht ht'
    exact (nodup_cons.1 hnodup).1 (hij ▸ hj)
  · rw [hsame] at ht' ht''
    exact h.tail.inj j hj k hk t' ht' ht''

/-- The tables are freed one by one. -/
theorem freeTables_spec :
    ∀ (is : List ℕ) (v : Mem), is.Nodup → Own P O v → Doomed P O d is v →
      wp (freeTables K d is) (fun _ v' => Own P O v' ∧ Loose P O v' d ∧ Kept O ∅ v v' ∧
        ∀ y, y ∈ v'.freelist ↔ y ∈ v.freelist ∨ ∃ i ∈ is, v.table d i = some y) E v
  | [], v, _, h, hd => ⟨h, hd.dir, Kept.refl _ _ _, fun y => by simp⟩
  | i :: is, v, hnodup, h, hd => by
    unfold freeTables
    simp only [wp_bind, wp_get]
    have hnodup' := (nodup_cons.1 hnodup).2
    split_ifs with hp
    swap
    · have ht : v.table d i = none := by simp [Mem.table, hp]
      refine wp_mono (freeTables_spec is v hnodup' h hd.tail) ?_
      rintro _ v' ⟨hown, hdir, hkept, hfree⟩
      exact ⟨hown, hdir, hkept, fun y => by rw [hfree y]; simp [ht]⟩
    have ht : v.table d i = some (frame (v.word d i)) := by rw [Mem.table, if_pos hp]
    obtain ⟨hloose, hne⟩ := hd.table i mem_cons_self _ ht
    have hsame : ∀ j, (v.put (frame (v.word d i))).table d j = v.table d j := fun j =>
      table_congr (congrFun (fill_word_ne _ hne.symm) j)
    rw [wp_bind, wp_kfree (P.usable _ hloose.pool)]
    refine wp_mono (freeTables_spec is _ hnodup' (h.put hloose) (hd.put hnodup ht)) ?_
    rintro _ v' ⟨hown, hdir, hkept, hfree⟩
    refine ⟨hown, hdir, hloose.kept_put.trans hkept, fun y => ?_⟩
    rw [hfree y]
    simp only [hsame, exists_mem_cons_iff, ht, Option.some.injEq]
    rw [show (v.put (frame (v.word d i))).freelist = frame (v.word d i) :: v.freelist from rfl,
      mem_cons, or_comm (a := y = _), or_assoc, eq_comm (a := y)]

/-- `freevm` gives up the address space of `a`. It frees the directory, its tables and the frames
of the pages below `KERNBASE`. -/
theorem freevm_spec [DecidableEq A] (h : Own P O v) (ha : O.roots a = some d) :
    wp (freevm K d) (fun _ v' => Own P (O.dropRoot a) v' ∧ Kept (O.dropRoot a) ∅ v v' ∧
      ∀ y, y ∈ v'.freelist ↔ y ∈ v.freelist ∨ y = d ∨
        (∃ i < NPTENTRIES, v.table d i = some y) ∨ ∃ m < KERNPAGE, v.mapped d m = some y) E v := by
  unfold freevm
  generalize his : List.range NPTENTRIES = is
  have hmem : ∀ i, i ∈ is ↔ i < NPTENTRIES := fun i => his ▸ mem_range
  have hnodup : is.Nodup := his ▸ nodup_range
  have hup : pageUp KERNBASE = KERNPAGE := by decide
  unfold deallocuvm
  rw [if_neg (by decide), hup, show pageUp 0 = 0 by decide, bind_assoc]
  refine wp_seq (deallocLoop_undone ha le_rfl KERNPAGE 0 v h (by omega)) ?_
  rintro _ v1 ⟨-, hundone⟩
  have hu := hundone (.inl rfl)
  have hkept : Kept (O.dropRoot a) ∅ v v1 :=
    hu.kept.among (among_dropRoot O a) fun a' d' ha' _ => (dropRoot_roots ha').1
  have hdoomed : Doomed P (O.dropRoot a) d is v1 := by
    refine ⟨hu.own.loose_dropRoot (.inl rfl) ha, fun i hi t ht => ?_,
      fun i hi j hj t ht ht' => ?_⟩
    · have hi' := (hmem i).1 hi
      exact ⟨hu.own.loose_dropRoot (.inr ⟨i, rfl⟩) ((page_table ha hi').trans ht),
        hu.own.table_ne_dir ha hi' ht ha⟩
    · exact (hu.own.table_inj ha ((hmem i).1 hi) ht ha ((hmem j).1 hj) ht').2
  simp only [pure_bind]
  refine wp_seq (freeTables_spec is v1 hnodup (hu.own.among (among_dropRoot O a)) hdoomed) ?_
  rintro _ v2 ⟨hown2, hd2, hkept2, hfree⟩
  rw [wp_kfree (P.usable _ hd2.pool)]
  refine ⟨hown2.put hd2, (hkept.trans hkept2).trans hd2.kept_put, fun y => ?_⟩
  rw [show (v2.put d).freelist = d :: v2.freelist from rfl, mem_cons, hfree y, hu.free y]
  have htables : (∃ i ∈ is, v1.table d i = some y) ↔ ∃ i < NPTENTRIES, v.table d i = some y :=
    exists_congr fun i => by
      rw [hmem i]
      exact and_congr_right fun hi => by rw [hu.table i hi]
  rw [htables]
  simp only [Nat.zero_le, true_and]
  rw [or_assoc, or_left_comm, or_comm (a := ∃ m < KERNPAGE, v.mapped d m = some y)]

theorem among_dropRoot_addRoot [DecidableEq A] (O : Owners A B) (d : ℕ) :
    Among O ((O.addRoot d).dropRoot none) some id :=
  ⟨fun _ _ => id, fun _ _ => id, fun _ _ _ _ _ => Option.some.inj, fun _ _ _ _ _ => id⟩

/-- `freevm` of a new address space leaves the others. -/
theorem freevm_new {v0 : Mem} (h : Own P (O.addRoot d) v) (hkept : Kept O ∅ v0 v) :
    wp (freevm K d) (fun _ v' => Own P O v' ∧ Kept O ∅ v0 v') E v := by
  classical
  refine wp_mono (freevm_spec (a := none) h rfl) ?_
  rintro - v' ⟨hown, hkept', -⟩
  exact ⟨hown.among (among_dropRoot_addRoot O d),
    hkept.trans (hkept'.among (among_dropRoot_addRoot O d) (by simp))⟩

end Xv6.Vm
