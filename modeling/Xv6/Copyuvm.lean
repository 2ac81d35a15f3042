import Xv6.Growproc

/-!
# Copying an address space

What becomes of each page in `copyuvm`, and so in `fork`. Beside the 65 pages of `setupkvm`,
`copyuvm` takes a page for each page it copies and a table for each 1024 of them. If it runs out
of pages `freevm` gives back what is mapped, but the page that was to be mapped is lost if it is
the table that is missing.
-/

open Ownership (Exclusive)
open Prog List

namespace Xv6.Vm

/-! ## `copyuvm` -/

/-- The pages that a copy of `n` pages takes, with its tables. -/
def copyCost (n : ℕ) : ℕ :=
  n + (n + (NPTENTRIES - 1)) / NPTENTRIES

theorem copyCost_succ (n : ℕ) :
    copyCost (n + 1) = copyCost n + 1 + if PTX n = 0 then 1 else 0 := by
  by_cases h0 : PTX n = 0
  · rw [if_pos h0]
    simp only [copyCost, PTX, NPTENTRIES] at *
    omega
  · rw [if_neg h0]
    simp only [copyCost, PTX, NPTENTRIES] at *
    omega

section

variable {K : Link} {P : Pool K} {A B : Type} {O : Owners A B} {v0 v v1 v' : Mem}
  {a b : A} {d d' n m N x : ℕ} {ok : Bool} {E : Stop → Mem → Prop}

/-- The flags of page `m` of the address space that is copied. -/
def copyPerm (v0 : Mem) (d m : ℕ) : UInt32 :=
  flags (v0.pte d m)

/-- The words of page `m` of the address space that is copied. -/
def copyPage (v0 : Mem) (d m : ℕ) : ℕ → UInt32 :=
  v0.word (frame (v0.pte d m))

/-- The first `n` pages of `d` are being copied to `d'`. -/
abbrev Copying (P : Pool K) (O : Owners A B) (a : A) (d d' n : ℕ) (ok : Bool) (v0 v : Mem) : Prop :=
  Filling P O a d' (copyPerm v0 d) (copyPage v0 d) 0 n ok v0 v

/-- The table for the next page is there unless the page is the first of its table. -/
theorem Filling.table_none_iff {perm : ℕ → UInt32} {c : ℕ → ℕ → UInt32}
    (hf : Filling P O a d perm c 0 n true v0 v) (hn : n < KERNPAGE)
    (htable : ∀ i < PDX KERNPAGE, v0.table d i = none) :
    v.table d (PDX n) = none ↔ PTX n = 0 := by
  have hlt : PDX n < PDX KERNPAGE := by
    simp only [PDX, KERNPAGE, NPTENTRIES] at *
    omega
  constructor
  · intro hnone
    by_contra h0
    have hpdx : PDX n = PDX (n - 1) := by
      simp only [PDX, PTX, NPTENTRIES] at *
      omega
    have hn0 : 0 < n := Nat.pos_of_ne_zero fun h => h0 (by rw [h]; rfl)
    rw [hpdx] at hnone
    exact table_ne_none (hf.full rfl (n - 1) (Nat.zero_le _) (by omega)) hnone
  · intro h0
    rw [hf.table _ (PDX_lt (lt_npages hn)), htable _ hlt]
    intro m _ hm
    simp only [PDX, PTX, NPTENTRIES] at *
    omega

/-- The loop of `copyuvm` copies `N` pages. If it ends early, the free pages were as many as `k`
of the pages need, or one more for a page that has no table then, and that page is lost. -/
theorem copyLoop_copying (ha : O.roots a = some d') (hb : O.roots b = some d) (hab : b ≠ a)
    (hN : N ≤ KERNPAGE) (hp : ∀ m < N, present (v0.pte d m) = true)
    (hnew : ∀ m < N, present (v0.pte d' m) = false)
    (htable : ∀ i < PDX KERNPAGE, v0.table d' i = none) (hown0 : Own P O v0) :
    ∀ (count n : ℕ) (v : Mem), Copying P O a d d' n true v0 v → n + count = N →
      wp (copyLoop d d' count n) (fun r v' =>
        if r then Copying P O a d d' N true v0 v' ∧ (v.fails = [] →
          v.freelist.length + copyCost n = v'.freelist.length + copyCost N)
        else ∃ k < N, ∃ hi ≤ N, ∃ ok, Copying P O a d d' hi ok v0 v' ∧ (v.fails = [] →
          (ok = false → PTX k = 0) ∧
          v.freelist.length + copyCost n = copyCost k + if ok then 0 else 1)) E v
  | 0, n, v, hf, hcount => by
    obtain rfl : n = N := hcount
    exact ⟨hf, fun _ => rfl⟩
  | count + 1, n, v, hf, hcount => by
    have hnN : n < N := by omega
    have hn : n < KERNPAGE := by omega
    have hview : SameView v0 v d := hf.grew.kept.view b d hab hb
    have hpte : v.pte d n = v0.pte d n := hview.pte n (lt_npages hn)
    unfold copyLoop
    rw [wp_bind, wp_walkpgdir_false]
    cases ht : v.table d (PDX n) with
    | none =>
      refine absurd ht (table_ne_none ?_)
      rw [hpte, hp n hnN]
    | some t =>
      simp only [Option.map_some, wp_bind, wp_get]
      rw [← pte_of_table ht, hpte, hp n hnN, if_neg (by simp)]
      refine wp_seq (wp_always (kalloc_spec hf.grew.own) silent_kalloc) ?_
      rintro r v1 ⟨⟨hw, hown, hr⟩, hsil⟩
      cases r with
      | none =>
        refine ⟨n, hnN, n, hnN.le, true, hf.of_word_eq hown hw hr.1, fun hfails => ⟨by simp, ?_⟩⟩
        rw [hr.2 hfails]
        simp
      | some x =>
        obtain ⟨hx, hl⟩ := hr
        simp only [wp_bind, wp_modify]
        have hword : v1.word (frame (v0.pte d n)) = copyPage v0 d n := by
          rw [hw]
          exact hown0.frame_word hf.grew ha hb hn (mapped_of_present (hp n hnN))
        have hlen : v.freelist.length = v1.freelist.length + 1 := by rw [hl, length_cons]
        have hp2 : present ((v1.fill x (copyPage v0 d n)).pte d' n) = false := by
          rw [((hx.kept_fill _).view a d' id ha).pte n (lt_npages hn),
            (SameView.of_word_eq hw d').pte n (lt_npages hn), hf.pte n (lt_npages hn) (by omega)]
          exact hnew n hnN
        rw [hword]
        refine wp_mono (wp_always (wp_and
          (hf.map _ ha (Nat.zero_le n) hn (hnew n hnN) (flags_lt _) hown hw hx hl)
          (mapUser_spec (hx.own_fill hown _) ha hn (hx.fill _) (flags_lt _) (.inr hp2)))
          (silent_mappages ..)) ?_
        rintro ok v2 ⟨⟨⟨hf2, hlen2⟩, -, -, -, -, -, hno⟩, hsil2⟩
        rw [Bool.true_and] at hf2
        cases ok with
        | false =>
          obtain ⟨-, -, hnone, hempty⟩ := hno
          refine ⟨n, hnN, n + 1, hnN, false, hf2, fun hfails => ⟨fun _ => ?_, ?_⟩⟩
          · refine (hf.table_none_iff hn htable).1 ?_
            rw [← hnone, ((hx.kept_fill _).view a d' id ha).table _ (PDX_lt (lt_npages hn))]
            exact (table_congr (by rw [hw])).symm
          · have := hempty (hsil.fails hfails)
            rw [fill_freelist] at this
            rw [hlen, this]
            simp only [length_nil, Bool.false_eq_true, if_false]
            omega
        | true =>
          rw [if_pos rfl] at hlen2
          simp only [hf.table_none_iff hn htable] at hlen2
          refine wp_mono (copyLoop_copying ha hb hab hN hp hnew htable hown0 count (n + 1) v2 hf2
            (by omega)) ?_
          have hcost : v.freelist.length + copyCost n = v2.freelist.length + copyCost (n + 1) := by
            rw [copyCost_succ]
            omega
          rintro r v3 hr
          rw [hcost]
          cases r with
          | true => exact ⟨hr.1, fun hfails => hr.2 (hsil2.fails (hsil.fails hfails))⟩
          | false =>
            obtain ⟨k, hk, hi, hhi, ok, hf3, hrest⟩ := hr
            exact ⟨k, hk, hi, hhi, ok, hf3, fun hfails => hrest (hsil2.fails (hsil.fails hfails))⟩

/-! ## What `copyuvm` leaves -/

/-- The first `N` pages of the address space `d` have a copy in `d'`, a new address space. -/
structure Copied (P : Pool K) (O : Owners A B) (d d' N : ℕ) (v v' : Mem) : Prop where
  own : Own P (O.addRoot d') v'
  dir : d' ∈ v.freelist
  page : ∀ m < N, ∃ x ∈ v.freelist, v'.mapped d' m = some x ∧
    flags (v'.pte d' m) = flags (v.pte d m) ∧ v'.word x = v.word (frame (v.pte d m))
  rest : ∀ m, N ≤ m → m < KERNPAGE → present (v'.pte d' m) = false
  view : SameView v v' d
  parent : ∀ m < KERNPAGE, present (v.pte d m) = true → SamePage v v' d m

theorem flags_entry (hx : x < NPAGES) {w : UInt32} (hw : present w = true) :
    flags (entry x (flags w)) = flags w := by
  have hmod : ∀ u : UInt32, (flags u).toNat = u.toNat % 4096 := fun u => by
    rw [flags, UInt32.toNat_and]
    exact Nat.and_two_pow_sub_one_eq_mod u.toNat 12
  have hodd : w.toNat % 2 = 1 := by
    rw [present_eq, Nat.testBit_zero] at hw
    simpa using hw
  have hbit : (flags w).toNat ||| 1 = (flags w).toNat := by
    refine Nat.eq_of_testBit_eq fun i => ?_
    rw [Nat.testBit_or]
    cases i with
    | zero =>
      have : (flags w).toNat % 2 = 1 := by rw [hmod]; omega
      simp [Nat.testBit_zero, this]
    | succ i => simp [Nat.testBit_succ]
  have hlt := flags_lt w
  rw [← UInt32.toNat_inj, hmod, entry_toNat hx hlt, hbit]
  simp only [PGSIZE] at hlt
  omega

/-- The free pages `F` suffice for the copy of `N` pages, or `copyuvm` runs out of them at a point
where it can give back what it took. -/
def CopyFits (F N : ℕ) : Prop :=
  F = 0 ∨ 65 ≤ F ∧ ∀ k < N, PTX k = 0 → F ≠ 65 + copyCost k + 1

theorem copyCost_ne {k j : ℕ} (hj : PTX j = 0) : copyCost k ≠ copyCost j + 1 := by
  simp only [copyCost, PTX, NPTENTRIES] at *
  omega

theorem copyCost_lt {k j : ℕ} (h : k < j) :
    copyCost k + 1 < copyCost j + if PTX k = 0 then 0 else 1 := by
  by_cases h0 : PTX k = 0
  · rw [if_pos h0]
    simp only [copyCost, PTX, NPTENTRIES] at *
    omega
  · rw [if_neg h0]
    simp only [copyCost, PTX, NPTENTRIES] at *
    omega

/-- The pages of a copy that is given up were free before `setupkvm`, and every page that was
free is one of them, if none was lost. -/
theorem SetUp.freed {hi y : ℕ} (hs : SetUp P O d' v v1)
    (hf : Copying P (O.addRoot d') none d d' hi true v1 v') (hhi : hi ≤ KERNPAGE) :
    (y ∈ v'.freelist ∨ y = d' ∨ (∃ i < NPTENTRIES, v'.table d' i = some y) ∨
      ∃ m < KERNPAGE, v'.mapped d' m = some y) ↔ y ∈ v.freelist := by
  constructor
  · rintro (hy | rfl | ⟨i, hi, ht⟩ | ⟨m, hm, hmapped⟩)
    · exact hs.suffix.mem (hf.grew.suffix.mem hy)
    · exact hs.mem
    · rcases hf.grew.table i hi with heq | ⟨-, t, ht', hsome⟩
      · exact hs.table i hi y (heq ▸ ht)
      · obtain rfl := Option.some.inj (ht.symm.trans hsome)
        exact hs.suffix.mem ht'
    · by_cases hmi : m < hi
      · obtain ⟨x, hx, hx', -⟩ := hf.page m (Nat.zero_le m) hmi (hf.full rfl m (Nat.zero_le m) hmi)
        obtain rfl := Option.some.inj (hmapped.symm.trans hx')
        exact hs.suffix.mem hx
      · refine absurd hmapped (not_mapped ?_)
        rw [hf.pte m (lt_npages hm) (by omega), hs.user m hm, present_zero]
  · intro hy
    rcases hs.free y hy with hfree | rfl | ⟨i, hi, ht⟩
    · rcases hf.free rfl y hfree with hfree | ⟨i, hi, -, ht⟩ | ⟨m, -, hm, hmapped⟩
      · exact .inl hfree
      · exact .inr (.inr (.inl ⟨i, hi, ht⟩))
      · exact .inr (.inr (.inr ⟨m, by omega, hmapped⟩))
    · exact .inr (.inl rfl)
    · exact .inr (.inr (.inl ⟨i, hi, hf.grew.table_some hi ht⟩))

/-- The copy as it is with respect to the memory before `setupkvm`. -/
theorem SetUp.copied (hs : SetUp P O d' v v1) (hkept : Kept O ∅ v v1) (h : Own P O v)
    (hb : O.roots b = some d) (hN : N ≤ KERNPAGE) (hp : ∀ m < N, present (v.pte d m) = true)
    (hf : Copying P (O.addRoot d') none d d' N true v1 v') : Copied P O d d' N v v' := by
  have hb' : (O.addRoot d').roots (some b) = some d := hb
  have hview1 : SameView v v1 d := hkept.view b d id hb
  have hview : SameView v1 v' d := hf.grew.kept.view (some b) d (Option.some_ne_none b) hb'
  have hpte1 : ∀ m < KERNPAGE, v1.pte d m = v.pte d m := fun m hm => hview1.pte m (lt_npages hm)
  have hword1 : ∀ m < KERNPAGE, present (v.pte d m) = true →
      v1.word (frame (v.pte d m)) = v.word (frame (v.pte d m)) := fun m hm hpm =>
    hs.word _ (h.not_free (.frame b m) _ ((page_frame hb hm).trans (mapped_of_present hpm)))
  refine ⟨hf.grew.own, hs.mem, fun m hm => ?_, fun m hm hm' => ?_, hview1.trans hview,
    fun m hm hpm => ⟨?_, ?_⟩⟩
  · have hmK : m < KERNPAGE := by omega
    obtain ⟨x, hx, hmapped, hpte, hword⟩ := hf.page m (Nat.zero_le m) hm
      (hf.full rfl m (Nat.zero_le m) hm)
    have hxN : x < NPAGES := by
      have hpool := P.usable x (h.pool_free x (hs.suffix.mem hx))
      simp only [PHYSTOP, NPAGES] at *
      omega
    refine ⟨x, hs.suffix.mem hx, hmapped, ?_, ?_⟩
    · rw [hpte, copyPerm, hpte1 m hmK, flags_entry hxN (hp m hm)]
    · rw [hword, copyPage, hpte1 m hmK, hword1 m hmK (hp m hm)]
  · rw [hf.pte m (lt_npages hm') (by omega), hs.user m hm', present_zero]
  · exact (hview.pte m (lt_npages hm)).trans (hpte1 m hm)
  · have hpm1 : present (v1.pte d m) = true := by rw [hpte1 m hm, hpm]
    have hword := hs.own.frame_word hf.grew rfl hb' hm (mapped_of_present hpm1)
    rw [hpte1 m hm] at hword
    exact hword.trans (hword1 m hm hpm)

/-- `copyuvm` makes a copy if there are pages enough. Otherwise it gives back the pages that it
took, or loses some. -/
theorem copyuvm_copied (h : Own P O v) (hb : O.roots b = some d) {sz : UInt32}
    (hN : pageUp sz ≤ KERNPAGE) (hp : ∀ m < pageUp sz, present (v.pte d m) = true)
    (hfails : v.fails = []) :
    wp (copyuvm K d sz) (fun r v' => Own P O v' ∧
      match r with
      | none => v.freelist.length < 65 + copyCost (pageUp sz) ∧
          ((∀ y, y ∈ v'.freelist ↔ y ∈ v.freelist) ↔ CopyFits v.freelist.length (pageUp sz))
      | some d' => 65 + copyCost (pageUp sz) ≤ v.freelist.length ∧
          Copied P O d d' (pageUp sz) v v') E v := by
  classical
  unfold copyuvm
  refine wp_seq (wp_always (setupkvm_spec h) silent_setupkvm) ?_
  rintro r v1 ⟨⟨hown, hkept, hsuf, hr⟩, hsil⟩
  cases r with
  | none =>
    obtain ⟨hlen, hlost⟩ := hr hfails
    refine ⟨hown, by omega, fun hsame => ?_, fun hfit => ?_⟩
    · refine .inl (length_eq_zero_iff.2 ?_)
      by_contra hne
      obtain ⟨y, hy, hloose⟩ := hlost hne
      exact hloose.not_free ((hsame y).2 hy)
    · rcases hfit with h0 | ⟨h65, -⟩
      · have hnil := length_eq_zero_iff.1 h0
        rw [hnil] at hsuf
        rw [suffix_nil.1 hsuf, hnil]
        exact fun _ => Iff.rfl
      · omega
  | some d' =>
    have hs : SetUp P O d' v v1 := hr
    have hb' : (O.addRoot d').roots (some b) = some d := hb
    have hview1 : SameView v v1 d := hkept.view b d id hb
    have hlen := hs.length hfails
    refine wp_seq (copyLoop_copying (a := none) rfl hb' (Option.some_ne_none b) hN
      (fun m hm => ?_) (fun m hm => ?_) (fun i hi => ?_) hs.own (pageUp sz) 0 v1
      (Filling.start hs.own) (Nat.zero_add _)) ?_
    · rw [hview1.pte m (lt_npages (by omega)), hp m hm]
    · rw [hs.user m (by omega), present_zero]
    · have hi' : i < 512 := hi
      refine hs.rest i (by simp only [NPTENTRIES]; omega) ?_
      simp only [kernTables, Finset.mem_union, Finset.mem_Ico]
      omega
    rintro r v2 hr
    have hcost0 : copyCost 0 = 0 := rfl
    cases r with
    | true =>
      rw [if_pos rfl] at hr
      obtain ⟨hf, hcost⟩ := hr
      have hcost := hcost (hsil.fails hfails)
      exact ⟨hf.grew.own.among (among_addRoot O d'), by omega, hs.copied hkept h hb hN hp hf⟩
    | false =>
      rw [if_neg Bool.false_ne_true] at hr
      obtain ⟨k, hk, hi, hhi, ok, hf, hcost⟩ := hr
      obtain ⟨hk0, hcost⟩ := hcost (hsil.fails hfails)
      refine wp_seq (freevm_spec (a := none) hf.grew.own rfl) ?_
      rintro _ v3 ⟨hown3, -, hfree⟩
      have hlt := copyCost_lt hk
      refine ⟨hown3.among (among_dropRoot_addRoot O d'), ?_, ?_⟩
      · cases ok with
        | true =>
          simp only [if_true] at hcost
          split_ifs at hlt <;> omega
        | false =>
          rw [if_pos (hk0 rfl)] at hlt
          simp only [Bool.false_eq_true, if_false] at hcost
          omega
      cases ok with
      | true =>
        refine iff_of_true (fun y => (hfree y).trans (hs.freed hf (by omega)))
          (.inr ⟨by omega, fun j _ hj he => ?_⟩)
        simp only [if_true] at hcost
        exact copyCost_ne (k := k) hj (by omega)
      | false =>
        refine iff_of_false (fun hsame => ?_) ?_
        · obtain ⟨y, hy, hloose⟩ := hf.lost rfl
          rcases (hfree y).1 ((hsame y).2 (hs.suffix.mem hy)) with
            hy' | rfl | ⟨i, hi, ht⟩ | ⟨m, hm, hmapped⟩
          · exact hloose.not_free hy'
          · exact hloose.not_held (.dir none) rfl
          · exact hloose.not_held (.table none i) ((page_table rfl hi).trans ht)
          · exact hloose.not_held (.frame none m) ((page_frame rfl hm).trans hmapped)
        · simp only [Bool.false_eq_true, if_false] at hcost
          rintro (h0 | ⟨-, hno⟩)
          · omega
          · exact hno k hk (hk0 rfl) (by omega)

/-- `copyuvm` copies an address space if there are pages for the pages, their tables and the 65
pages of the kernel's part. No frame is in both. -/
theorem copyuvm_copies (h : Own P O v) (hb : O.roots b = some d) {sz : UInt32}
    (hp : ∀ m < pageUp sz, present (v.pte d m) = true) (hfails : v.fails = [])
    (henough : 65 + copyCost (pageUp sz) ≤ v.freelist.length) :
    ∃ d' v', copyuvm K d sz v = .ok (some d') v' ∧ Copied P O d d' (pageUp sz) v v' ∧
      ∀ m < KERNPAGE, ∀ m' < KERNPAGE, ∀ x, v'.mapped d m = some x → v'.mapped d' m' ≠ some x := by
  have hN : pageUp sz ≤ KERNPAGE := (h.pages_le hb fun m _ hm => hp m hm).trans (by decide)
  obtain ⟨r, v', hrun, -, hr⟩ := exists_ok_of_wp (copyuvm_copied h hb hN hp hfails)
  cases r with
  | none => exact absurd hr.1 (Nat.not_lt.2 henough)
  | some d' =>
    refine ⟨d', v', hrun, hr.2, fun m hm m' hm' x hx hx' => ?_⟩
    have hb' : (O.addRoot d').roots (some b) = some d := hb
    have he := hr.2.own.inj (.frame (some b) m) (.frame none m') x ((page_frame hb' hm).trans hx)
      ((page_frame rfl hm').trans hx')
    cases he

end

theorem present_onePage {l : List ℕ} (hnodup : l.Nodup)
    (hpool : ∀ x ∈ l, 0x403 ≤ x ∧ x < PHYSTOP) :
    ∀ m < pageUp 4096, present ((onePage l).pte 0x400 m) = true := by
  intro m hm
  have hm' : m < 1 := hm
  exact (sized_onePage hnodup hpool m (hm'.trans (by decide))).2 hm

theorem freePages_ok {n : ℕ} (hn : n ≤ 100) :
    ∀ x ∈ List.range' 0x403 n, 0x403 ≤ x ∧ x < PHYSTOP := by
  intro x hx
  have h := mem_range'_1.1 hx
  simp only [PHYSTOP]
  omega

/-- A process of one page and 67 free pages. -/
theorem copyuvm_copies_onePage :
    ∃ d' v', copyuvm smallKernel 0x400 4096 (onePage (List.range' 0x403 67)) = .ok (some d') v' ∧
      Copied (Pool.all smallKernel) (Owners.empty.addRoot 0x400) 0x400 d' (pageUp 4096)
        (onePage (List.range' 0x403 67)) v' ∧
      ∀ m < KERNPAGE, ∀ m' < KERNPAGE, ∀ x, v'.mapped 0x400 m = some x →
        v'.mapped d' m' ≠ some x := by
  have hnodup := nodup_range' (s := 0x403) (n := 67)
  have hpool := freePages_ok (n := 67) (by decide)
  refine copyuvm_copies (b := none) (own_onePage hnodup hpool).1 rfl
    (present_onePage hnodup hpool) rfl ?_
  · rw [show (onePage (List.range' 0x403 67)).freelist = List.range' 0x403 67 from rfl,
      length_range']
    decide

/-! ## `fork` -/

/-- The numbers of free pages with which a `fork` of a process of `N` pages loses none. -/
def ForkFits (F N : ℕ) : Prop :=
  F ≤ 1 ∨ 66 ≤ F ∧ ∀ k, NPTENTRIES * k < N → F ≠ 67 + (NPTENTRIES + 1) * k

theorem forkFits_succ {F N : ℕ} : ForkFits (F + 1) N ↔ CopyFits F N := by
  have hcost : ∀ k, PTX k = 0 → copyCost k = (NPTENTRIES + 1) * (k / NPTENTRIES) := fun k hk => by
    simp only [copyCost, PTX, NPTENTRIES] at *
    omega
  refine or_congr (by omega) (and_congr (by omega) ⟨fun h k hk h0 he => ?_, fun h k hk he => ?_⟩)
  · refine h (k / NPTENTRIES) ?_ ?_
    · simp only [PTX, NPTENTRIES] at *
      omega
    · rw [← hcost k h0]
      omega
  · have h0 : PTX (NPTENTRIES * k) = 0 := Nat.mul_mod_right _ _
    refine h _ hk h0 ?_
    rw [hcost _ h0, Nat.mul_div_cancel_left k (by decide)]
    omega

theorem forkFits_of_le {F N : ℕ} (h : 66 + copyCost N ≤ F) : ForkFits F N := by
  refine .inr ⟨by omega, fun k hk he => ?_⟩
  simp only [copyCost, NPTENTRIES] at *
  omega

section

variable {K : Link} {P : Pool K} {A B : Type} {O : Owners A B} {v v' : Mem}
  {b : A} {d : ℕ} {E : Stop → Mem → Prop} {sz : UInt32}

/-- What `fork` takes, and what it gives back when it fails. -/
theorem forkPages_spec (h : Own P O v) (hb : O.roots b = some d)
    (hp : ∀ m < pageUp sz, present (v.pte d m) = true) (hfails : v.fails = []) :
    wp (forkPages K d sz) (fun r v' =>
      match r with
      | none => Own P O v' ∧ v.freelist.length < 66 + copyCost (pageUp sz) ∧
          ((∀ y, y ∈ v'.freelist ↔ y ∈ v.freelist) ↔ ForkFits v.freelist.length (pageUp sz))
      | some _ => 66 + copyCost (pageUp sz) ≤ v.freelist.length) E v := by
  have hN : pageUp sz ≤ KERNPAGE := (h.pages_le hb fun m _ hm => hp m hm).trans (by decide)
  unfold forkPages
  refine wp_seq (wp_always (kalloc_spec h) silent_kalloc) ?_
  rintro r v1 ⟨⟨hw, hown, hr⟩, hsil⟩
  cases r with
  | none =>
    have hnil := hr.2 hfails
    refine ⟨hown, by rw [hnil, length_nil]; omega, iff_of_true (fun y => by rw [hr.1]) ?_⟩
    exact .inl (by rw [hnil, length_nil]; omega)
  | some x =>
    obtain ⟨hx, hl⟩ := hr
    have hlen : v.freelist.length = v1.freelist.length + 1 := by rw [hl, length_cons]
    have hpte : ∀ m < pageUp sz, present (v1.pte d m) = true := fun m hm => by
      rw [(SameView.of_word_eq hw d).pte m (lt_npages (by omega)), hp m hm]
    refine wp_seq (copyuvm_copied (hown.hold hx) hb hN hpte (hsil.fails hfails)) ?_
    rintro r v2 ⟨hown2, hr⟩
    cases r with
    | some d' => exact (by omega : 66 + copyCost (pageUp sz) ≤ v.freelist.length)
    | none =>
      obtain ⟨hlt, hfits⟩ := hr
      have hx2 : x ∉ v2.freelist := hown2.not_free (.other none) x rfl
      have hloose : Loose P O v2 x := by
        refine ⟨hx2, fun r hr => ?_, hx.pool⟩
        have he := hown2.inj _ (.other none) x ((among_hold O x).page hr) rfl
        cases r <;> cases he
      have hown2' : Own P O v2 := hown2.among (among_hold O x)
      rw [wp_bind, wp_kfree (P.usable x hx.pool)]
      refine ⟨hown2'.put hloose, by omega, ?_⟩
      rw [hlen, forkFits_succ, ← hfits]
      rw [show (v2.put x).freelist = x :: v2.freelist from rfl, hl]
      refine ⟨fun hsame y => ?_, fun hsame y => ?_⟩
      · have hy := hsame y
        rw [mem_cons, mem_cons] at hy
        by_cases he : y = x
        · subst he
          exact iff_of_false hx2 hx.not_free
        · simpa [he] using hy
      · rw [mem_cons, mem_cons, hsame y]

/-- A `fork` takes a step, and if it fails it leaves the free pages as they were unless their
number is one of those at which it loses some. -/
theorem fork_leakless_iff {s : State} {p q : Ptable.Slot} {x : Proc} (h : Own P O s.mem)
    (hb : O.roots b = some x.pgdir)
    (hpages : ∀ m < pageUp x.sz, present (s.mem.pte x.pgdir m) = true)
    (hp : s.proc p = some x) (hzombie : x.zombie = false) (hq : s.proc q = none) :
    ∃ s', step K s (.fork p q []) = some s' ∧
      (s'.proc q = none → Own P O s'.mem) ∧
      ((s'.proc q = none → ∀ y, y ∈ s'.mem.freelist ↔ y ∈ s.mem.freelist) ↔
        ForkFits s.mem.freelist.length (pageUp x.sz)) := by
  have h' : Own P O { s.mem with fails := [] } := h
  obtain ⟨r, v', hrun, hr⟩ := exists_ok_of_wp (forkPages_spec h' hb hpages rfl)
  cases r with
  | none =>
    obtain ⟨hown, -, hfits⟩ := hr
    refine ⟨{ s with mem := v' }, by simp [step, hp, hq, hzombie, State.exec, hrun],
      fun _ => hown, ?_⟩
    exact ⟨fun hsame => hfits.1 (hsame hq), fun hfit _ => hfits.2 hfit⟩
  | some dk =>
    have hslot :
        ({ s with mem := v' }.setProc q (some ⟨dk.1, dk.2, x.sz, false⟩)).proc q ≠ none := by
      simp [State.setProc]
    exact ⟨_, by simp [step, hp, hq, hzombie, State.exec, hrun],
      fun hno => absurd hno hslot, iff_of_true (fun hno => absurd hno hslot) (forkFits_of_le hr)⟩

end

/-- A system with a process of one page and the free pages `l`. -/
def oneProc (l : List ℕ) : State :=
  ⟨onePage l, 0, [], Function.update (fun _ => none) Ptable.initproc
    (some ⟨0x400, 0, 4096, false⟩), fun _ => none⟩

theorem oneProc_child (l : List ℕ) : (oneProc l).proc 1 = none := by
  simp [oneProc]
  decide

/-- With fewer pages than it takes `fork` fails, and no child is made. -/
theorem fork_oneProc_fails {l : List ℕ} (hnodup : l.Nodup)
    (hpool : ∀ x ∈ l, 0x403 ≤ x ∧ x < PHYSTOP) (hlen : l.length < 66 + copyCost (pageUp 4096)) :
    ∃ v', step smallKernel (oneProc l) (.fork Ptable.initproc 1 []) =
        some { oneProc l with mem := v' } ∧
      ((∀ y, y ∈ v'.freelist ↔ y ∈ l) ↔ ForkFits l.length (pageUp 4096)) := by
  obtain ⟨r, v', hrun, hr⟩ := exists_ok_of_wp (forkPages_spec (b := none)
    (own_onePage hnodup hpool).1 rfl (present_onePage hnodup hpool) rfl)
  cases r with
  | some dk => exact absurd hr (Nat.not_le.2 hlen)
  | none =>
    refine ⟨v', ?_, hr.2.2⟩
    have hp : (oneProc l).proc Ptable.initproc = some ⟨0x400, 0, 4096, false⟩ := by simp [oneProc]
    simp only [step, hp, oneProc_child, State.exec]
    rw [show ({ (oneProc l).mem with fails := [] } : Mem) = onePage l from rfl, hrun]
    rfl

/-- With two free pages `fork` fails, and one of them is lost. -/
theorem fork_loses_page :
    Own (Pool.all smallKernel) (Owners.empty.addRoot 0x400) (oneProc [0x403, 0x404]).mem ∧
      ∃ s', step smallKernel (oneProc [0x403, 0x404]) (.fork Ptable.initproc 1 []) = some s' ∧
        s'.proc 1 = none ∧
        ¬∀ y, y ∈ s'.mem.freelist ↔ y ∈ (oneProc [0x403, 0x404]).mem.freelist := by
  have hnodup : [0x403, 0x404].Nodup := by decide
  have hpool : ∀ x ∈ [0x403, 0x404], 0x403 ≤ x ∧ x < PHYSTOP := by decide
  obtain ⟨v', hs, hfits⟩ := fork_oneProc_fails hnodup hpool (by decide)
  refine ⟨(own_onePage hnodup hpool).1, _, hs, oneProc_child [0x403, 0x404], fun hsame => ?_⟩
  rcases hfits.1 hsame with h | ⟨h, -⟩
  · exact absurd h (by decide)
  · exact absurd h (by decide)

/-- With 66 free pages it fails as well, and none is lost. -/
theorem fork_leakless_iff_oneProc :
    ∃ s', step smallKernel (oneProc (List.range' 0x403 66)) (.fork Ptable.initproc 1 []) =
        some s' ∧ s'.proc 1 = none ∧
      Own (Pool.all smallKernel) (Owners.empty.addRoot 0x400) s'.mem ∧
      ∀ y, y ∈ s'.mem.freelist ↔ y ∈ (oneProc (List.range' 0x403 66)).mem.freelist := by
  have hnodup := nodup_range' (s := 0x403) (n := 66)
  have hpool := freePages_ok (n := 66) (by decide)
  obtain ⟨s', hs, hown, hfits⟩ := fork_leakless_iff (b := none) (x := ⟨0x400, 0, 4096, false⟩)
    (s := oneProc (List.range' 0x403 66)) (p := Ptable.initproc) (q := 1)
    (own_onePage hnodup hpool).1 rfl (present_onePage hnodup hpool) (by simp [oneProc]) rfl
    (oneProc_child _)
  have hlen : (List.range' 0x403 66).length = 66 := length_range'
  obtain ⟨v', hs', -⟩ := fork_oneProc_fails hnodup hpool (hlen ▸ by decide)
  obtain rfl := Option.some.inj (hs'.symm.trans hs)
  have hnone := oneProc_child (List.range' 0x403 66)
  refine ⟨_, hs, hnone, hown hnone, hfits.2 (.inr ⟨hlen.ge, fun k hk he => ?_⟩) hnone⟩
  have he' : 66 = 67 + 1025 * k := hlen.symm.trans he
  omega

end Xv6.Vm
