import Xv6.ExecImage
import Xv6.Freevm

/-!
# Runs of `exec`

`exec` from the page directory it makes to the one it gives up, stage by stage : the page directory
with the kernel part, the image, and the stack. A run fails for want of pages or because the file or
the arguments do not fit (`ExecFits`). Where the stages keep to what they own (`ExecSound`) the
outcomes are put together in one rule (`exec_rule`), which is all that is used of `exec` later on.
-/

open Layout Finset List
open Prog

namespace Xv6.Vm

section

variable {K : Link} {P : Pool K} {A B : Type} {O : Owners A B} {v0 v v' : Mem}
  {d k n x : ℕ} {perm : UInt32} {E : Stop → Mem → Prop}

/-! ## `setupkvm` -/

/-- The `k` pages that were taken from `v0` on are not free, and the next call of `kalloc` fails. -/
structure Starved (v0 : Mem) (k : ℕ) (v : Mem) : Prop where
  le : k ≤ v0.freelist.length
  freelist : v.freelist = v0.freelist.drop k
  fails : ¬Grants v0 (k + 1)

/-- `walkpgdir` fails for want of a page for the table. -/
theorem walkpgdir_starved (h : Drawn v0 k v) :
    wp (walkpgdir d n true) (fun r v' => r = none →
      Starved v0 k v' ∧ v'.table d (PDX n) = none) E v := by
  unfold walkpgdir
  simp only [wp_bind, wp_get]
  cases hp : present (v.word d (PDX n)) with
  | true => exact fun hr => absurd hr (by simp)
  | false =>
    have ht : v.table d (PDX n) = none := by simp [Mem.table, hp]
    simp only [Bool.false_eq_true, if_false, Bool.true_eq_false, wp_bind]
    refine wp_mono (wp_and kalloc_same (kalloc_drawn h)) ?_
    rintro r v1 ⟨hsame, hr, -⟩
    cases r with
    | none =>
      obtain ⟨hw, hl⟩ := hsame rfl
      refine fun _ => ⟨⟨h.grants.1, hl.trans h.freelist, fun hg => hr.2 hg rfl⟩, ?_⟩
      rw [table_congr (v := v) (by rw [hw]), ht]
    | some t => exact fun hr => absurd hr (by simp)

/-- `mappages` fails if `kalloc` does, and then for want of a page for a table. -/
theorem mappages_drew : ∀ (count n x k : ℕ) (v : Mem), Drawn v0 k v →
    wp (mappages d perm count n x) (fun r v' => (r = true → ∃ j, Drawn v0 j v') ∧
      (r = false → (∃ j, Starved v0 j v') ∧
        ∃ m, n ≤ m ∧ m < n + count ∧ v'.table d (PDX m) = none)) (fun _ _ => True) v
  | 0, _, _, k, v, hk => ⟨fun _ => ⟨k, hk⟩, by simp⟩
  | count + 1, n, x, k, v, hk => by
    unfold mappages
    refine wp_bind.2 (wp_mono (wp_and (walkpgdir_drawn hk) (walkpgdir_starved hk)) ?_)
    rintro r v1 ⟨⟨hnone, hsome⟩, hstarved⟩
    cases r with
    | none =>
      obtain ⟨hs, ht⟩ := hstarved rfl
      exact ⟨by simp, fun _ => ⟨⟨k, hs⟩, n, le_rfl, by omega, ht⟩⟩
    | some tj =>
      have hd : ∃ j, Drawn v0 j v1 := by
        by_cases ht : v.table d (PDX n) = none
        · exact ⟨_, (hnone ht).2 (by simp)⟩
        · exact ⟨_, (hsome ht).2⟩
      obtain ⟨j, hj⟩ := hd
      refine wp_bind.2 (wp_get.2 ?_)
      split_ifs
      · trivial
      · refine wp_bind.2 ((wp_modify _).2 (wp_mono (mappages_drew count (n + 1) (x + 1) j _
          (hj.congr rfl rfl)) fun r v2 hr => ⟨hr.1, fun hf => ?_⟩))
        obtain ⟨hs, m, hm, hm', ht⟩ := hr.2 hf
        exact ⟨hs, m, by omega, by omega, ht⟩

theorem mapAll_drew : ∀ (ks : List Kmap) (k : ℕ) (v : Mem), Drawn v0 k v →
    wp (mapAll d ks) (fun r v' => (r = true → ∃ j, Drawn v0 j v') ∧
      (r = false → (∃ j, Starved v0 j v') ∧
        ∃ q ∈ ks, ∃ m, q.virt ≤ m ∧ m < q.virt + q.size ∧ v'.table d (PDX m) = none))
      (fun _ _ => True) v
  | [], k, v, hk => ⟨fun _ => ⟨k, hk⟩, by simp⟩
  | q :: ks, k, v, hk => by
    unfold mapAll
    refine wp_seq (mappages_drew _ _ _ k v hk) fun r v1 h => ?_
    cases r with
    | false =>
      obtain ⟨hs, hm⟩ := h.2 rfl
      exact ⟨by simp, fun _ => ⟨hs, q, mem_cons_self, hm⟩⟩
    | true =>
      obtain ⟨j, hj⟩ := h.1 rfl
      refine wp_mono (mapAll_drew ks j v1 hj) fun r v2 hr => ⟨hr.1, fun hf => ?_⟩
      obtain ⟨hs, q', hq', hm⟩ := hr.2 hf
      exact ⟨hs, q', mem_cons_of_mem _ hq', hm⟩

theorem Tabled.length_lt {a : A} (h : Tabled P O a d kernTables v v') (hown : Own P O v)
    (hnone : ∀ i, v.table d i = none) (hn : n ∈ kernTables) (ht : v'.table d n = none) :
    v.freelist.length ≤ v'.freelist.length + 63 := by
  classical
  let t : ℕ → ℕ := fun i => (v'.table d i).getD 0
  have hsub : v.freelist.toFinset ⊆ v'.freelist.toFinset ∪ (kernTables.erase n).image t := by
    intro y hy
    rw [mem_toFinset] at hy
    rw [mem_union, mem_toFinset]
    rcases h.spent y hy with hfree | ⟨i, hi, -, hsome⟩
    · exact .inl hfree
    · have hk : i ∈ kernTables := by
        by_contra hk
        rw [h.rest i hi hk, hnone] at hsome
        cases hsome
      have hne : i ≠ n := by
        rintro rfl
        rw [ht] at hsome
        cases hsome
      exact .inr (mem_image.2 ⟨i, mem_erase.2 ⟨hne, hk⟩, by simp [t, hsome]⟩)
  have hcard := (card_le_card hsub).trans (card_union_le _ _)
  have himage : ((kernTables.erase n).image t).card ≤ 63 := by
    refine card_image_le.trans ?_
    rw [card_erase_of_mem hn, card_kernTables_eq]
  rw [toFinset_card_of_nodup hown.nodup, toFinset_card_of_nodup h.grew.own.nodup] at hcard
  omega

/-- `setupkvm` succeeds if 65 pages are granted. -/
theorem setupkvm_drew (h : Own P O v) :
    wp (setupkvm K) (fun r v' => (r ≠ none → ∃ j, Drawn v j v') ∧ (r = none → ¬Grants v 65))
      (fun _ _ => True) v := by
  unfold setupkvm
  refine wp_seq (wp_and (kalloc_spec h) (kalloc_drawn (Drawn.refl v))) ?_
  rintro r v1 ⟨⟨-, hown, hr⟩, hsome, hd⟩
  cases r with
  | none => exact ⟨by simp, fun _ hg => hsome.2 (hg.mono (by omega)) rfl⟩
  | some d =>
    obtain ⟨hd1, hl⟩ := hr
    have hzero : ∀ i, (v1.fill d fun _ => 0).word d i = 0 := fun i => by rw [fill_word_same]
    have hown1 : Own P (O.addRoot d) (v1.fill d fun _ => 0) :=
      (hd1.own_fill hown _).addRoot (hd1.fill _) hzero
    have htable : ∀ i, (v1.fill d fun _ => 0).table d i = none := fun i => by
      rw [Mem.table, hzero, present_zero]
      rfl
    refine wp_bind.2 ((wp_modify _).2 (wp_seq (wp_and (mapAll_drew _ _ _
      ((hd (by simp)).congr rfl rfl)) (mapAll_spec (a := none) kernTables_lt 0 rfl (kmap K) _ hown1
      kmap_ok kmap_disjoint fun _ _ m _ => pte_of_no_table (htable _))) ?_))
    rintro b v2 ⟨hdrew, htabled, -⟩
    cases b with
    | true => exact ⟨fun _ => hdrew.1 rfl, by simp⟩
    | false =>
      obtain ⟨⟨j, hs⟩, q, hq, m, hm, hm', ht⟩ := hdrew.2 rfl
      refine ⟨by simp, fun _ hg => hs.fails (hg.mono ?_)⟩
      have hlen := htabled.length_lt hown1 htable ((kmap_ok q hq).table m hm hm') ht
      rw [hs.freelist, length_drop, fill_freelist] at hlen
      have hlen1 := congrArg List.length hl
      rw [length_cons] at hlen1
      have := hs.le
      omega

theorem SetUp.card (hs : SetUp P O d v v') (h : Own P O v) :
    v.freelist.length = v'.freelist.length + 65 :=
  length_of_kern h hs.own hs.suffix hs.mem hs.kern hs.rest hs.table hs.free

theorem setupkvm_stage (h : Own P O v) :
    wp (setupkvm K) (fun r v' =>
      match r with
      | none => Own P O v' ∧ Kept O ∅ v v' ∧ ¬Grants v 65
      | some d => Stage P O d 0 (fun _ => 0) v v') E v := by
  refine wp_mono (wp_and_total (setupkvm_spec h) (setupkvm_drew h)) ?_
  rintro r v' ⟨⟨hown, hkept, -, hr⟩, hdrew, hstarved⟩
  cases r with
  | none => exact ⟨hown, hkept, hstarved rfl⟩
  | some d =>
    obtain ⟨j, hj⟩ := hdrew (by simp)
    have hcard := hr.card h
    have hlen := hj.grants.1
    rw [hj.freelist, length_drop] at hcard
    obtain rfl : j = 65 := by omega
    have hz : pageUp 0 = 0 := rfl
    refine ⟨⟨hr.own, hkept, hr.kern, nofun, fun m _ hm => hr.user m hm, fun i hi hk => ?_⟩, hj, ?_,
      fun _ _ => rfl, by decide⟩
    · rw [hz]
      simp [hr.rest i hi hk]
    · intro n hn
      rw [hz, Nat.zero_mul] at hn
      exact absurd hn (Nat.not_lt_zero n)

end

/-! ## The stack page and the page below it -/

/-- An image of `sz` bytes, the page below the stack page without user access. -/
structure Guarded {K : Link} (P : Pool K) {A B : Type} (O : Owners A B) (d : ℕ) (sz : UInt32)
    (v0 v : Mem) : Prop where
  own : Own P (O.addRoot d) v
  kept : Kept O ∅ v0 v
  kern : Kern K v d
  page : ∀ m < sz.toNat / PGSIZE, m ≠ sz.toNat / PGSIZE - 2 → UserPte (v.pte d m)
  guard : present (v.pte d (sz.toNat / PGSIZE - 2)) = true ∧
    user (v.pte d (sz.toNat / PGSIZE - 2)) = false
  rest : ∀ m, sz.toNat / PGSIZE ≤ m → m < KERNPAGE → v.pte d m = 0

/-- The size of the image with the stack page and the page below it. -/
def stackTop (sz : UInt32) : UInt32 :=
  UInt32.ofNat (pageUp sz * PGSIZE) + 2 * 4096

/-- The pages of the tables that `setupkvm` makes. -/
def KernPage (n : ℕ) : Prop :=
  PDX n ∈ kernTables

instance : DecidablePred KernPage := fun n =>
  inferInstanceAs (Decidable (PDX n ∈ kernTables))

section

variable {K : Link} {P : Pool K} {A B : Type} {O : Owners A B} {v0 v v' : Mem}
  {cur d m n N : ℕ} {c : ℕ → UInt8} {sz : UInt32} {argv : List (List UInt8)}
  {E : Stop → Mem → Prop}

theorem user_clear (w : UInt32) : user (w &&& ~~~PTE_U) = false := by
  rw [user_eq, clear_toNat, Nat.testBit_and, show Nat.testBit 4294967291 2 = false by decide,
    Bool.and_false]

theorem Guarded.failed (h : Guarded P O d sz v0 v) : Failed P O d v0 v :=
  ⟨h.own, h.kept⟩

theorem Guarded.present (h : Guarded P O d sz v0 v) (hm : m < sz.toNat / PGSIZE) :
    present (v.pte d m) = true := by
  by_cases hg : m = sz.toNat / PGSIZE - 2
  · rw [hg]
    exact h.guard.1
  · exact (h.page m hm hg).1

theorem Guarded.loaded (h : Guarded P O d sz v0 v) (hsz : sz < KERNBASE)
    (hal : sz.toNat % PGSIZE = 0) (htwo : 2 * PGSIZE ≤ sz.toNat) : Loaded v d sz := by
  have hlt : sz.toNat < 2 ^ 31 := UInt32.lt_iff_toNat_lt.1 hsz
  have hN : sz.toNat / PGSIZE < KERNPAGE ∧ 2 ≤ sz.toNat / PGSIZE := by
    simp only [PGSIZE, KERNPAGE] at *
    omega
  refine ⟨h.own.apart (a := none) rfl h.kern, hal, htwo, fun n hn => table_ne_none (h.present hn),
    h.guard.2, h.page _ (by omega) (by omega), fun n hn hp he => ?_⟩
  have := h.own.frame_inj (a := none) rfl (by omega) (by omega) hp (h.present (by omega)) he
  omega

theorem Guarded.userWrites (h : Guarded P O d sz v0 v) (hsz : sz < KERNBASE)
    (hw : UserWrites d v v') : Guarded P O d sz v0 v' := by
  have hlt : sz.toNat < 2 ^ 31 := UInt32.lt_iff_toNat_lt.1 hsz
  have hN : sz.toNat / PGSIZE < NPAGES := div_lt_npages (by omega)
  obtain ⟨hown, hkept⟩ := hw.own h.own (a := none) rfl h.kern
  refine ⟨hown, h.kept.base (hkept.mono (Set.empty_subset _)), h.kern.sameView hw.view,
    fun m hm hne => ?_, ?_, fun m hm hm' => ?_⟩
  · rw [hw.view.pte m (by omega)]
    exact h.page m hm hne
  · rw [hw.view.pte _ ((Nat.sub_le _ _).trans_lt hN)]
    exact h.guard
  · rw [hw.view.pte m (lt_npages hm')]
    exact h.rest m hm hm'

theorem Kern.refused (h : Kern K v d) : Refused KernPage v d := by
  intro n hn hk
  refine ⟨h.table hk, fun hu => ?_⟩
  have hlt := h.lt_of_user hn hu
  simp only [KernPage, kernTables, mem_union, mem_Ico, PDX, NPTENTRIES] at hk
  simp only [KERNPAGE] at hlt
  omega

theorem roundUp_toNat (hsz : sz < KERNBASE) :
    (UInt32.ofNat (pageUp sz * PGSIZE)).toNat = pageUp sz * PGSIZE := by
  have hN := pageUp_le (UInt32.le_of_lt hsz)
  rw [UInt32.toNat_ofNat']
  simp only [PGSIZE, KERNPAGE] at hN ⊢
  omega

theorem stackTop_toNat (hsz : sz < KERNBASE) :
    (stackTop sz).toNat = (pageUp sz + 2) * PGSIZE := by
  have hN := pageUp_le (UInt32.le_of_lt hsz)
  rw [stackTop, UInt32.toNat_add, roundUp_toNat hsz]
  simp only [PGSIZE, KERNPAGE] at hN ⊢
  have : ((2 * 4096 : UInt32)).toNat = 8192 := rfl
  omega

/-- `clearpteu` for a page that is mapped. -/
theorem clearpteu_own (h : Own P (O.addRoot d) v) (hn : n < NPAGES)
    (hp : present (v.pte d n) = true) :
    wp (clearpteu d n) (fun _ v' => Own P (O.addRoot d) v' ∧ Kept (O.addRoot d) {none} v v' ∧
      SetPte v v' d n (v.pte d n &&& ~~~PTE_U) ∧
      ∀ x, v.table d (PDX n) ≠ some x → v'.word x = v.word x) E v := by
  obtain ⟨t, ht⟩ := Option.ne_none_iff_exists'.1 (table_ne_none hp)
  unfold clearpteu
  rw [wp_bind, wp_walkpgdir_false, ht]
  simp only [Option.map_some, wp_modify]
  rw [← pte_of_table ht]
  have hset := h.setPte (a := none) rfl hn ht (v.pte d n &&& ~~~PTE_U)
  have hkept := h.kept_setPte (a := none) rfl hn ht (v.pte d n &&& ~~~PTE_U)
  exact ⟨h.of_setPte_flags hset hkept rfl rfl (present_clear _) (frame_clear _), hkept, hset,
    fun x hx => set_word_ne fun he => hx (by rw [he])⟩

/-- `clearpteu` takes the user's access to the page below the stack page. -/
theorem clearpteu_guarded (h : Built P O d (sz.toNat / PGSIZE) v0 v)
    (hH : Holds c d (sz.toNat / PGSIZE) v)
    (hsz : sz < KERNBASE) (htwo : 2 ≤ sz.toNat / PGSIZE) :
    wp (clearpteu d (sz.toNat / PGSIZE - 2)) (fun _ v' => Guarded P O d sz v0 v' ∧
      Holds c d (sz.toNat / PGSIZE) v') E v := by
  have hlt : sz.toNat < 2 ^ 31 := UInt32.lt_iff_toNat_lt.1 hsz
  have hN : sz.toNat / PGSIZE < KERNPAGE := by
    simp only [PGSIZE, KERNPAGE] at *
    omega
  have hu := h.user (sz.toNat / PGSIZE - 2) (by omega)
  generalize hg : sz.toNat / PGSIZE - 2 = g at *
  have hgN : g < NPAGES := lt_npages (by omega)
  refine wp_mono (clearpteu_own h.own hgN hu.1) ?_
  rintro - v' ⟨hown, hkept, hset, hword⟩
  have hframe : ∀ m < NPAGES, frame (v'.pte d m) = frame (v.pte d m) := by
    intro m hm
    by_cases hmg : m = g
    · rw [hmg, hset.same, frame_clear]
    · rw [hset.rest m hm hmg]
  refine ⟨⟨hown, h.kept.base hkept, fun m hm hm' => ?_, fun m hm hne => ?_, ?_,
    fun m hm hm' => ?_⟩, fun n hn => ?_⟩
  · rw [hset.rest m hm' (by omega)]
    exact h.kern m hm hm'
  · rw [hset.rest m (lt_npages (by omega)) (by omega)]
    exact h.user m hm
  · rw [hg, hset.same, present_clear, user_clear]
    exact ⟨hu.1, rfl⟩
  · rw [hset.rest m (lt_npages hm') (by omega)]
    exact h.rest m hm hm'
  · have hpage : n / PGSIZE < sz.toNat / PGSIZE := (Nat.div_lt_iff_lt_mul (by decide)).2 hn
    have hne := (h.own.apart (a := none) rfl h.kern).table _ (lt_npages (hpage.trans hN))
      (h.user _ hpage) _ (PDX_lt hgN)
    rw [← hH n hn, Mem.userByte, Mem.userByte, hframe _ (lt_npages (hpage.trans hN)), Mem.byte,
      Mem.byte, hword _ hne]

/-- What `exec` leaves for a program : its image, the stack page with the arguments and a page
without user access below it. -/
structure Launched (P : Pool K) (O : Owners A B) (d : ℕ) (sz : UInt32) (c : ℕ → UInt8)
    (argv : List (List UInt8)) (v0 v : Mem) : Prop where
  guarded : Guarded P O d sz v0 v
  image : ∀ n < sz.toNat - 2 * PGSIZE, v.userByte d n = c n
  args : argv.length ≤ MAXARG ∧ stackBytes argv ≤ PGSIZE
  stack : ∃ v1, ArgStack d sz argv v1 v

/-- The arguments meet no page without a table, if `exec` gets to them. -/
structure ArgsSound (v0 : Mem) (sz : UInt32) (argv : List (List UInt8)) : Prop where
  tables : stackTop sz < KERNBASE → TablesGranted v0 (pageUp sz + 2)
  args : stackTop sz < KERNBASE → Grants v0 (imageCost (stackTop sz)) →
    ArgsOk KernPage (stackTop sz) 0 (stackTop sz) argv

/-- The arguments fit in the stack page. -/
def ArgsFit (argv : List (List UInt8)) : Prop :=
  argv.length ≤ MAXARG ∧ stackBytes argv ≤ PGSIZE

theorem pushStack_launched (h : Guarded P O d sz v0 v) (hH : Holds c d (sz.toNat / PGSIZE) v)
    (hsz : sz < KERNBASE) (hal : sz.toNat % PGSIZE = 0) (htwo : 2 * PGSIZE ≤ sz.toNat)
    (hargs : ArgsOk KernPage sz 0 sz argv) :
    wp (pushStack cur d argv sz) (fun r v' => Failed P O d v0 v' ∧
      (r = true → Launched P O d sz c argv v0 v') ∧ (r = false → ¬ArgsFit argv))
      (fun _ _ => False) v := by
  refine wp_mono (pushStack_spec (h.loaded hsz hal htwo) h.kern.refused hargs) ?_
  rintro r v' ⟨hw, hr⟩
  have hg := h.userWrites hsz hw
  refine ⟨hg.failed, ?_⟩
  by_cases hfit : argv.length ≤ MAXARG ∧ stackBytes argv ≤ PGSIZE
  · rw [if_pos hfit] at hr
    obtain ⟨rfl, hstack⟩ := hr
    refine ⟨fun _ => ⟨hg, fun n hn => ?_, hfit, v, hstack⟩, by simp⟩
    have hn' : n < sz.toNat - PGSIZE ∧ n / PGSIZE < sz.toNat / PGSIZE := by
      simp only [PGSIZE] at hn hal ⊢
      omega
    obtain ⟨hn', hpage⟩ := hn'
    rw [hstack.kept n hn' (h.present hpage)]
    exact hH n ((Nat.div_lt_iff_lt_mul (by decide)).1 hpage)
  · rw [if_neg hfit] at hr
    subst hr
    exact ⟨by simp, fun _ => hfit⟩

/-- `exec` after the program headers. The program is a variable here and in the next theorem, which
keeps Lean from running it. -/
theorem startProgram_launched {p : M (Option UInt32)} (hp : p = startProgram K cur d argv sz)
    (h : Stage P O d sz c v0 v) (hargs : ArgsSound v0 sz argv) :
    wp p (fun r v' =>
      match r with
      | some sz' => sz' = stackTop sz ∧ sz' < KERNBASE ∧ Launched P O d sz' c argv v0 v'
      | none => Failed P O d v0 v' ∧
        ¬(stackTop sz < KERNBASE ∧ Grants v0 (imageCost (stackTop sz)) ∧ ArgsFit argv))
      (fun _ _ => False) v := by
  have htop := stackTop_toNat h.size
  have hround := roundUp_toNat h.size
  rw [hp]
  unfold startProgram
  dsimp only
  rw [← stackTop]
  have htab := hargs.tables
  have hok := hargs.args
  clear hargs
  generalize stackTop sz = T at *
  by_cases hbig : KERNBASE ≤ T
  · refine wp_seq (allocuvm_refused hbig) ?_
    rintro r v1 ⟨rfl, rfl⟩
    exact ⟨h.built.failed, fun hc => UInt32.not_le.2 hc.1 hbig⟩
  have hlt := UInt32.not_le.1 hbig
  have hltN : (T).toNat < 2 ^ 31 := UInt32.lt_iff_toNat_lt.1 hlt
  replace htab := htab hlt
  have hpage : pageUp (UInt32.ofNat (pageUp sz * PGSIZE)) = pageUp sz := by
    rw [pageUp, hround]
    simp only [PGSIZE]
    omega
  have hpage2 : pageUp (T) = pageUp sz + 2 := by
    rw [pageUp, htop]
    simp only [PGSIZE]
    omega
  have hle : pageUp sz * PGSIZE + 2 * PGSIZE = T.toNat := by rw [htop, Nat.add_mul]
  have hP : PGSIZE = 4096 := rfl
  have hgrown : grown (UInt32.ofNat (pageUp sz * PGSIZE)) T = T :=
    if_neg (UInt32.not_lt.2 (UInt32.le_iff_toNat_le.2 (by omega)))
  have hst : Stage P O d (UInt32.ofNat (pageUp sz * PGSIZE)) c v0 v := by
    refine ⟨?_, ?_, ?_, ?_, UInt32.lt_iff_toNat_lt.2 ?_⟩
    · rw [hpage]; exact h.built
    · rw [hpage]; exact h.drawn
    · rw [hpage]; exact h.holds
    · rw [hpage]; exact h.zero
    · rw [hround]
      exact lt_of_le_of_lt (by omega) hltN
  refine wp_seq (allocuvm_stage hst hlt (by rwa [hgrown, hpage2])) ?_
  rw [hgrown]
  rintro r v1 (⟨rfl, hst1⟩ | ⟨rfl, hfail, hno⟩)
  swap
  · exact ⟨hfail, fun hc => hno hc.2.1⟩
  have hdiv : r.toNat / PGSIZE = pageUp sz + 2 := by
    rw [htop, Nat.mul_div_cancel _ (by decide)]
  have hne : r ≠ 0 := by
    rintro rfl
    rw [UInt32.toNat_zero] at hle
    omega
  have hguard : page (r - 2 * 4096) = r.toNat / PGSIZE - 2 := by
    have h8 : (2 * 4096 : UInt32).toNat = 8192 := rfl
    rw [page, UInt32.toNat_sub_of_le _ _ (by rw [UInt32.le_iff_toNat_le, h8]; omega), h8]
    simp only [PGSIZE]
    omega
  rw [if_neg hne, hguard]
  have hbuilt := hst1.built
  have hholds := hst1.holds
  rw [hpage2, ← hdiv] at hbuilt hholds
  refine wp_seq (clearpteu_guarded hbuilt hholds hlt (by omega)) ?_
  rintro - v2 ⟨hg, hH⟩
  refine wp_seq (pushStack_launched hg hH hlt (by rw [htop, Nat.mul_mod_left]) (by omega)
    (hok hlt hst1.drawn.grants)) ?_
  rintro b v3 ⟨hfail, hL, hfit⟩
  cases b with
  | true => exact ⟨rfl, hlt, hL rfl⟩
  | false => exact ⟨hfail, fun hc => hfit rfl hc.2.2⟩

/-! ## `exec` -/

/-- What the program headers of a file ask for. -/
def Image.plan (f : Image) : List (Proghdr × UInt32) × Option UInt32 :=
  scan f f.phnum f.phoff 0

/-- The bytes of the image that the file asks for. -/
def Image.bytes (f : Image) : ℕ → UInt8 :=
  overlay f f.plan.1 fun _ => 0

/-- No part of `exec` writes past the image or follows a null pointer. -/
structure ExecSound (v : Mem) (f : Image) (argv : List (List UInt8)) : Prop where
  segments : Sound f v f.plan.1
  args : ∀ sz, f.plan.2 = some sz → AllPlaced f f.plan.1 → ArgsSound v sz argv

/-- There is a page for everything that the file asks for, and the arguments fit. -/
structure ExecFits (v : Mem) (f : Image) (argv : List (List UInt8)) : Prop where
  segments : ∀ q ∈ f.plan.1, Grants v (imageCost q.2)
  size : ∃ sz, f.plan.2 = some sz ∧ stackTop sz < KERNBASE ∧ Grants v (imageCost (stackTop sz))
  args : ArgsFit argv

variable {f : Image}

theorem loadImage_launched {p : M (Option UInt32)} (hp : p = loadImage K cur d f argv)
    (h : Stage P O d 0 (fun _ => 0) v0 v) (hs : ExecSound v0 f argv) :
    wp p (fun r v' =>
      ((∀ q ∈ f.plan.1, Grants v0 (imageCost q.2)) → AllPlaced f f.plan.1) ∧
      (∀ sz', r = some sz' → AllPlaced f f.plan.1 ∧ ∃ sz, f.plan.2 = some sz ∧ sz' = stackTop sz ∧
        sz' < KERNBASE ∧ Launched P O d sz' f.bytes argv v0 v') ∧
      (r = none → Failed P O d v0 v' ∧ ¬ExecFits v0 f argv))
      (fun _ _ => ¬AllPlaced f f.plan.1) v := by
  have hload := loadSegments_scanned f.phnum f.phoff 0 _ v h hs.segments
  rw [← Image.plan] at hload
  rw [hp]
  unfold loadImage
  refine wp_bind.2 (wp_mono' hload (fun r v1 hr => ?_) fun _ _ he => he.1)
  obtain ⟨hsc, -⟩ := hr
  cases r with
  | none =>
    have hfail := hsc.failed rfl
    refine ⟨hsc.placed, nofun, fun _ => ⟨hfail.1, fun hfits => ?_⟩⟩
    rcases hfail.2 with hnone | ⟨q, hq, hno⟩
    · obtain ⟨sz, hsome, -⟩ := hfits.size
      rw [hnone] at hsome
      cases hsome
    · exact hno (hfits.segments q hq)
  | some sz =>
    have hl := hsc.loaded sz rfl
    dsimp only
    generalize hp : startProgram K cur d argv sz = p
    have hstart := startProgram_launched hp.symm hl.2.2 (hs.args sz hl.2.1 hl.1)
    refine wp_mono' hstart (fun r v2 hr2 => ⟨hsc.placed, ?_, ?_⟩) fun _ _ => False.elim
    · rintro sz' rfl
      exact ⟨hl.1, sz, hl.2.1, hr2⟩
    · rintro rfl
      refine ⟨hr2.1, fun hfits => ?_⟩
      obtain ⟨sz', hsome, hlt, hg⟩ := hfits.size
      rw [hl.2.1] at hsome
      obtain rfl := Option.some.inj hsome
      exact hr2.2 ⟨hlt, hg, hfits.args⟩

/-- The file has an ELF header. -/
def Image.IsElf (f : Image) : Prop :=
  ¬f.readi 0 ELFHDR < ELFHDR ∧ f.magic = ELF_MAGIC

/-- `exec`, from memory whose pages are owned by `O`, before the old address space is given up. -/
theorem exec_rule {Q : Option (ℕ × UInt32) → Mem → Prop} (h : Own P O v)
    (hs : f.IsElf → ExecSound v f argv)
    (hno : ¬f.IsElf → Q none v)
    (hset : f.IsElf → ∀ v', Own P O v' → Kept O ∅ v v' → ¬Grants v 65 → Q none v')
    (hfail : f.IsElf → ((∀ q ∈ f.plan.1, Grants v (imageCost q.2)) → AllPlaced f f.plan.1) →
      ¬ExecFits v f argv → ∀ v', Own P O v' → Kept O ∅ v v' → Q none v')
    (hok : f.IsElf → AllPlaced f f.plan.1 → ∀ d sz v', f.plan.2 = some sz →
      stackTop sz < KERNBASE → Launched P O d (stackTop sz) f.bytes argv v v' →
      wp (freevm K cur) (fun _ => Q (some (d, stackTop sz))) E v')
    (hE : f.IsElf → ¬AllPlaced f f.plan.1 → ∀ e v', E e v') :
    wp (exec K cur f argv) Q E v := by
  unfold exec
  by_cases hread : f.readi 0 ELFHDR < ELFHDR
  · rw [if_pos hread]
    exact hno fun hc => hc.1 hread
  rw [if_neg hread]
  by_cases hmagic : f.magic ≠ ELF_MAGIC
  · rw [if_pos hmagic]
    exact hno fun hc => hmagic hc.2
  rw [if_neg hmagic]
  have helf : f.IsElf := ⟨hread, not_not.1 hmagic⟩
  refine wp_seq (setupkvm_stage h) fun r v1 hr => ?_
  cases r with
  | none => exact hset helf v1 hr.1 hr.2.1 hr.2.2
  | some d =>
    dsimp only
    generalize hp : loadImage K cur d f argv = p
    have hload := loadImage_launched hp.symm hr (hs helf)
    refine wp_bind.2 (wp_mono' hload (fun r v2 hr2 => ?_) fun e v' hna => hE helf hna e v')
    obtain ⟨hal, hsome, hnone⟩ := hr2
    cases r with
    | none =>
      have hf := hnone rfl
      exact wp_seq (freevm_new hf.1.own hf.1.kept) fun _ v3 h3 => hfail helf hal hf.2 v3 h3.1 h3.2
    | some sz' =>
      obtain ⟨hall, sz, hplan, rfl, hlt, hL⟩ := hsome sz' rfl
      exact wp_seq (hok helf hall d sz v2 hplan hlt hL) fun _ _ h3 => h3

/-! ## The copies of `exec` -/

variable {free : ℕ → Prop} {α : Type}

theorem Confined.rest {m : M α} {N : Event → Prop} (h : Confined free v v')
    (hm : Always (Noted N) m) (hN : ∀ c, ¬N (.copy c)) :
    wp m (fun _ => Confined free v) (fun _ => Confined free v) v' :=
  wp_of_always hm (fun _ _ hn => h.trans (.of_noted hn hN)) fun _ _ hn =>
    h.trans (.of_noted hn hN)

end

end Xv6.Vm
