import Mathlib.Data.Finset.Card
import Mathlib.Order.Interval.Finset.Nat
import Xv6.Record
import Xv6.Space

/-!
# What the functions of `vm.c` do to address spaces

A specification for each function, for memory whose pages are owned exclusively. A function
that works on the address space of `a` keeps exclusive ownership, the other address spaces
and the other pages; below `KERNBASE` it clears entries or sets them to ones of a kind `U`,
and it leaves the entries of the kernel (`Edit`). An address space that grows takes its tables and
frames from the free list, and writes no page but these, its directory and its tables (`Grew`).
`setupkvm` makes one with the entries of `kmap` (`Kern`) and no others : it takes 65 pages, the
directory and the tables of the kernel (`SetUp`), and loses what it took if there are fewer.
-/

open Ownership (Exclusive)
open Prog Finset

namespace Xv6.Vm

variable {K : Link} {P : Pool K} {A B : Type} {O : Owners A B} {X : Set A} {v v' v'' : Mem} {a : A}
  {d n m x y i j t : ℕ} {w perm : UInt32} {E : Stop → Mem → Prop} {U : UInt32 → Prop}

/-! ## `kalloc.c` -/

theorem SameView.of_word_eq (h : v'.word = v.word) (d : ℕ) : SameView v v' d :=
  SameView.of_word (by rw [h]) fun _ _ _ _ => by rw [h]

theorem Kept.of_word_eq (h : v'.word = v.word) : Kept O X v v' :=
  ⟨fun _ d _ _ => SameView.of_word_eq h d, fun _ _ _ => by rw [h]⟩

theorem Loose.of_suffix (hy : Loose P O v y) (hw : v'.word = v.word)
    (hl : v'.freelist <:+ v.freelist) : Loose P O v' y := by
  refine ⟨fun hm => hy.not_free (hl.mem hm), fun r hr => hy.not_held r ?_, hy.pool⟩
  rwa [page_congr (fun _ d _ => SameView.of_word_eq hw d) r] at hr

/-- `kalloc` takes the first free page, or none. -/
theorem kalloc_spec (h : Own P O v) :
    wp kalloc (fun r v' => v'.word = v.word ∧ Own P O v' ∧
      match r with
      | none => v'.freelist = v.freelist ∧ (v.fails = [] → v.freelist = [])
      | some x => Loose P O v' x ∧ v.freelist = x :: v'.freelist) E v := by
  obtain ⟨word, freelist, fails, log⟩ := v
  unfold kalloc
  simp only [wp_bind, wp_get]
  cases freelist with
  | nil => cases fails.headD false <;> exact ⟨rfl, h, rfl, fun _ => rfl⟩
  | cons x l =>
    cases hf : fails.headD false with
    | false =>
      obtain ⟨hown, hx⟩ := h.take rfl fails.tail
      exact ⟨rfl, hown, hx, rfl⟩
    | true =>
      refine ⟨rfl, h, rfl, fun he => ?_⟩
      obtain rfl : fails = [] := he
      cases hf

theorem wp_kfree {Q : Unit → Mem → Prop} (hx : K.kend ≤ x ∧ x < PHYSTOP) :
    wp (kfree K x) Q E v ↔ Q () (v.put x) := by
  unfold kfree
  rw [if_neg (by omega)]
  exact Iff.rfl

/-! ## Tables from the free list -/

/-- The address space `d` of `a` took tables and frames from the free list. -/
structure Grew (P : Pool K) (O : Owners A B) (a : A) (d : ℕ) (v v' : Mem) : Prop where
  own : Own P O v'
  kept : Kept O {a} v v'
  suffix : v'.freelist <:+ v.freelist
  table : ∀ i < NPTENTRIES, v'.table d i = v.table d i ∨
    v.table d i = none ∧ ∃ t ∈ v.freelist, v'.table d i = some t
  word : ∀ y, y ∉ v.freelist → y ≠ d → (∀ i < NPTENTRIES, v.table d i ≠ some y) →
    v'.word y = v.word y

theorem Grew.refl (h : Own P O v) : Grew P O a d v v :=
  ⟨h, Kept.refl O _ v, List.suffix_rfl, fun _ _ => .inl rfl, fun _ _ _ _ => rfl⟩

theorem Grew.trans (h : Grew P O a d v v') (h' : Grew P O a d v' v'') : Grew P O a d v v'' := by
  refine ⟨h'.own, h.kept.trans h'.kept, h'.suffix.trans h.suffix, fun i hi => ?_,
    fun y hy hd ht => ?_⟩
  · rcases h'.table i hi with heq | ⟨hnone, t, ht, heq⟩
    · rw [heq]
      exact h.table i hi
    · have hv : v.table d i = none := by
        rcases h.table i hi with he | ⟨hv, -⟩
        · exact he.symm.trans hnone
        · exact hv
      exact .inr ⟨hv, t, h.suffix.mem ht, heq⟩
  · rw [h'.word y (fun hm => hy (h.suffix.mem hm)) hd fun i hi he => ?_, h.word y hy hd ht]
    rcases h.table i hi with heq | ⟨-, t, htm, heq⟩
    · exact ht i hi (heq.symm.trans he)
    · obtain rfl := Option.some.inj (heq.symm.trans he)
      exact hy htm

theorem Grew.table_some (h : Grew P O a d v v') (hi : i < NPTENTRIES) (ht : v.table d i = some t) :
    v'.table d i = some t := by
  rcases h.table i hi with heq | ⟨hnone, -⟩
  · exact heq.trans ht
  · rw [ht] at hnone
    cases hnone

theorem Grew.of_word_eq (hown : Own P O v') (hw : v'.word = v.word)
    (hl : v'.freelist <:+ v.freelist) : Grew P O a d v v' :=
  ⟨hown, Kept.of_word_eq hw, hl, fun _ _ => .inl (table_congr (by rw [hw])),
    fun _ _ _ _ => by rw [hw]⟩

theorem Grew.take {v1 : Mem} (hown : Own P O v1) (ha : O.roots a = some d) (hw : v1.word = v.word)
    (hx : Loose P O v1 x) (hl : v.freelist = x :: v1.freelist) (p : ℕ → UInt32) :
    Grew P O a d v (v1.fill x p) := by
  have hview := (hx.kept_fill p).view a d id ha
  refine ⟨hx.own_fill hown p,
    (Kept.of_word_eq hw).trans ((hx.kept_fill p).mono (Set.empty_subset _)),
    hl ▸ List.suffix_cons x v1.freelist,
    fun i hi => .inl ((hview.table i hi).trans (table_congr (by rw [hw]))), fun y hy _ _ => ?_⟩
  rw [fill_word_ne, hw]
  rintro rfl
  exact hy (hl ▸ List.mem_cons_self)

theorem Grew.table_none (h : Grew P O a d v v') (hi : i < NPTENTRIES) (ht : v'.table d i = none) :
    v.table d i = none := by
  rcases h.table i hi with heq | ⟨hnone, -⟩
  · exact heq.symm.trans ht
  · exact hnone

theorem Grew.setPte (hown : Own P O v) (ha : O.roots a = some d) (hn : n < NPAGES)
    (ht : v.table d (PDX n) = some t) (hown' : Own P O (v.set t (PTX n) w)) :
    Grew P O a d v (v.set t (PTX n) w) := by
  refine ⟨hown', hown.kept_setPte ha hn ht w, List.suffix_rfl,
    fun i hi => .inl ((hown.setPte ha hn ht w).table i hi), fun y _ _ hy => set_word_ne ?_⟩
  rintro rfl
  exact hy _ (PDX_lt hn) ht

/-- A page taken from the free list becomes a table, if it does not stay free. -/
def Spent (v v' : Mem) (d : ℕ) : Prop :=
  ∀ y ∈ v.freelist, y ∈ v'.freelist ∨ ∃ i < NPTENTRIES, v.table d i = none ∧ v'.table d i = some y

theorem Spent.refl (v : Mem) (d : ℕ) : Spent v v d :=
  fun _ hy => .inl hy

theorem Spent.trans (hgrew : Grew P O a d v v') (hgrew' : Grew P O a d v' v'')
    (h : Spent v v' d) (h' : Spent v' v'' d) : Spent v v'' d := by
  intro y hy
  rcases h y hy with hfree | ⟨i, hi, hnone, hsome⟩
  · rcases h' y hfree with hfree | ⟨i, hi, hnone, hsome⟩
    · exact .inl hfree
    · exact .inr ⟨i, hi, hgrew.table_none hi hnone, hsome⟩
  · exact .inr ⟨i, hi, hnone, hgrew'.table_some hi hsome⟩

/-- The address space `d` of `a` took tables at the indices of `S`, and no other pages. -/
structure Tabled (P : Pool K) (O : Owners A B) (a : A) (d : ℕ) (S : Set ℕ) (v v' : Mem) :
    Prop where
  grew : Grew P O a d v v'
  spent : Spent v v' d
  rest : ∀ i < NPTENTRIES, i ∉ S → v'.table d i = v.table d i

theorem Tabled.refl (h : Own P O v) (S : Set ℕ) : Tabled P O a d S v v :=
  ⟨Grew.refl h, Spent.refl v d, fun _ _ _ => rfl⟩

theorem Tabled.trans {S : Set ℕ} (h : Tabled P O a d S v v') (h' : Tabled P O a d S v' v'') :
    Tabled P O a d S v v'' :=
  ⟨h.grew.trans h'.grew, h.spent.trans h.grew h'.grew h'.spent,
    fun i hi hS => (h'.rest i hi hS).trans (h.rest i hi hS)⟩

theorem Tabled.of_word_eq {S : Set ℕ} (hown : Own P O v') (hw : v'.word = v.word)
    (hl : v'.freelist = v.freelist) : Tabled P O a d S v v' :=
  ⟨Grew.of_word_eq hown hw (by rw [hl]), fun _ hy => .inl (hl ▸ hy),
    fun _ _ _ => table_congr (by rw [hw])⟩

theorem Tabled.mono {S S' : Set ℕ} (h : Tabled P O a d S v v') (hS : S ⊆ S') :
    Tabled P O a d S' v v' :=
  ⟨h.grew, h.spent, fun i hi hi' => h.rest i hi fun hm => hi' (hS hm)⟩

theorem Tabled.setPte {S : Set ℕ} (hown : Own P O v) (ha : O.roots a = some d) (hn : n < NPAGES)
    (ht : v.table d (PDX n) = some t) (hown' : Own P O (v.set t (PTX n) w)) :
    Tabled P O a d S v (v.set t (PTX n) w) :=
  ⟨Grew.setPte hown ha hn ht hown', fun _ hy => .inl hy,
    fun i hi _ => (hown.setPte ha hn ht w).table i hi⟩

/-! ## `walkpgdir` -/

@[simp] theorem wp_walkpgdir_false {Q : Option (ℕ × ℕ) → Mem → Prop} :
    wp (walkpgdir d n false) Q E v ↔ Q ((v.table d (PDX n)).map fun t => (t, PTX n)) v := by
  unfold walkpgdir Mem.table
  simp only [wp_bind, wp_get]
  split_ifs <;> simp

/-- The tables of `d` that are missing at the indices of `S` can be allocated, and `k` pages
more. -/
def Spare (v : Mem) (d : ℕ) (S : Finset ℕ) (k : ℕ) : Prop :=
  (S.filter fun i => v.table d i = none).card + k ≤ v.freelist.length

/-- The address space `d` of `a` got at most a table. -/
structure Walked (P : Pool K) (O : Owners A B) (a : A) (d : ℕ) (v v' : Mem) : Prop where
  own : Own P O v'
  kept : Kept O {a} v v'
  pte : ∀ m < NPAGES, v'.pte d m = v.pte d m
  loose : ∀ y, Loose P O v y → Loose P O v' y
  suffix : v'.freelist <:+ v.freelist
  length : v.freelist.length ≤ v'.freelist.length + 1
  word : v.freelist = [] → v'.word = v.word

theorem Walked.of_word_eq (hown : Own P O v') (hw : v'.word = v.word)
    (hl : v'.freelist = v.freelist) : Walked P O a d v v' :=
  ⟨hown, Kept.of_word_eq hw, (SameView.of_word_eq hw d).pte,
    fun y hy => hy.of_suffix hw (by rw [hl]), by rw [hl], by rw [hl]; omega, fun _ => hw⟩

/-- `walkpgdir` finds the table or takes one from the free list. -/
theorem walkpgdir_spec (h : Own P O v) (ha : O.roots a = some d) (hn : n < NPAGES) :
    wp (walkpgdir d n true) (fun r v' => Walked P O a d v v' ∧ Tabled P O a d {PDX n} v v' ∧
      (∀ S k, PDX n ∈ S → v.fails = [] → Spare v d S k → r ≠ none ∧ Spare v' d S k) ∧
      match r with
      | none => v'.word = v.word ∧ v'.freelist = v.freelist ∧ v.table d (PDX n) = none ∧
          (v.fails = [] → v.freelist = [])
      | some (t, j) => (v'.table d (PDX n) = some t ∧ j = PTX n) ∧ v.freelist.length =
          v'.freelist.length + if v.table d (PDX n) = none then 1 else 0) E v := by
  unfold walkpgdir
  simp only [wp_bind, wp_get]
  by_cases hp : present (v.word d (PDX n)) = true
  · rw [if_pos hp]
    refine ⟨Walked.of_word_eq h rfl rfl, Tabled.refl h _,
      fun S _ _ _ hS => ⟨Option.some_ne_none _, hS⟩, ⟨?_, rfl⟩, ?_⟩ <;> simp [Mem.table, hp]
  rw [if_neg hp]
  have hnone : v.table d (PDX n) = none := by simp [Mem.table, hp]
  simp only [Bool.true_eq_false, if_false, wp_bind]
  refine wp_mono (kalloc_spec h) ?_
  rintro r v1 ⟨hw, hown, hr⟩
  cases r with
  | none =>
    refine ⟨Walked.of_word_eq hown hw hr.1, Tabled.of_word_eq hown hw hr.1,
      fun S k hn' hf hS => absurd hS ?_, hw, hr.1, hnone, hr.2⟩
    have hpos : 0 < (S.filter fun i => v.table d i = none).card :=
      card_pos.2 ⟨PDX n, mem_filter.2 ⟨hn', hnone⟩⟩
    rw [Spare, hr.2 hf, List.length_nil]
    omega
  | some t =>
    obtain ⟨ht, hl⟩ := hr
    simp only [wp_bind, wp_modify, wp_pure]
    have htable : ∀ i, v1.table d i = v.table d i := fun i => table_congr (by rw [hw])
    have hadd := hown.addTable ha (PDX_lt hn) ((htable _).trans hnone) ht
    have hkept : Kept O {a} v1 (v1.addTable d (PDX n) t) := hown.kept_addTable ha ht
    have hsuf : v1.freelist <:+ v.freelist := hl ▸ List.suffix_cons t v1.freelist
    have hmem : t ∈ v.freelist := hl ▸ List.mem_cons_self
    have hrest : ∀ i, i ≠ PDX n → (v1.addTable d (PDX n) t).table d i = v.table d i := fun i hi =>
      (hadd.rest i hi).trans (htable i)
    have htabled : Tabled P O a d {PDX n} v (v1.addTable d (PDX n) t) := by
      refine ⟨⟨hown.of_addTable hadd hkept ha (PDX_lt hn) rfl ht, (Kept.of_word_eq hw).trans hkept,
        hsuf, fun i _ => ?_, fun y hy hd _ => ?_⟩, fun y hy => ?_, fun i _ hi => hrest i hi⟩
      · by_cases he : i = PDX n
        · subst he
          exact .inr ⟨hnone, t, hmem, hadd.same⟩
        · exact .inl (hrest i he)
      · rw [Mem.addTable, set_word_ne hd, fill_word_ne, hw]
        rintro rfl
        exact hy hmem
      · rw [hl, List.mem_cons] at hy
        rcases hy with rfl | hy
        · exact .inr ⟨PDX n, PDX_lt hn, hnone, hadd.same⟩
        · exact .inl hy
    refine ⟨⟨htabled.grew.own, htabled.grew.kept,
      fun m hm => (hadd.pte m hm).trans ((SameView.of_word_eq hw d).pte m hm), fun y hy => ?_, hsuf,
      ?_, fun he => ?_⟩, htabled, fun S k hn' _ hS => ⟨Option.some_ne_none _, ?_⟩,
      ⟨hadd.same, trivial⟩, ?_⟩
    · refine (hy.of_suffix hw hsuf).of_addTable ?_ hadd hkept ha (PDX_lt hn) rfl
      rintro rfl
      exact hy.not_free hmem
    · rw [hl]
      exact le_rfl
    · rw [hl] at he
      cases he
    · rw [Spare, hl, List.length_cons] at hS
      refine Nat.le_of_lt_succ ((Nat.add_lt_add_right (card_lt_card ?_) k).trans_le hS)
      refine ⟨fun i hi => ?_, fun hsub => ?_⟩
      · obtain ⟨hiS, hi⟩ := mem_filter.1 hi
        refine mem_filter.2 ⟨hiS, ?_⟩
        by_cases he : i = PDX n
        · exact he ▸ hnone
        · exact (hrest i he).symm.trans hi
      · have := (mem_filter.1 (hsub (mem_filter.2 ⟨hn', hnone⟩))).2
        exact Option.some_ne_none t (hadd.same.symm.trans this)
    · rw [if_pos hnone, hl, List.length_cons]
      rfl

/-! ## `mappages` -/

/-- Below `KERNBASE`, entries of the address space `d` of `a` were cleared or set to ones of
the kind `U`. -/
structure Edit (P : Pool K) (O : Owners A B) (a : A) (d : ℕ) (U : UInt32 → Prop) (v v' : Mem) :
    Prop where
  own : Own P O v'
  kept : Kept O {a} v v'
  kernel : ∀ m, KERNPAGE ≤ m → m < NPAGES → v'.pte d m = v.pte d m
  user : ∀ m < KERNPAGE, v'.pte d m = v.pte d m ∨ v'.pte d m = 0 ∨ U (v'.pte d m)

theorem Edit.trans (h : Edit P O a d U v v') (h' : Edit P O a d U v' v'') :
    Edit P O a d U v v'' := by
  refine ⟨h'.own, h.kept.trans h'.kept, fun m hm hm' => (h'.kernel m hm hm').trans
    (h.kernel m hm hm'), fun m hm => ?_⟩
  rcases h'.user m hm with he | hu
  · rw [he]
    exact h.user m hm
  · exact .inr hu

theorem Edit.of_same (hown : Own P O v') (hkept : Kept O {a} v v')
    (hpte : ∀ m < NPAGES, v'.pte d m = v.pte d m) : Edit P O a d U v v' :=
  ⟨hown, hkept, fun m _ hm => hpte m hm, fun m hm => .inl (hpte m (lt_npages hm))⟩

theorem Edit.of_word_eq (hown : Own P O v') (hw : v'.word = v.word) : Edit P O a d U v v' :=
  Edit.of_same hown (Kept.of_word_eq hw) (SameView.of_word_eq hw d).pte

theorem Walked.edit (h : Walked P O a d v v') : Edit P O a d U v v' :=
  Edit.of_same h.own h.kept h.pte

theorem Edit.of_setPte (hown : Own P O v') (hkept : Kept O {a} v v') (hn : n < KERNPAGE)
    (hset : SetPte v v' d n w) (hw : w = 0 ∨ U w) : Edit P O a d U v v' := by
  refine ⟨hown, hkept, fun m hm hm' => hset.rest m hm' (by omega), fun m hm => ?_⟩
  by_cases he : m = n
  · rw [he, hset.same]
    exact .inr hw
  · exact .inl (hset.rest m (lt_npages hm) he)

/-- `mappages` of one page below `KERNBASE`, to a page that nobody owns. -/
theorem mapUser_spec (h : Own P O v) (ha : O.roots a = some d) (hn : n < KERNPAGE)
    (hx : Loose P O v x) (hperm : perm.toNat < PGSIZE)
    (hE : (∀ v', E (.panic "remap") v') ∨ present (v.pte d n) = false) :
    wp (mappages d perm 1 n x) (fun r v' =>
      Edit P O a d (· = entry x perm) v v' ∧ Tabled P O a d {PDX n} v v' ∧
      v.freelist.length ≤ v'.freelist.length + 1 ∧
      (∀ m < NPAGES, m ≠ n → v'.pte d m = v.pte d m) ∧
      (∀ y, y ≠ x → Loose P O v y → Loose P O v' y) ∧
      if r then v'.pte d n = entry x perm ∧ v.freelist.length =
          v'.freelist.length + if v.table d (PDX n) = none then 1 else 0
      else v'.word = v.word ∧ v'.freelist = v.freelist ∧ v.table d (PDX n) = none ∧
        (v.fails = [] → v.freelist = [])) E v := by
  have hn' := lt_npages hn
  unfold mappages
  refine wp_seq (walkpgdir_spec h ha hn') ?_
  rintro r v1 ⟨hwalk, htabled, -, hr⟩
  cases r with
  | none =>
    exact ⟨hwalk.edit, htabled, hwalk.length, fun m hm _ => hwalk.pte m hm,
      fun y _ hy => hwalk.loose y hy, hr⟩
  | some tj =>
    obtain ⟨t, j⟩ := tj
    obtain ⟨⟨ht, rfl⟩, hlen⟩ := hr
    simp only [wp_bind, wp_get]
    have hpte : v1.word t (PTX n) = v.pte d n := by rw [← hwalk.pte n hn', pte_of_table ht]
    by_cases hp : present (v1.word t (PTX n)) = true
    · rw [if_pos hp]
      rw [hpte] at hp
      rcases hE with hE | hE
      · exact hE v1
      · rw [hE] at hp
        cases hp
    rw [if_neg hp]
    have hset := hwalk.own.setPte ha hn' ht (entry x perm)
    have hkept := hwalk.own.kept_setPte ha hn' ht (entry x perm)
    have hx1 := hwalk.loose x hx
    have hframe := frame_entry hx1.lt_npages hperm
    have hown := hwalk.own.of_setPte_map hset hkept ha rfl hn hx1 present_entry hframe
    refine ⟨hwalk.edit.trans (Edit.of_setPte hown hkept hn hset (.inr rfl)),
      htabled.trans (Tabled.setPte hwalk.own ha hn' ht hown), hwalk.length,
      fun m hm hne => (hset.rest m hm hne).trans (hwalk.pte m hm), fun y hne hy => ?_, hset.same,
      hlen⟩
    refine (hwalk.loose y hy).of_setPte hwalk.own hset hkept ha rfl fun _ _ he => hne ?_
    exact he.symm.trans hframe

theorem Spare.congr {S : Finset ℕ} {k : ℕ} (h : Spare v d S k) (hl : v'.freelist = v.freelist)
    (ht : ∀ i < NPTENTRIES, v'.table d i = v.table d i) (hS : ∀ i ∈ S, i < NPTENTRIES) :
    Spare v' d S k := by
  rw [Spare, hl, filter_congr fun i hi => by rw [ht i (hS i hi)]]
  exact h

/-- `mappages` of pages of the kernel that are not mapped yet. -/
theorem mapKernel_spec (hperm : perm.toNat < PGSIZE) {S : Finset ℕ} (k : ℕ)
    (hS : ∀ i ∈ S, i < NPTENTRIES) (ha : O.roots a = some d) :
    ∀ (count n x : ℕ) (v : Mem), Own P O v → KERNPAGE ≤ n → n + count ≤ NPAGES →
      (∀ m, n ≤ m → m < n + count → PDX m ∈ S) →
      (∀ m, n ≤ m → m < n + count → present (v.pte d m) = false) →
      wp (mappages d perm count n x) (fun r v' => Tabled P O a d S v v' ∧
        (∀ m < KERNPAGE, v'.pte d m = v.pte d m) ∧
        (v.fails = [] → Spare v d S k → r = true ∧ Spare v' d S k) ∧
        (r = true → ∀ m < NPAGES, v'.pte d m =
          if n ≤ m ∧ m < n + count then entry (x + (m - n)) perm else v.pte d m)) E v
  | 0, n, x, v, h, _, _, _, _ => by
    refine ⟨Tabled.refl h _, fun _ _ => rfl, fun _ hS => ⟨rfl, hS⟩, fun _ m _ => ?_⟩
    rw [if_neg (by omega)]
  | count + 1, n, x, v, h, hn, hcount, hPDX, hp => by
    have hn' : n < NPAGES := by omega
    unfold mappages
    refine wp_seq (wp_always (walkpgdir_spec h ha hn') silent_walkpgdir) ?_
    rintro r v1 ⟨⟨hwalk, htabled, hspare, hr⟩, hsil⟩
    have hin := hPDX n le_rfl (by omega)
    have htabled := htabled.mono (Set.singleton_subset_iff.2 (mem_coe.2 hin))
    cases r with
    | none =>
      refine ⟨htabled, fun m hm => hwalk.pte m (lt_npages hm), fun hf hv => ?_, by rintro ⟨⟩⟩
      exact absurd rfl (hspare S k hin hf hv).1
    | some tj =>
      obtain ⟨t, j⟩ := tj
      obtain ⟨⟨ht, rfl⟩, -⟩ := hr
      simp only [wp_bind, wp_get]
      have hpte : v1.word t (PTX n) = v.pte d n := by rw [← hwalk.pte n hn', pte_of_table ht]
      rw [if_neg (by rw [hpte, hp n le_rfl (by omega)]; exact Bool.false_ne_true)]
      have hset := hwalk.own.setPte ha hn' ht (entry x perm)
      have hkept := hwalk.own.kept_setPte ha hn' ht (entry x perm)
      have hown := hwalk.own.of_setPte_kernel hset hkept ha rfl hn
      have hrest : ∀ m < NPAGES, m ≠ n → (v1.set t (PTX n) (entry x perm)).pte d m = v.pte d m :=
        fun m hm hne => (hset.rest m hm hne).trans (hwalk.pte m hm)
      simp only [wp_bind, wp_modify]
      refine wp_mono (mapKernel_spec hperm k hS ha count (n + 1) (x + 1) _ hown (by omega)
        (by omega) (fun m hm hm' => hPDX m (by omega) (by omega)) fun m hm hm' => ?_) ?_
      · rw [hrest m (by omega) (by omega)]
        exact hp m (by omega) (by omega)
      rintro r v2 ⟨htabled2, huser2, hspare2, htrue2⟩
      refine ⟨(htabled.trans (Tabled.setPte hwalk.own ha hn' ht hown)).trans htabled2,
        fun m hm => ?_, fun hf hv => ?_, fun hr m hm => ?_⟩
      · rw [huser2 m hm, hrest m (lt_npages hm) (by omega)]
      · exact hspare2 (hsil.fails hf) ((hspare S k hin hf hv).2.congr rfl hset.table hS)
      · rw [htrue2 hr m hm]
        by_cases he : m = n
        · subst he
          rw [if_neg (by omega), if_pos (by omega), hset.same, Nat.sub_self, Nat.add_zero]
        · rw [hrest m hm he]
          by_cases hin : n + 1 ≤ m ∧ m < n + 1 + count
          · rw [if_pos hin, if_pos (by omega), show x + 1 + (m - (n + 1)) = x + (m - n) by omega]
          · rw [if_neg hin, if_neg (by omega)]

/-! ## `setupkvm` -/

/-- The range `k` has page `m`. -/
def Kmap.covers (k : Kmap) (m : ℕ) : Bool :=
  k.virt ≤ m ∧ m < k.virt + k.size

/-- The entry that `k` gives page `m`. -/
def Kmap.pte (k : Kmap) (m : ℕ) : UInt32 :=
  entry (k.phys_start + (m - k.virt)) k.perm

/-- The entry that the ranges `ks` give page `m`, or else `w`. -/
def mapPte (ks : List Kmap) (w : UInt32) (m : ℕ) : UInt32 :=
  (ks.find? (·.covers m)).elim w (·.pte m)

/-- The entries at and above `KERNBASE` are those of `kmap`. -/
def Kern (K : Link) (v : Mem) (d : ℕ) : Prop :=
  ∀ m, KERNPAGE ≤ m → m < NPAGES → v.pte d m = mapPte (kmap K) 0 m

/-- The indices of the tables that `kmap` needs. -/
def kernTables : Finset ℕ :=
  Finset.Ico 512 568 ∪ Finset.Ico 1016 1024

/-- A range of pages of the kernel, with a table index in `S` for each page. -/
structure Kmap.Ok (k : Kmap) (S : Finset ℕ) : Prop where
  perm : k.perm.toNat < PGSIZE
  lo : KERNPAGE ≤ k.virt
  hi : k.virt + k.size ≤ NPAGES
  table : ∀ m, k.virt ≤ m → m < k.virt + k.size → PDX m ∈ S

theorem Kmap.covers_iff {k : Kmap} : k.covers m = true ↔ k.virt ≤ m ∧ m < k.virt + k.size := by
  simp [Kmap.covers]

theorem mapPte_cons {k : Kmap} {ks : List Kmap} :
    mapPte (k :: ks) w m = if k.covers m then k.pte m else mapPte ks w m := by
  unfold mapPte
  rw [List.find?_cons]
  cases k.covers m <;> rfl

theorem mapPte_of_not_covers {ks : List Kmap} (h : ∀ k ∈ ks, k.covers m = false) :
    mapPte ks w m = w := by
  rw [mapPte, List.find?_eq_none.2 fun k hk => by simp [h k hk]]
  rfl

/-- The loop of `setupkvm` maps the ranges. -/
theorem mapAll_spec {S : Finset ℕ} (hS : ∀ i ∈ S, i < NPTENTRIES) (k : ℕ)
    (ha : O.roots a = some d) :
    ∀ (ks : List Kmap) (v : Mem), Own P O v → (∀ k ∈ ks, k.Ok S) →
      ks.Pairwise (fun k k' => ∀ m, k.covers m = true → k'.covers m = false) →
      (∀ k ∈ ks, ∀ m, k.covers m = true → v.pte d m = 0) →
      wp (mapAll d ks) (fun r v' => Tabled P O a d S v v' ∧
        (∀ m < KERNPAGE, v'.pte d m = v.pte d m) ∧
        (v.fails = [] → Spare v d S k → r = true ∧ Spare v' d S k) ∧
        (r = true → ∀ m < NPAGES, v'.pte d m = mapPte ks (v.pte d m) m)) E v
  | [], v, h, _, _, _ =>
    ⟨Tabled.refl h _, fun _ _ => rfl, fun _ hv => ⟨rfl, hv⟩, fun _ _ _ => rfl⟩
  | q :: ks, v, h, hok, hdisj, hzero => by
    have hq := hok q List.mem_cons_self
    obtain ⟨hqdisj, hdisj⟩ := List.pairwise_cons.1 hdisj
    have habs : ∀ m, q.virt ≤ m → m < q.virt + q.size → present (v.pte d m) = false :=
      fun m hm hm' => by
        rw [hzero q List.mem_cons_self m (Kmap.covers_iff.2 ⟨hm, hm'⟩), present_zero]
    unfold mapAll
    refine wp_seq (wp_always (mapKernel_spec hq.perm k hS ha q.size q.virt q.phys_start v h hq.lo
      hq.hi hq.table habs) (silent_mappages ..)) ?_
    rintro r v1 ⟨⟨htabled, huser, hspare, htrue⟩, hsil⟩
    cases r with
    | false => exact ⟨htabled, huser, hspare, nofun⟩
    | true =>
      have hpte1 : ∀ m < NPAGES, v1.pte d m = if q.covers m then q.pte m else v.pte d m :=
        fun m hm => by
          rw [htrue rfl m hm]
          simp only [Kmap.covers_iff]
          rfl
      refine wp_mono (mapAll_spec hS k ha ks v1 htabled.grew.own
        (fun k hk => hok k (List.mem_cons_of_mem q hk)) hdisj fun k hk m hm => ?_)
        fun r v2 ⟨htabled2, huser2, hspare2, htrue2⟩ => ?_
      · have hkok := hok k (List.mem_cons_of_mem q hk)
        have hm' := Kmap.covers_iff.1 hm
        have hq' : q.covers m = false := by
          by_contra hc
          rw [Bool.not_eq_false] at hc
          rw [hqdisj k hk m hc] at hm
          cases hm
        rw [hpte1 m (by have := hkok.hi; omega), hq']
        exact hzero k (List.mem_cons_of_mem q hk) m hm
      refine ⟨htabled.trans htabled2, fun m hm => (huser2 m hm).trans (huser m hm),
        fun hf hv => hspare2 (hsil.fails hf) (hspare hf hv).2, fun hr m hm => ?_⟩
      rw [htrue2 hr m hm, mapPte_cons, hpte1 m hm]
      cases hc : q.covers m with
      | false => rfl
      | true => exact mapPte_of_not_covers fun k hk => hqdisj k hk m hc

theorem Kern.sameView (h : Kern K v d) (hview : SameView v v' d) : Kern K v' d :=
  fun m hm hm' => (hview.pte m hm').trans (h m hm hm')

theorem kmap_size_text :
    (⟨KERNPAGE + EXTMEM, EXTMEM, K.data, 0⟩ : Kmap).size = K.data - EXTMEM := by
  have h := K.data_lt
  have h' := K.data_le
  have h'' := K.kend_lt
  simp only [Kmap.size, NPAGES, EXTMEM] at *
  omega

theorem kmap_size_data :
    (⟨KERNPAGE + K.data, K.data, PHYSTOP, PTE_W⟩ : Kmap).size = PHYSTOP - K.data := by
  have h := K.data_le
  have h' := K.kend_lt
  simp only [Kmap.size, NPAGES, PHYSTOP] at *
  omega

theorem kmap_ok : ∀ k ∈ kmap K, k.Ok kernTables := by
  have h := K.data_lt
  have h' := K.data_le
  have h'' := K.kend_lt
  simp only [kmap, List.forall_mem_cons, List.not_mem_nil, false_imp_iff, implies_true, and_true]
  have hW : PTE_W.toNat < PGSIZE := by decide
  have h0 : (0 : UInt32).toNat < PGSIZE := by decide
  refine ⟨⟨hW, ?_, ?_, ?_⟩, ⟨h0, ?_, ?_, ?_⟩, ⟨hW, ?_, ?_, ?_⟩, ⟨hW, ?_, ?_, ?_⟩⟩
  all_goals
    simp only [kmap_size_text, kmap_size_data]
    simp only [Kmap.size, kernTables, PDX, mem_union, mem_Ico, KERNPAGE, NPAGES,
      EXTMEM, DEVSPACE, PHYSTOP, NPTENTRIES] at *
    omega

theorem kmap_disjoint :
    (kmap K).Pairwise fun k k' => ∀ m, k.covers m = true → k'.covers m = false := by
  have h := K.data_lt
  have h' := K.data_le
  have h'' := K.kend_lt
  have hsorted : (kmap K).Pairwise fun k k' => k.virt + k.size ≤ k'.virt := by
    simp only [kmap, List.pairwise_cons, List.forall_mem_cons, List.not_mem_nil, false_imp_iff,
      implies_true, and_true, List.Pairwise.nil, kmap_size_text, kmap_size_data]
    simp only [Kmap.size, KERNPAGE, NPAGES, EXTMEM, DEVSPACE, PHYSTOP] at *
    omega
  refine hsorted.imp fun {k k'} hle m hm => ?_
  have hm := Kmap.covers_iff.1 hm
  simp only [Kmap.covers, decide_eq_false_iff_not]
  omega

theorem kernTables_lt : ∀ i ∈ kernTables, i < NPTENTRIES := by
  intro i hi
  simp only [kernTables, mem_union, mem_Ico, NPTENTRIES] at *
  omega

theorem card_kernTables_eq : kernTables.card = 64 := by
  rw [kernTables, card_union_of_disjoint, Nat.card_Ico, Nat.card_Ico]
  refine disjoint_left.2 fun i hi hi' => ?_
  rw [mem_Ico] at hi hi'
  omega

theorem table_ne_none (hp : present (v.pte d n) = true) : v.table d (PDX n) ≠ none := by
  intro ht
  rw [pte_of_no_table ht, present_zero] at hp
  cases hp

/-- Every table of `kernTables` has a page that `kmap` maps. -/
theorem Kern.table (h : Kern K v d) (hi : i ∈ kernTables) : v.table d i ≠ none := by
  have hdata := K.data_lt
  have hle := K.data_le
  have hlt := K.kend_lt
  have hpdx : PDX (i * 1024) = i := by
    simp only [PDX, NPTENTRIES]
    omega
  have hrange : 512 ≤ i ∧ i < 568 ∨ 1016 ≤ i ∧ i < 1024 := by
    simpa only [kernTables, mem_union, mem_Ico] using hi
  have hcovers : ∃ k ∈ kmap K, k.covers (i * 1024) = true := by
    simp only [kmap, List.mem_cons, List.not_mem_nil, or_false, exists_eq_or_imp,
      exists_eq_left, Kmap.covers_iff, kmap_size_text, kmap_size_data]
    simp only [Kmap.size, KERNPAGE, NPAGES, EXTMEM, DEVSPACE, PHYSTOP] at *
    omega
  obtain ⟨k, hk, hc⟩ := hcovers
  have hpte := h (i * 1024) (by simp only [KERNPAGE]; omega) (by simp only [NPAGES]; omega)
  rw [← hpdx]
  refine table_ne_none ?_
  rw [hpte, mapPte]
  cases hf : (kmap K).find? (·.covers (i * 1024)) with
  | none => exact absurd hc (by simpa using List.find?_eq_none.1 hf k hk)
  | some k' => exact present_entry

/-- What `setupkvm` did when it returned the directory `d`. -/
structure SetUp (P : Pool K) (O : Owners A B) (d : ℕ) (v v' : Mem) : Prop where
  mem : d ∈ v.freelist
  own : Own P (O.addRoot d) v'
  suffix : v'.freelist <:+ v.freelist
  word : ∀ y ∉ v.freelist, v'.word y = v.word y
  kern : Kern K v' d
  user : ∀ m < KERNPAGE, v'.pte d m = 0
  rest : ∀ i < NPTENTRIES, i ∉ kernTables → v'.table d i = none
  table : ∀ i < NPTENTRIES, ∀ t, v'.table d i = some t → t ∈ v.freelist
  free : ∀ y ∈ v.freelist, y ∈ v'.freelist ∨ y = d ∨ ∃ i < NPTENTRIES, v'.table d i = some y
  length : v.fails = [] → v.freelist.length = v'.freelist.length + 65

/-- A directory and its tables at the indices of `kernTables` are 65 pages. -/
theorem length_of_kern (h : Own P O v) (hown : Own P (O.addRoot d) v')
    (hsuf : v'.freelist <:+ v.freelist) (hd : d ∈ v.freelist) (hkern : Kern K v' d)
    (hrest : ∀ i < NPTENTRIES, i ∉ kernTables → v'.table d i = none)
    (htable : ∀ i < NPTENTRIES, ∀ t, v'.table d i = some t → t ∈ v.freelist)
    (hfree : ∀ y ∈ v.freelist, y ∈ v'.freelist ∨ y = d ∨ ∃ i < NPTENTRIES, v'.table d i = some y) :
    v.freelist.length = v'.freelist.length + 65 := by
  classical
  let t : ℕ → ℕ := fun i => (v'.table d i).getD 0
  have ht : ∀ i ∈ kernTables, v'.table d i = some (t i) := fun i hi => by
    obtain ⟨x, hx⟩ := Option.ne_none_iff_exists'.1 (hkern.table hi)
    simp [t, hx]
  have hlt := kernTables_lt
  have hpage : ∀ i ∈ kernTables, (O.addRoot d).page v' (.table none i) = some (t i) :=
    fun i hi => (page_table rfl (hlt i hi)).trans (ht i hi)
  have hdir : (O.addRoot d).page v' (.dir none) = some d := rfl
  have hset : v.freelist.toFinset = v'.freelist.toFinset ∪ insert d (kernTables.image t) := by
    ext y
    simp only [List.mem_toFinset, mem_union, mem_insert, mem_image]
    constructor
    · intro hy
      rcases hfree y hy with hy | rfl | ⟨i, hi, hti⟩
      · exact .inl hy
      · exact .inr (.inl rfl)
      · have hk : i ∈ kernTables := by
          by_contra hk
          rw [hrest i hi hk] at hti
          cases hti
        exact .inr (.inr ⟨i, hk, by simp [t, hti]⟩)
    · rintro (hy | rfl | ⟨i, hi, rfl⟩)
      · exact hsuf.mem hy
      · exact hd
      · exact htable i (hlt i hi) _ (ht i hi)
  have hdisj : Disjoint v'.freelist.toFinset (insert d (kernTables.image t)) := by
    rw [disjoint_right]
    intro y hy hfree'
    rw [List.mem_toFinset] at hfree'
    simp only [mem_insert, mem_image] at hy
    rcases hy with rfl | ⟨i, hi, rfl⟩
    · exact hown.not_free _ _ hdir hfree'
    · exact hown.not_free _ _ (hpage i hi) hfree'
  have hnotin : d ∉ kernTables.image t := by
    simp only [mem_image, not_exists, not_and]
    intro i hi he
    have := hown.inj _ _ _ ((hpage i hi).trans (congrArg some he)) hdir
    cases this
  have hinj : Set.InjOn t kernTables := by
    intro i hi j hj he
    have := hown.inj _ _ _ (hpage i hi) (he ▸ hpage j hj)
    simpa using this
  have hcard := congrArg Finset.card hset
  rw [card_union_of_disjoint hdisj, card_insert_of_notMem hnotin,
    card_image_of_injOn hinj, card_kernTables_eq, List.toFinset_card_of_nodup h.nodup,
    List.toFinset_card_of_nodup hown.nodup] at hcard
  exact hcard

/-- `setupkvm` makes an address space with the entries of `kmap` and no others. It takes 65 pages.
If there are fewer it loses those it took. -/
theorem setupkvm_spec (h : Own P O v) :
    wp (setupkvm K) (fun r v' => Own P O v' ∧ Kept O ∅ v v' ∧ v'.freelist <:+ v.freelist ∧
      match r with
      | none => v.fails = [] → v.freelist.length < 65 ∧
          (v.freelist ≠ [] → ∃ y ∈ v.freelist, Loose P O v' y)
      | some d => SetUp P O d v v') E v := by
  unfold setupkvm
  refine wp_seq (wp_always (kalloc_spec h) silent_kalloc) ?_
  rintro r v1 ⟨⟨hw, hown, hr⟩, hsil⟩
  cases r with
  | none =>
    refine ⟨hown, Kept.of_word_eq hw, by rw [hr.1], fun hf => ?_⟩
    rw [hr.2 hf]
    exact ⟨by simp, fun hne => absurd rfl hne⟩
  | some d =>
    obtain ⟨hd, hl⟩ := hr
    simp only [wp_bind, wp_modify]
    have hmem : d ∈ v.freelist := hl ▸ List.mem_cons_self
    have hsuf : v1.freelist <:+ v.freelist := hl ▸ List.suffix_cons d v1.freelist
    have hkept1 : Kept O ∅ v (v1.fill d fun _ => 0) := (Kept.of_word_eq hw).trans (hd.kept_fill _)
    have hzero : ∀ i, (v1.fill d fun _ => 0).word d i = 0 := fun i => by rw [fill_word_same]
    have hown1 : Own P (O.addRoot d) (v1.fill d fun _ => 0) :=
      (hd.own_fill hown _).addRoot (hd.fill _) hzero
    have htable : ∀ i, (v1.fill d fun _ => 0).table d i = none := fun i => by
      rw [Mem.table, hzero, present_zero]
      rfl
    have hpte : ∀ m, (v1.fill d fun _ => 0).pte d m = 0 := fun m => pte_of_no_table (htable _)
    refine wp_mono (mapAll_spec (a := none) kernTables_lt 0 rfl (kmap K) _ hown1 kmap_ok
      kmap_disjoint fun _ _ m _ => hpte m) ?_
    rintro b v2 ⟨htabled, huser, hspare, htrue⟩
    have hown2 := htabled.grew.own
    have hown' : Own P O v2 := hown2.among (among_addRoot O d)
    have hkept : Kept O ∅ v v2 :=
      hkept1.trans (htabled.grew.kept.among (among_addRoot O d) (by simp))
    have hsuf2 : v2.freelist <:+ v.freelist := htabled.grew.suffix.trans hsuf
    cases b with
    | false =>
      refine ⟨hown', hkept, hsuf2, fun hf => ⟨?_, fun _ => ⟨d, hmem, ?_⟩⟩⟩
      · by_contra hno
        refine Bool.false_ne_true (hspare (hsil.fails hf) ?_).1
        rw [Spare, filter_true_of_mem fun i _ => htable i, fill_freelist,
          card_kernTables_eq]
        rw [hl, List.length_cons] at hno
        omega
      · refine ⟨hown2.not_free (.dir none) d rfl, fun r hr => ?_, hd.pool⟩
        have he := hown2.inj _ (.dir none) d ((among_addRoot O d).page hr) rfl
        cases r <;> cases he
    | true =>
      have hkern : Kern K v2 d := fun m _ hm => by rw [htrue rfl m hm, hpte]
      have hrest : ∀ i < NPTENTRIES, i ∉ kernTables → v2.table d i = none := fun i hi hS => by
        rw [htabled.rest i hi hS, htable]
      have htaken : ∀ i < NPTENTRIES, ∀ t, v2.table d i = some t → t ∈ v.freelist := by
        intro i hi t ht
        rcases htabled.grew.table i hi with heq | ⟨-, t', ht', hsome⟩
        · rw [heq, htable] at ht
          cases ht
        · obtain rfl := Option.some.inj (ht.symm.trans hsome)
          exact hsuf.mem ht'
      have hfree : ∀ y ∈ v.freelist, y ∈ v2.freelist ∨ y = d ∨
          ∃ i < NPTENTRIES, v2.table d i = some y := by
        intro y hy
        rw [hl, List.mem_cons] at hy
        rcases hy with rfl | hy
        · exact .inr (.inl rfl)
        · rcases htabled.spent y hy with hfree | ⟨i, hi, -, hsome⟩
          · exact .inl hfree
          · exact .inr (.inr ⟨i, hi, hsome⟩)
      refine ⟨hown', hkept, hsuf2, hmem, hown2, hsuf2, fun y hy => ?_, hkern, fun m hm => ?_, hrest,
        htaken, hfree, fun _ => length_of_kern h hown2 hsuf2 hmem hkern hrest htaken hfree⟩
      · have hyd : y ≠ d := by
          rintro rfl
          exact hy hmem
        rw [htabled.grew.word y (fun hy' => hy (hsuf.mem hy')) hyd fun i _ ht => ?_,
          fill_word_ne _ hyd, hw]
        rw [htable] at ht
        cases ht
      · rw [huser m hm, hpte]

/-! ## `deallocuvm` -/

theorem Own.mapped_usable (h : Own P O v) (ha : O.roots a = some d) (hn : n < KERNPAGE)
    (hp : present (v.pte d n) = true) :
    K.kend ≤ frame (v.pte d n) ∧ frame (v.pte d n) < PHYSTOP := by
  refine P.usable _ (h.pool_held (.frame a n) _ ?_)
  rw [page_frame ha hn, Mem.mapped, if_pos hp]

theorem mapped_of_present (hp : present (v.pte d m) = true) :
    v.mapped d m = some (frame (v.pte d m)) := by
  rw [Mem.mapped, if_pos hp]

theorem Own.frame_inj (h : Own P O v) (ha : O.roots a = some d) (hm : m < KERNPAGE)
    (hn : n < KERNPAGE) (hp : present (v.pte d m) = true) (hp' : present (v.pte d n) = true)
    (he : frame (v.pte d m) = frame (v.pte d n)) : m = n := by
  have hr := (page_frame ha hm).trans (mapped_of_present hp)
  have hr' := (page_frame ha hn).trans (mapped_of_present hp')
  rw [← he] at hr'
  simpa using h.inj _ _ _ hr hr'

/-- Page `n` of the address space `d` of `a`, mapped to a frame `x`, is unmapped, and the frame is
freed. -/
structure Unmapped (P : Pool K) (O : Owners A B) (a : A) (d n x : ℕ) (v v' : Mem) : Prop where
  own : Own P O v'
  kept : Kept O {a} v v'
  table : ∀ i < NPTENTRIES, v'.table d i = v.table d i
  same : v'.pte d n = 0
  rest : ∀ m < NPAGES, m ≠ n → v'.pte d m = v.pte d m
  word : ∀ y, y ≠ x → (∀ i < NPTENTRIES, v.table d i ≠ some y) → v'.word y = v.word y
  free : v'.freelist = x :: v.freelist
  loose : ∀ y, Loose P O v y → Loose P O v' y

theorem Own.unmap (h : Own P O v) (ha : O.roots a = some d) (hn : n < KERNPAGE)
    (ht : v.table d (PDX n) = some t) (hx : v.mapped d n = some x) :
    x ≠ t ∧ Unmapped P O a d n x v ((v.set t (PTX n) 0).put x) := by
  have hn' := lt_npages hn
  have hr : O.page v (.frame a n) = some x := (page_frame ha hn).trans hx
  have hset := h.setPte ha hn' ht 0
  have hkept := h.kept_setPte ha hn' ht 0
  obtain ⟨hown1, hx1⟩ := h.of_setPte_unmap hset hkept ha rfl hn hx present_zero
  have hne : x ≠ t := by
    rintro rfl
    exact (h.plain_frame hr).table a _ ((page_table ha (PDX_lt hn')).trans ht)
  have hview := hx1.kept_put.view a d id ha
  refine ⟨hne, hown1.put hx1, hkept.trans (hx1.kept_put.mono (Set.empty_subset _)),
    fun i hi => (hview.table i hi).trans (hset.table i hi), (hview.pte n hn').trans hset.same,
    fun m hm hne => (hview.pte m hm).trans (hset.rest m hm hne), fun y hyx hy => ?_, rfl,
    fun y hy => ?_⟩
  · rw [show ((v.set t (PTX n) 0).put x).word y = (v.set t (PTX n) 0).word y from
      fill_word_ne _ hyx, set_word_ne]
    rintro rfl
    exact hy _ (PDX_lt hn') ht
  · have hyx : y ≠ x := by
      rintro rfl
      exact hy.not_held _ hr
    exact (hy.of_setPte h hset hkept ha rfl fun _ hp => by cases hp).put hx1 hyx

theorem Unmapped.edit (h : Unmapped P O a d n x v v') (hn : n < KERNPAGE) :
    Edit P O a d U v v' := by
  refine ⟨h.own, h.kept, fun m hm hm' => h.rest m hm' (by omega), fun m hm => ?_⟩
  by_cases he : m = n
  · exact .inr (.inl (he ▸ h.same))
  · exact .inl (h.rest m (lt_npages hm) he)

/-- What holds of the loop of `deallocuvm` from page `n` on holds where it ends, and each of its
steps carries it : past a table that is missing, past a page that is not mapped, and over a page
that is unmapped. -/
theorem deallocLoop_rule (ha : O.roots a = some d) {last : ℕ} (hlast : last ≤ KERNPAGE)
    {R : ℕ → Mem → Mem → Prop} (hdone : ∀ n v, Own P O v → last ≤ n → R n v v)
    (hskip : ∀ n v v', n < last → v.table d (PDX n) = none → R (n + NPTENTRIES) v v' → R n v v')
    (habsent : ∀ n v v', n < last → v.table d (PDX n) ≠ none → present (v.pte d n) = false →
      R (n + 1) v v' → R n v v')
    (hunmap : ∀ n x v v1 v', n < last → v.table d (PDX n) ≠ none → v.mapped d n = some x →
      Unmapped P O a d n x v v1 → R (n + 1) v1 v' → R n v v') :
    ∀ (fuel n : ℕ) (v : Mem), Own P O v → last ≤ n + fuel →
      wp (deallocLoop K d last fuel n) (fun _ v' => R n v v') E v
  | 0, n, v, h, hfuel => hdone n v h hfuel
  | fuel + 1, n, v, h, hfuel => by
    have ih := deallocLoop_rule ha hlast hdone hskip habsent hunmap fuel
    unfold deallocLoop
    split_ifs with hn
    swap
    · exact hdone n v h (by omega)
    rw [wp_bind, wp_walkpgdir_false]
    have hn' : n < KERNPAGE := by omega
    cases ht : v.table d (PDX n) with
    | none =>
      exact wp_mono (ih (n + NPTENTRIES) v h (by simp only [NPTENTRIES]; omega))
        fun _ v' => hskip n v v' hn ht
    | some t =>
      have ht' : v.table d (PDX n) ≠ none := ht ▸ Option.some_ne_none t
      simp only [Option.map_some, wp_bind, wp_get]
      rw [show v.word t (PTX n) = v.pte d n from (pte_of_table ht).symm]
      by_cases hp : present (v.pte d n) = true
      swap
      · rw [if_neg hp]
        exact wp_mono (ih (n + 1) v h (by omega)) fun _ v' =>
          habsent n v v' hn ht' (Bool.eq_false_iff.2 hp)
      rw [if_pos hp]
      have hrange := h.mapped_usable ha hn' hp
      have hkend := K.data_lt
      have hkend' := K.data_le
      rw [if_neg (by simp only [EXTMEM] at *; omega)]
      have hx := mapped_of_present hp
      obtain ⟨hne, hu⟩ := h.unmap ha hn' ht hx
      rw [wp_bind, wp_kfree hrange, wp_bind, wp_modify, set_put hne]
      exact wp_mono (ih (n + 1) _ hu.own (by omega)) fun _ v' => hunmap n _ v _ v' hn ht' hx hu

theorem deallocLoop_spec (ha : O.roots a = some d) {last : ℕ} (hlast : last ≤ KERNPAGE) :
    ∀ (fuel n : ℕ) (v : Mem), Own P O v → last ≤ n + fuel →
      wp (deallocLoop K d last fuel n) (fun _ v' => Edit P O a d U v v') E v :=
  deallocLoop_rule ha hlast (fun _ _ h _ => Edit.of_word_eq h rfl) (fun _ _ _ _ _ h => h)
    (fun _ _ _ _ _ _ h => h) fun _ _ _ _ _ hn _ _ hu h => (hu.edit (hn.trans_le hlast)).trans h

theorem pageUp_le {sz : UInt32} (h : sz ≤ KERNBASE) : pageUp sz ≤ KERNPAGE := by
  rw [UInt32.le_iff_toNat_le, show KERNBASE.toNat = 0x80000000 from rfl] at h
  simp only [pageUp, PGSIZE, KERNPAGE]
  omega

/-- `deallocuvm` only clears entries of the user. -/
theorem deallocuvm_spec (h : Own P O v) (ha : O.roots a = some d) {oldsz newsz : UInt32}
    (hold : oldsz ≤ KERNBASE) :
    wp (deallocuvm K d oldsz newsz) (fun r v' => Edit P O a d U v v' ∧ r ≤ oldsz) E v := by
  unfold deallocuvm
  split_ifs with hle
  · exact ⟨Edit.of_word_eq h rfl, UInt32.le_refl _⟩
  · refine wp_seq (deallocLoop_spec (U := U) ha (pageUp_le hold) _ _ v h (by omega)) ?_
    intro _ v' hedit
    exact ⟨hedit, UInt32.le_of_lt (UInt32.not_le.1 hle)⟩

/-! ## Pages of the user -/

/-- An entry that lets the user in. -/
def UserPte (w : UInt32) : Prop :=
  present w = true ∧ user w = true

theorem userPte_entry : UserPte (entry x (PTE_W ||| PTE_U)) :=
  ⟨present_entry, user_entry⟩

end Xv6.Vm
