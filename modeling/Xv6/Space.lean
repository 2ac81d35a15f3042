import Mathlib.Data.Nat.Bitwise
import Mathlib.Data.Set.Basic
import Mathlib.Tactic.NormNum
import Mathlib.Tactic.Ring
import Xv6.Lib.Ownership
import Xv6.Vm

/-!
# Who owns a page

An address space is read off memory from its page directory : the tables that are present
(`Mem.table`) and the entry for each page (`Mem.pte`). The owners of pages are a family of
page directories and a family of other pages; they own (`Owners.page`) these, the page tables of the
directories and the frames of the present entries below `KERNBASE`. `Own` says that ownership is
exclusive.

Memory changes by a write to a page that is no directory and no table, a page taken from the free
list or put on it, a new table, and an entry that is set.
-/

set_option linter.unusedSectionVars false

open Ownership (Exclusive)

open Function Option

namespace Xv6.Vm

/-! ## Entries -/

section

variable {x : ℕ} {perm w : UInt32}

theorem or_one_lt (hp : perm.toNat < PGSIZE) : perm.toNat ||| 1 < 4096 :=
  Nat.or_lt_two_pow (n := 12) hp (by norm_num)

theorem entry_toNat (hx : x < NPAGES) (hp : perm.toNat < PGSIZE) :
    (entry x perm).toNat = x * 4096 + (perm.toNat ||| 1) := by
  have hx' : x < 1048576 := hx
  have h3 : x * PGSIZE < 2 ^ 32 := by
    simp only [PGSIZE]
    omega
  simp only [entry, UInt32.toNat_or, UInt32.toNat_ofNat', Nat.mod_eq_of_lt h3]
  rw [Nat.or_assoc, show PTE_P.toNat = 1 from rfl, show x * PGSIZE = x <<< 12 by
    rw [Nat.shiftLeft_eq], ← Nat.shiftLeft_add_eq_or_of_lt (or_one_lt hp), Nat.shiftLeft_eq]

/-- The frame of an entry is the page it was made for. -/
theorem frame_entry (hx : x < NPAGES) (hp : perm.toNat < PGSIZE) : frame (entry x perm) = x := by
  have h := or_one_lt hp
  simp only [frame, entry_toNat hx hp, PGSIZE]
  omega

theorem present_eq (w : UInt32) : present w = w.toNat.testBit 0 := by
  rw [present, Bool.eq_iff_iff, bne_iff_ne, ne_eq, ← UInt32.toNat_inj, UInt32.toNat_and]
  simp [Nat.testBit_zero, show PTE_P.toNat = 1 from rfl, Nat.and_one_is_mod]

theorem user_eq (w : UInt32) : user w = w.toNat.testBit 2 := by
  rw [user, Bool.eq_iff_iff, bne_iff_ne, ne_eq, ← UInt32.toNat_inj, UInt32.toNat_and,
    show PTE_U.toNat = 2 ^ 2 from rfl, show (0 : UInt32).toNat = 0 from rfl, Nat.and_two_pow]
  cases w.toNat.testBit 2 <;> simp

theorem present_entry : present (entry x perm) = true := by
  simp [present_eq, entry, show PTE_P.toNat = 1 from rfl]

theorem user_entry : user (entry x perm) = user perm := by
  have h : (x * PGSIZE % 4294967296).testBit 2 = false := by
    rw [show 4294967296 = 2 ^ 32 by norm_num, show x * PGSIZE = 2 ^ 12 * x by ring,
      Nat.testBit_mod_two_pow, Nat.testBit_two_pow_mul]
    simp
  have h' : Nat.testBit 1 2 = false := by decide
  simp [user_eq, entry, UInt32.toNat_ofNat', h, h', show PTE_P.toNat = 1 from rfl]

theorem present_zero : present 0 = false := by
  decide

theorem clear_toNat (w : UInt32) : (w &&& ~~~PTE_U).toNat = w.toNat &&& 4294967291 := by
  rw [UInt32.toNat_and]
  rfl

theorem present_clear (w : UInt32) : present (w &&& ~~~PTE_U) = present w := by
  rw [present_eq, present_eq, clear_toNat, Nat.testBit_and,
    show Nat.testBit 4294967291 0 = true by decide, Bool.and_true]

theorem frame_clear (w : UInt32) : frame (w &&& ~~~PTE_U) = frame w := by
  have hw := w.toNat_lt
  rw [frame, frame, clear_toNat, show PGSIZE = 2 ^ 12 from rfl, ← Nat.shiftRight_eq_div_pow,
    ← Nat.shiftRight_eq_div_pow, Nat.shiftRight_and_distrib,
    show 4294967291 >>> 12 = 2 ^ 20 - 1 by decide, Nat.and_two_pow_sub_one_eq_mod]
  exact Nat.mod_eq_of_lt (by rw [Nat.shiftRight_eq_div_pow]; omega)

theorem flags_lt (w : UInt32) : (flags w).toNat < PGSIZE := by
  rw [flags, UInt32.toNat_and]
  exact Nat.and_lt_two_pow (n := 12) _ (by decide)

end

/-! ## Address spaces -/

/-- The page table at index `i` of the directory `d`. -/
def Mem.table (v : Mem) (d i : ℕ) : Option ℕ :=
  if present (v.word d i) then some (frame (v.word d i)) else none

/-- The entry for page `n` in the address space `d`. -/
def Mem.pte (v : Mem) (d n : ℕ) : UInt32 :=
  match v.table d (PDX n) with
  | some t => v.word t (PTX n)
  | none => 0

/-- The frame of page `n` in the address space `d`. -/
def Mem.mapped (v : Mem) (d n : ℕ) : Option ℕ :=
  if present (v.pte d n) then some (frame (v.pte d n)) else none

/-- The address space `d` is the same in both memories. -/
structure SameView (v v' : Mem) (d : ℕ) : Prop where
  table : ∀ i < NPTENTRIES, v'.table d i = v.table d i
  pte : ∀ n < NPAGES, v'.pte d n = v.pte d n

section

variable {v v' v'' : Mem} {d n m x i t : ℕ} {w : UInt32}

@[simp] theorem fill_word_same (p : ℕ → UInt32) : (v.fill x p).word x = p := by
  simp [Mem.fill]

theorem fill_word_ne (p : ℕ → UInt32) (h : d ≠ x) : (v.fill x p).word d = v.word d := by
  simp [Mem.fill, h]

@[simp] theorem set_word_same : (v.set x i w).word x i = w := by
  simp [Mem.set]

theorem set_word_ne (h : d ≠ x) : (v.set x i w).word d = v.word d := by
  simp [Mem.set, h]

theorem set_word_ne_index (h : n ≠ i) : (v.set x i w).word x n = v.word x n := by
  simp [Mem.set, h]

@[simp] theorem fill_freelist (p : ℕ → UInt32) : (v.fill x p).freelist = v.freelist :=
  rfl

theorem PDX_lt (h : n < NPAGES) : PDX n < NPTENTRIES := by
  simp only [PDX, NPAGES, NPTENTRIES] at *
  omega

/-- The two indices of an address determine its page. -/
theorem eq_of_PDX_PTX (h : PDX n = PDX m) (h' : PTX n = PTX m) : n = m := by
  simp only [PDX, PTX, NPTENTRIES] at h h'
  omega

/-- An entry is read through its table. -/
theorem pte_of_table (h : v.table d (PDX n) = some t) : v.pte d n = v.word t (PTX n) := by
  simp [Mem.pte, h]

theorem pte_of_no_table (h : v.table d (PDX n) = none) : v.pte d n = 0 := by
  simp [Mem.pte, h]

theorem table_congr (h : v'.word d i = v.word d i) : v'.table d i = v.table d i := by
  simp [Mem.table, h]

theorem mapped_congr (h : v'.pte d n = v.pte d n) : v'.mapped d n = v.mapped d n := by
  simp [Mem.mapped, h]

theorem lt_npages (hn : n < KERNPAGE) : n < NPAGES :=
  hn.trans (by decide)

theorem SameView.refl (v : Mem) (d : ℕ) : SameView v v d :=
  ⟨fun _ _ => rfl, fun _ _ => rfl⟩

theorem SameView.trans (h : SameView v v' d) (h' : SameView v' v'' d) : SameView v v'' d :=
  ⟨fun i hi => (h'.table i hi).trans (h.table i hi), fun n hn => (h'.pte n hn).trans (h.pte n hn)⟩

theorem SameView.symm (h : SameView v v' d) : SameView v' v d :=
  ⟨fun i hi => (h.table i hi).symm, fun n hn => (h.pte n hn).symm⟩

/-- A view reads the directory and its tables only. -/
theorem SameView.of_word (hd : v'.word d = v.word d)
    (ht : ∀ i < NPTENTRIES, ∀ t, v.table d i = some t → v'.word t = v.word t) :
    SameView v v' d := by
  have htable : ∀ i, v'.table d i = v.table d i := fun i => table_congr (by rw [hd])
  refine ⟨fun i _ => htable i, fun n hn => ?_⟩
  cases hp : v.table d (PDX n) with
  | none => rw [pte_of_no_table hp, pte_of_no_table ((htable _).trans hp)]
  | some t =>
    rw [pte_of_table hp, pte_of_table ((htable _).trans hp), ht _ (PDX_lt hn) t hp]

end

/-! ## Owners -/

/-- The pages that `kalloc` may hand out. -/
structure Pool (K : Link) where
  mem : ℕ → Prop
  usable : ∀ x, mem x → K.kend ≤ x ∧ x < PHYSTOP

/-- Page directories, and pages that hold no page table. -/
structure Owners (A B : Type) where
  roots : A → Option ℕ
  others : B → Option ℕ

/-- A way a page can be owned. -/
inductive Ref (A B : Type) where
  | other (b : B)
  | dir (a : A)
  | table (a : A) (i : ℕ)
  | frame (a : A) (n : ℕ)

section

variable {K : Link} {P : Pool K} {A B A' B' : Type}

/-- The page that is owned in the way `r`. -/
def Owners.page (O : Owners A B) (v : Mem) : Ref A B → Option ℕ
  | .other b => O.others b
  | .dir a => O.roots a
  | .table a i => if i < NPTENTRIES then (O.roots a).bind (v.table · i) else none
  | .frame a n => if n < KERNPAGE then (O.roots a).bind (v.mapped · n) else none

/-- A page is owned in one way, and not if it is free. -/
def Own (P : Pool K) (O : Owners A B) (v : Mem) : Prop :=
  Exclusive P.mem v.freelist (O.page v)

/-- A page that is neither owned nor free. -/
def Loose (P : Pool K) (O : Owners A B) (v : Mem) (x : ℕ) : Prop :=
  Ownership.Loose P.mem v.freelist (O.page v) x

/-- A page that is no directory and no table. -/
structure Plain (O : Owners A B) (v : Mem) (x : ℕ) : Prop where
  dir : ∀ a, O.page v (.dir a) ≠ some x
  table : ∀ a i, O.page v (.table a i) ≠ some x

/-- The address spaces that are not in `X`, and the other pages, are the same in both
memories. -/
structure Kept (O : Owners A B) (X : Set A) (v v' : Mem) : Prop where
  view : ∀ a d, a ∉ X → O.roots a = some d → SameView v v' d
  word : ∀ b x, O.others b = some x → v'.word x = v.word x

variable {O : Owners A B} {O' : Owners A' B'} {X Y : Set A} {v v' v'' : Mem} {a a' : A}
  {d d' n m x y i t : ℕ} {w : UInt32}

theorem page_table (ha : O.roots a = some d) (hi : i < NPTENTRIES) :
    O.page v (.table a i) = v.table d i := by
  simp [Owners.page, ha, hi]

theorem page_frame (ha : O.roots a = some d) (hn : n < KERNPAGE) :
    O.page v (.frame a n) = v.mapped d n := by
  simp [Owners.page, ha, hn]

theorem page_table_eq_some :
    O.page v (.table a i) = some x ↔
      i < NPTENTRIES ∧ ∃ d, O.roots a = some d ∧ v.table d i = some x := by
  simp [Owners.page, bind_eq_some_iff]

theorem page_frame_eq_some :
    O.page v (.frame a n) = some x ↔
      n < KERNPAGE ∧ ∃ d, O.roots a = some d ∧ v.mapped d n = some x := by
  simp [Owners.page, bind_eq_some_iff]

theorem Kept.refl (O : Owners A B) (X : Set A) (v : Mem) : Kept O X v v :=
  ⟨fun _ d _ _ => SameView.refl v d, fun _ _ _ => rfl⟩

theorem Kept.trans (h : Kept O X v v') (h' : Kept O X v' v'') : Kept O X v v'' :=
  ⟨fun a d hX ha => (h.view a d hX ha).trans (h'.view a d hX ha),
    fun b x hb => (h'.word b x hb).trans (h.word b x hb)⟩

theorem Kept.mono (h : Kept O X v v') (hXY : X ⊆ Y) : Kept O Y v v' :=
  ⟨fun a d hX ha => h.view a d (fun hx => hX (hXY hx)) ha, h.word⟩

theorem page_eq {r : Ref A B}
    (htable : ∀ a d i, r = .table a i → O.roots a = some d → i < NPTENTRIES →
      v'.table d i = v.table d i)
    (hframe : ∀ a d n, r = .frame a n → O.roots a = some d → n < KERNPAGE →
      v'.mapped d n = v.mapped d n) : O.page v' r = O.page v r := by
  cases r with
  | other b => rfl
  | dir a => rfl
  | table a i =>
    cases ha : O.roots a with
    | none => simp [Owners.page, ha]
    | some d =>
      by_cases hi : i < NPTENTRIES
      · rw [page_table ha hi, page_table ha hi, htable a d i rfl ha hi]
      · simp [Owners.page, hi]
  | frame a n =>
    cases ha : O.roots a with
    | none => simp [Owners.page, ha]
    | some d =>
      by_cases hn : n < KERNPAGE
      · rw [page_frame ha hn, page_frame ha hn, hframe a d n rfl ha hn]
      · simp [Owners.page, hn]

/-- Who owns what depends on the views of the directories only. -/
theorem page_congr (hview : ∀ a d, O.roots a = some d → SameView v v' d) (r : Ref A B) :
    O.page v' r = O.page v r :=
  page_eq (fun a d i _ ha hi => (hview a d ha).table i hi) fun a d _ _ ha hn =>
    mapped_congr ((hview a d ha).pte _ (lt_npages hn))

/-- Ownership depends on the free list and on the views only. -/
theorem Own.congr (h : Own P O v) (hfree : v'.freelist = v.freelist)
    (hview : ∀ a d, O.roots a = some d → SameView v v' d) : Own P O v' := by
  rw [Own, hfree, show O.page v' = O.page v from funext (page_congr hview)]
  exact h

theorem Loose.congr (h : Loose P O v x) (hfree : v'.freelist = v.freelist)
    (hview : ∀ a d, O.roots a = some d → SameView v v' d) : Loose P O v' x := by
  rw [Loose, hfree, show O.page v' = O.page v from funext (page_congr hview)]
  exact h

/-! ## Writes -/

theorem Loose.plain (h : Loose P O v x) : Plain O v x :=
  ⟨fun _ => h.not_held _, fun _ _ => h.not_held _⟩

/-- A frame is neither a directory nor a table. -/
theorem Own.plain_frame (h : Own P O v) (hx : O.page v (.frame a n) = some x) : Plain O v x :=
  ⟨fun a' ha => (nomatch h.inj (.frame a n) (.dir a') x hx ha),
    fun a' i ha => (nomatch h.inj (.frame a n) (.table a' i) x hx ha)⟩

/-- To write such a page changes no view. -/
theorem Plain.sameView (hx : Plain O v x) (hw : ∀ y, y ≠ x → v'.word y = v.word y)
    (ha : O.roots a = some d) : SameView v v' d := by
  refine SameView.of_word (hw d ?_) fun i hi t ht => hw t ?_
  · rintro rfl
    exact hx.dir a ha
  · rintro rfl
    exact hx.table a i ((page_table ha hi).trans ht)

/-- To write a page that nobody owns changes no address space. -/
theorem Loose.kept (hx : Loose P O v x) (hw : ∀ y, y ≠ x → v'.word y = v.word y) :
    Kept O ∅ v v' :=
  ⟨fun _ _ _ ha => hx.plain.sameView hw ha,
    fun b y hb => hw y fun he => hx.not_held (.other b) (he ▸ hb)⟩

theorem Loose.kept_fill (hx : Loose P O v x) (p : ℕ → UInt32) : Kept O ∅ v (v.fill x p) :=
  hx.kept fun _ hy => fill_word_ne p hy

theorem Loose.own_fill (hx : Loose P O v x) (h : Own P O v) (p : ℕ → UInt32) :
    Own P O (v.fill x p) :=
  h.congr rfl fun a d ha => (hx.kept_fill p).view a d id ha

theorem Loose.fill (hx : Loose P O v x) (p : ℕ → UInt32) : Loose P O (v.fill x p) x :=
  hx.congr rfl fun a d ha => (hx.kept_fill p).view a d id ha

/-! ## The free list -/

/-- A page taken from the free list is owned by nobody. -/
theorem Own.take (h : Own P O v) {l : List ℕ} (hl : v.freelist = x :: l) (fails : List Bool) :
    Own P O { v with freelist := l, fails := fails } ∧
      Loose P O { v with freelist := l, fails := fails } x := by
  rw [Own, hl] at h
  exact Exclusive.take h

/-- Memory after page `x` is freed. -/
def Mem.put (v : Mem) (x : ℕ) : Mem :=
  { v.fill x fun _ => 0x01010101 with freelist := x :: v.freelist }

/-- A page that nobody owns can go on the free list. -/
theorem Own.put (h : Own P O v) (hx : Loose P O v x) : Own P O (v.put x) := by
  have h' := hx.own_fill h fun _ => 0x01010101
  have hx' := hx.fill fun _ => 0x01010101
  exact Exclusive.put h' hx'

theorem Loose.kept_put (hx : Loose P O v x) : Kept O ∅ v (v.put x) :=
  hx.kept fun _ hy => fill_word_ne _ hy

theorem Loose.put (hy : Loose P O v y) (hx : Loose P O v x) (hne : y ≠ x) :
    Loose P O (v.put x) y := by
  refine ⟨fun hm => (List.mem_cons.1 hm).elim hne hy.not_free, fun r hr => hy.not_held r ?_,
    hy.pool⟩
  rwa [page_congr (fun a d ha => hx.kept_put.view a d id ha)] at hr

theorem set_put (hne : x ≠ t) : (v.put x).set t i w = (v.set t i w).put x := by
  simp only [Mem.put, Mem.set, Mem.fill, Mem.mk.injEq, and_true]
  rw [update_comm hne, update_of_ne hne.symm]

/-! ## Tables and entries -/

theorem Own.table_ne_dir (h : Own P O v) (ha : O.roots a = some d) (hi : i < NPTENTRIES)
    (ht : v.table d i = some t) (ha' : O.roots a' = some d') : t ≠ d' := by
  rintro rfl
  exact nomatch h.inj (.table a i) (.dir a') t ((page_table ha hi).trans ht) ha'

/-- A table belongs to one directory, at one index. -/
theorem Own.table_inj (h : Own P O v) (ha : O.roots a = some d) (hi : i < NPTENTRIES)
    (ht : v.table d i = some t) (ha' : O.roots a' = some d') (hm : m < NPTENTRIES)
    (ht' : v.table d' m = some t) : a = a' ∧ i = m := by
  have := h.inj (.table a i) (.table a' m) t ((page_table ha hi).trans ht)
    ((page_table ha' hm).trans ht')
  simpa using this

/-- A write to a table or the directory of `a` keeps the rest. -/
theorem Own.kept_of_write (h : Own P O v) {r : Ref A B} (hr : O.page v r = some x)
    (hown : r = .dir a ∨ ∃ i, r = .table a i) (hw : ∀ y, y ≠ x → v'.word y = v.word y) :
    Kept O {a} v v' := by
  refine ⟨fun a' d ha' ha => SameView.of_word (hw d ?_) fun i hi t ht => hw t ?_,
    fun b y hb => hw y ?_⟩
  · rintro rfl
    have he := h.inj r (.dir a') d hr ha
    rcases hown with rfl | ⟨i, rfl⟩
    · exact ha' (Ref.dir.inj he).symm
    · cases he
  · rintro rfl
    have he := h.inj r (.table a' i) t hr ((page_table ha hi).trans ht)
    rcases hown with rfl | ⟨j, rfl⟩
    · cases he
    · exact ha' (Ref.table.inj he).1.symm
  · rintro rfl
    have he := h.inj r (.other b) y hr hb
    rcases hown with rfl | ⟨j, rfl⟩ <;> cases he

/-- How the address space `d` looks after its entry for page `n` is set to `w`. -/
structure SetPte (v v' : Mem) (d n : ℕ) (w : UInt32) : Prop where
  table : ∀ i < NPTENTRIES, v'.table d i = v.table d i
  same : v'.pte d n = w
  rest : ∀ m < NPAGES, m ≠ n → v'.pte d m = v.pte d m

/-- An entry written through its table is the only one that changes. -/
theorem Own.setPte (h : Own P O v) (ha : O.roots a = some d) (hn : n < NPAGES)
    (ht : v.table d (PDX n) = some t) (w : UInt32) : SetPte v (v.set t (PTX n) w) d n w := by
  have htable : ∀ i, (v.set t (PTX n) w).table d i = v.table d i := fun i =>
    table_congr (by rw [set_word_ne (h.table_ne_dir ha (PDX_lt hn) ht ha).symm])
  refine ⟨fun i _ => htable i, ?_, fun m hm hne => ?_⟩
  · rw [pte_of_table ((htable _).trans ht), set_word_same]
  · cases ht' : v.table d (PDX m) with
    | none => rw [pte_of_no_table ht', pte_of_no_table ((htable _).trans ht')]
    | some t' =>
      rw [pte_of_table ht', pte_of_table ((htable _).trans ht')]
      by_cases he : t' = t
      · subst he
        have hpdx := (h.table_inj ha (PDX_lt hm) ht' ha (PDX_lt hn) ht).2
        exact set_word_ne_index fun hptx => hne (eq_of_PDX_PTX hpdx hptx)
      · rw [set_word_ne he]

/-- The other address spaces stay as they are. -/
theorem Own.kept_setPte (h : Own P O v) (ha : O.roots a = some d) (hn : n < NPAGES)
    (ht : v.table d (PDX n) = some t) (w : UInt32) : Kept O {a} v (v.set t (PTX n) w) :=
  h.kept_of_write ((page_table ha (PDX_lt hn)).trans ht) (.inr ⟨_, rfl⟩) fun _ hy =>
    set_word_ne hy

theorem Kept.page_eq (hkept : Kept O {a} v v') (ha : O.roots a = some d) {r : Ref A B}
    (htable : ∀ i < NPTENTRIES, r = .table a i → v'.table d i = v.table d i)
    (hpte : ∀ n < KERNPAGE, r = .frame a n → v'.pte d n = v.pte d n) :
    O.page v' r = O.page v r := by
  refine Vm.page_eq (fun a' d' i hr ha' hi => ?_) fun a' d' n hr ha' hn => mapped_congr ?_
  · by_cases he : a' = a
    · subst he
      obtain rfl := some.inj (ha.symm.trans ha')
      exact htable i hi hr
    · exact (hkept.view a' d' he ha').table i hi
  · by_cases he : a' = a
    · subst he
      obtain rfl := some.inj (ha.symm.trans ha')
      exact hpte n hn hr
    · exact (hkept.view a' d' he ha').pte n (lt_npages hn)

theorem page_setPte (hset : SetPte v v' d n w) (hkept : Kept O {a} v v') (ha : O.roots a = some d)
    (r : Ref A B) (hr : r ≠ .frame a n) : O.page v' r = O.page v r :=
  hkept.page_eq ha (fun i hi _ => hset.table i hi) fun m hm he =>
    hset.rest m (lt_npages hm) fun hmn => hr (hmn ▸ he)

section

variable (h : Own P O v) (hset : SetPte v v' d n w) (hkept : Kept O {a} v v')
  (ha : O.roots a = some d) (hfree : v'.freelist = v.freelist)
include h hset hkept ha hfree

/-- An entry of the kernel can be set to anything. -/
theorem Own.of_setPte_kernel (hn : KERNPAGE ≤ n) : Own P O v' := by
  refine Exclusive.reindex (by rw [hfree]; exact h) id (fun r x hr => ?_) fun _ _ _ _ _ => id
  by_cases he : r = .frame a n
  · subst he
    exact absurd (page_frame_eq_some.1 hr).1 (Nat.not_lt.2 hn)
  · rwa [page_setPte hset hkept ha r he] at hr

/-- The flags of an entry can change. -/
theorem Own.of_setPte_flags (hp : present w = present (v.pte d n))
    (hf : frame w = frame (v.pte d n)) : Own P O v' := by
  refine Exclusive.reindex (by rw [hfree]; exact h) id (fun r x hr => ?_) fun _ _ _ _ _ => id
  by_cases he : r = .frame a n
  · subst he
    obtain ⟨hn, hx⟩ := page_frame_eq_some.1 hr
    refine page_frame_eq_some.2 ⟨hn, d, ha, ?_⟩
    obtain ⟨d', ha', hx⟩ := hx
    obtain rfl := some.inj (ha.symm.trans ha')
    simpa [Mem.mapped, hset.same, hp, hf] using hx
  · rwa [page_setPte hset hkept ha r he] at hr

/-- An entry can be set to a page that nobody owns. -/
theorem Own.of_setPte_map (hn : n < KERNPAGE) (hx : Loose P O v x) (hp : present w = true)
    (hf : frame w = x) : Own P O v' := by
  refine Exclusive.give (.frame a n) (by rw [hfree]; exact h) (by rw [hfree]; exact hx) ?_
    fun r hr => page_setPte hset hkept ha r hr
  rw [page_frame ha hn, Mem.mapped, hset.same, hp, hf]
  rfl

/-- An entry that is cleared gives up its frame. -/
theorem Own.of_setPte_unmap (hn : n < KERNPAGE) (hx : v.mapped d n = some x)
    (hp : present w = false) : Own P O v' ∧ Loose P O v' x := by
  rw [Own, Loose, hfree]
  refine Exclusive.drop (.frame a n) h ((page_frame ha hn).trans hx) ?_
    fun r hr => page_setPte hset hkept ha r hr
  rw [page_frame ha hn, Mem.mapped, hset.same, hp]
  rfl

theorem Loose.of_setPte (hx : Loose P O v x)
    (hne : n < KERNPAGE → present w = true → frame w ≠ x) : Loose P O v' x := by
  rw [Loose, hfree]
  refine Ownership.Loose.congr hx fun r hr => ?_
  by_cases he : r = .frame a n
  · subst he
    obtain ⟨hn, d', ha', hm⟩ := page_frame_eq_some.1 hr
    obtain rfl := some.inj (ha.symm.trans ha')
    rw [Mem.mapped, hset.same] at hm
    split at hm
    · next hp => exact absurd (some.inj hm) (hne hn hp)
    · cases hm
  · rwa [page_setPte hset hkept ha r he] at hr

end

/-- A new table of zeros for the directory `d`, at the index `i`. -/
def Mem.addTable (v : Mem) (d i t : ℕ) : Mem :=
  (v.fill t fun _ => 0).set d i (entry t (PTE_W ||| PTE_U))

/-- How memory looks after a new table. -/
structure AddTable (v v' : Mem) (d i t : ℕ) : Prop where
  same : v'.table d i = some t
  rest : ∀ j, j ≠ i → v'.table d j = v.table d j
  pte : ∀ n < NPAGES, v'.pte d n = v.pte d n

theorem Loose.lt_npages (hx : Loose P O v x) : x < NPAGES := by
  have h := (P.usable x hx.pool).2
  simp only [PHYSTOP, NPAGES] at *
  omega

/-- A page that nobody owns can become a table, with no entries. -/
theorem Own.addTable (h : Own P O v) (ha : O.roots a = some d) (hi : i < NPTENTRIES)
    (hnone : v.table d i = none) (ht : Loose P O v t) : AddTable v (v.addTable d i t) d i t := by
  have hne : d ≠ t := by
    rintro rfl
    exact ht.not_held (.dir a) ha
  have hword : ∀ y, y ≠ t → y ≠ d → (v.addTable d i t).word y = v.word y := fun y hyt hyd => by
    rw [Mem.addTable, set_word_ne hyd, fill_word_ne _ hyt]
  have hsame : (v.addTable d i t).table d i = some t := by
    have hperm : (PTE_W ||| PTE_U).toNat < PGSIZE := by decide
    rw [Mem.table, Mem.addTable, set_word_same, if_pos present_entry,
      frame_entry ht.lt_npages hperm]
  have hrest : ∀ j, j ≠ i → (v.addTable d i t).table d j = v.table d j := fun j hj => by
    refine table_congr ?_
    rw [Mem.addTable, set_word_ne_index hj, fill_word_ne _ hne]
  refine ⟨hsame, hrest, fun n hn => ?_⟩
  by_cases he : PDX n = i
  · subst he
    rw [pte_of_table hsame, pte_of_no_table hnone, Mem.addTable, set_word_ne hne.symm,
      fill_word_same]
  · cases ht' : v.table d (PDX n) with
    | none => rw [pte_of_no_table ht', pte_of_no_table ((hrest _ he).trans ht')]
    | some t' =>
      rw [pte_of_table ht', pte_of_table ((hrest _ he).trans ht'), hword t' ?_
        (h.table_ne_dir ha (PDX_lt hn) ht' ha)]
      rintro rfl
      exact ht.not_held (.table a (PDX n)) ((page_table ha (PDX_lt hn)).trans ht')

theorem Own.kept_addTable (h : Own P O v) (ha : O.roots a = some d) (ht : Loose P O v t) :
    Kept O {a} v (v.addTable d i t) := by
  exact ((ht.kept_fill _).mono (Set.empty_subset _)).trans
    ((ht.own_fill h _).kept_of_write (r := .dir a) (a := a) ha (.inl rfl)
      fun _ hy => set_word_ne hy)

theorem page_addTable (hadd : AddTable v v' d i t) (hkept : Kept O {a} v v')
    (ha : O.roots a = some d) (r : Ref A B) (hr : r ≠ .table a i) : O.page v' r = O.page v r :=
  hkept.page_eq ha (fun j _ he => hadd.rest j fun hji => hr (hji ▸ he)) fun m hm _ =>
    hadd.pte m (lt_npages hm)

/-- It is owned as the table then. -/
theorem Own.of_addTable (h : Own P O v) (hadd : AddTable v v' d i t) (hkept : Kept O {a} v v')
    (ha : O.roots a = some d) (hi : i < NPTENTRIES) (hfree : v'.freelist = v.freelist)
    (ht : Loose P O v t) : Own P O v' := by
  refine Exclusive.give (.table a i) (by rw [hfree]; exact h) (by rw [hfree]; exact ht) ?_
    fun r hr => page_addTable hadd hkept ha r hr
  rw [page_table ha hi, hadd.same]

theorem Loose.of_addTable (hx : Loose P O v x) (hne : x ≠ t) (hadd : AddTable v v' d i t)
    (hkept : Kept O {a} v v') (ha : O.roots a = some d) (hi : i < NPTENTRIES)
    (hfree : v'.freelist = v.freelist) : Loose P O v' x := by
  rw [Loose, hfree]
  refine Ownership.Loose.congr hx fun r hr => ?_
  by_cases he : r = .table a i
  · subst he
    rw [page_table ha hi, hadd.same] at hr
    exact absurd (some.inj hr).symm hne
  · rwa [page_addTable hadd hkept ha r he] at hr

/-! ## More and fewer owners -/

/-- A way to own a page, for renamed owners. -/
def Ref.map (f : A' → A) (g : B' → B) : Ref A' B' → Ref A B
  | .other b => .other (g b)
  | .dir a => .dir (f a)
  | .table a i => .table (f a) i
  | .frame a n => .frame (f a) n

theorem Ref.map_id (r : Ref A B) : r.map id id = r := by
  cases r <;> rfl

/-- The owners `O'` are among the owners `O`. -/
structure Among (O' : Owners A' B') (O : Owners A B) (f : A' → A) (g : B' → B) : Prop where
  roots : ∀ a d, O'.roots a = some d → O.roots (f a) = some d
  others : ∀ b x, O'.others b = some x → O.others (g b) = some x
  roots_inj : ∀ a a' d, O'.roots a = some d → O'.roots a' = some d → f a = f a' → a = a'
  others_inj : ∀ b b' x, O'.others b = some x → O'.others b' = some x → g b = g b' → b = b'

section

variable {f : A' → A} {g : B' → B}

theorem Among.page (hO : Among O' O f g) {r : Ref A' B'} (hr : O'.page v r = some x) :
    O.page v (r.map f g) = some x := by
  cases r with
  | other b => exact hO.others b x hr
  | dir a => exact hO.roots a x hr
  | table a i =>
    obtain ⟨hi, d, ha, ht⟩ := page_table_eq_some.1 hr
    exact page_table_eq_some.2 ⟨hi, d, hO.roots a d ha, ht⟩
  | frame a n =>
    obtain ⟨hn, d, ha, ht⟩ := page_frame_eq_some.1 hr
    exact page_frame_eq_some.2 ⟨hn, d, hO.roots a d ha, ht⟩

theorem Among.root_eq (hO : Among O' O f g) {a a' : A'} (ha : O'.roots a = some d)
    (ha' : O'.roots a' = some d') (he : f a = f a') : a = a' := by
  have hd := hO.roots a d ha
  rw [he, hO.roots a' d' ha'] at hd
  obtain rfl := some.inj hd
  exact hO.roots_inj a a' d' ha ha' he

/-- Fewer owners own their pages exclusively. -/
theorem Own.among (h : Own P O v) (hO : Among O' O f g) : Own P O' v := by
  refine Exclusive.reindex h (Ref.map f g) (fun r x hr => hO.page hr) fun r r' x hr hr' he => ?_
  cases r <;> cases r' <;> simp only [Ref.map, reduceCtorEq, Ref.other.injEq, Ref.dir.injEq,
    Ref.table.injEq, Ref.frame.injEq] at he ⊢
  · exact hO.others_inj _ _ x hr hr' he
  · exact hO.root_eq hr hr' he
  · obtain ⟨-, d, ha, -⟩ := page_table_eq_some.1 hr
    obtain ⟨-, d', ha', -⟩ := page_table_eq_some.1 hr'
    exact ⟨hO.root_eq ha ha' he.1, he.2⟩
  · obtain ⟨-, d, ha, -⟩ := page_frame_eq_some.1 hr
    obtain ⟨-, d', ha', -⟩ := page_frame_eq_some.1 hr'
    exact ⟨hO.root_eq ha ha' he.1, he.2⟩

theorem Kept.among (h : Kept O X v v') (hO : Among O' O f g) {Y : Set A'}
    (hX : ∀ a d, O'.roots a = some d → a ∉ Y → f a ∉ X) : Kept O' Y v v' :=
  ⟨fun a d ha hd => h.view (f a) d (hX a d hd ha) (hO.roots a d hd),
    fun b x hb => h.word (g b) x (hO.others b x hb)⟩

end

/-- Nobody owns a page. -/
def Owners.empty : Owners Empty Empty :=
  ⟨nofun, nofun⟩

/-- With no owners, the free list owns its pages. -/
theorem own_empty (hnodup : v.freelist.Nodup) (hpool : ∀ x ∈ v.freelist, P.mem x) :
    Own P Owners.empty v where
  inj r := by rcases r with b | a | a | a <;> exact nomatch ‹Empty›
  not_free r := by rcases r with b | a | a | a <;> exact nomatch ‹Empty›
  nodup := hnodup
  pool_free := hpool
  pool_held r := by rcases r with b | a | a | a <;> exact nomatch ‹Empty›

/-- One more directory. -/
def Owners.addRoot (O : Owners A B) (d : ℕ) : Owners (Option A) B where
  roots a := a.elim (some d) O.roots
  others := O.others

/-- One more page. -/
def Owners.hold (O : Owners A B) (x : ℕ) : Owners A (Option B) where
  roots := O.roots
  others b := b.elim (some x) O.others

/-- The directory of `a` is nobody's. -/
def Owners.dropRoot [DecidableEq A] (O : Owners A B) (a : A) : Owners A B :=
  { O with roots := update O.roots a none }

theorem among_addRoot (O : Owners A B) (d : ℕ) : Among O (O.addRoot d) some id :=
  ⟨fun _ _ => id, fun _ _ => id, fun _ _ _ _ _ => some.inj, fun _ _ _ _ _ => id⟩

theorem among_hold (O : Owners A B) (x : ℕ) : Among O (O.hold x) id some :=
  ⟨fun _ _ => id, fun _ _ => id, fun _ _ _ _ _ => id, fun _ _ _ _ _ => some.inj⟩

theorem dropRoot_roots [DecidableEq A] {a' : A} (h : (O.dropRoot a).roots a' = some d) :
    a' ≠ a ∧ O.roots a' = some d := by
  by_cases he : a' = a
  · subst he
    simp [Owners.dropRoot] at h
  · exact ⟨he, by simpa [Owners.dropRoot, he] using h⟩

theorem among_dropRoot [DecidableEq A] (O : Owners A B) (a : A) :
    Among (O.dropRoot a) O id id :=
  ⟨fun _ _ h => (dropRoot_roots h).2, fun _ _ => id, fun _ _ _ _ _ => id, fun _ _ _ _ _ => id⟩

/-- A page that nobody owns can be held. -/
theorem Own.hold (h : Own P O v) (hx : Loose P O v x) : Own P (O.hold x) v := by
  refine Exclusive.extend h hx (Ref.map id some) (.other none) fun r y hr => ?_
  cases r with
  | other b =>
    cases b with
    | none => exact .inl ⟨rfl, (some.inj hr).symm⟩
    | some b => exact .inr ⟨.other b, rfl, hr⟩
  | dir a => exact .inr ⟨.dir a, rfl, hr⟩
  | table a i => exact .inr ⟨.table a i, rfl, hr⟩
  | frame a n => exact .inr ⟨.frame a n, rfl, hr⟩

/-- A page of zeros that nobody owns can become a directory. -/
theorem Own.addRoot (h : Own P O v) (hd : Loose P O v d) (hzero : ∀ i, v.word d i = 0) :
    Own P (O.addRoot d) v := by
  have htable : ∀ i, v.table d i = none := fun i => by
    rw [Mem.table, hzero i, present_zero]
    rfl
  refine Exclusive.extend h hd (Ref.map some id) (.dir none) fun r y hr => ?_
  cases r with
  | other b => exact .inr ⟨.other b, rfl, hr⟩
  | dir a =>
    cases a with
    | none => exact .inl ⟨rfl, (some.inj hr).symm⟩
    | some a => exact .inr ⟨.dir a, rfl, hr⟩
  | table a i =>
    cases a with
    | none =>
      obtain ⟨-, d', ha, ht⟩ := page_table_eq_some.1 hr
      obtain rfl := some.inj ha
      simp [htable] at ht
    | some a => exact .inr ⟨.table a i, rfl, hr⟩
  | frame a n =>
    cases a with
    | none =>
      obtain ⟨-, d', ha, ht⟩ := page_frame_eq_some.1 hr
      obtain rfl := some.inj ha
      simp [Mem.mapped, pte_of_no_table (htable _), present_zero] at ht
    | some a => exact .inr ⟨.frame a n, rfl, hr⟩

theorem page_dropRoot [DecidableEq A] {r : Ref A B} (hr : (O.dropRoot a).page v r = some x) :
    O.page v r = some x ∧ ¬(r = .dir a ∨ ∃ i, r = .table a i) := by
  have hne : ∀ {a' d}, (O.dropRoot a).roots a' = some d → a' ≠ a := fun h => (dropRoot_roots h).1
  refine ⟨Ref.map_id r ▸ (among_dropRoot O a).page hr, ?_⟩
  rintro (rfl | ⟨i, rfl⟩)
  · exact hne hr rfl
  · obtain ⟨-, d, ha, -⟩ := page_table_eq_some.1 hr
    exact hne ha rfl

/-- When an address space goes, nobody owns its directory and tables. -/
theorem Own.loose_dropRoot [DecidableEq A] (h : Own P O v) {r : Ref A B}
    (hr : r = .dir a ∨ ∃ i, r = .table a i) (hx : O.page v r = some x) :
    Loose P (O.dropRoot a) v x := by
  refine ⟨h.not_free r x hx, fun r' hr' => ?_, h.pool_held r x hx⟩
  obtain ⟨hr', hne⟩ := page_dropRoot hr'
  exact hne (h.inj r r' x hx hr' ▸ hr)

end

end Xv6.Vm
