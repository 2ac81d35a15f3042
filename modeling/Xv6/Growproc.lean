import Xv6.Grants

/-!
# Growing and shrinking a process

`allocuvm` ignores the result of `mappages`. When there is a page for the data and none for the
page table it needs, the page is lost, and the loop goes on as if it were mapped. Where no call of
`kalloc` for a page table is the first to fail (`TableGranted`), `allocuvm` maps every page, or has
no effect on the pages mapped and on the data pages (`AllocOk`).

`growproc` takes the size 0 for a failure, so a process that shrinks to nothing loses its memory
and is told that it failed; a size below zero is one above `KERNBASE` to `deallocuvm`, so the call
succeeds and does nothing.
-/

set_option linter.unusedSectionVars false

open Ownership (Exclusive)
open Prog Finset

namespace Xv6.Vm

/-- The flags of a page of the user. -/
def userPerm (_ : ℕ) : UInt32 :=
  PTE_W ||| PTE_U

/-- The contents of a new page. -/
def zeroPage (_ _ : ℕ) : UInt32 :=
  0

section

variable {K : Link} {P : Pool K} {A B : Type} {O : Owners A B} {v0 v v' : Mem}
  {a : A} {d n lo : ℕ} {ok : Bool} {E : Stop → Mem → Prop} {oldsz newsz : UInt32}

theorem userPerm_lt (m : ℕ) : (userPerm m).toNat < PGSIZE := by
  have h : (PTE_W ||| PTE_U).toNat < PGSIZE := by decide
  exact h

theorem pageUp_mono {sz sz' : UInt32} (h : sz ≤ sz') : pageUp sz ≤ pageUp sz' := by
  rw [UInt32.le_iff_toNat_le] at h
  exact Nat.div_le_div_right (by omega)

/-! ## Page tables for a range -/

/-- Page `n` is the first from page `lo` on of a page table that is missing. -/
def NewTable (v : Mem) (d lo n : ℕ) : Prop :=
  v.table d (PDX n) = none ∧ (n = lo ∨ PTX n = 0)

instance (v : Mem) (d lo : ℕ) : DecidablePred (NewTable v d lo) := fun _ => instDecidableAnd

/-- The calls of `kalloc` for the pages from `lo` to `n` : one for each page, and one for each page
table that is missing. -/
def allocCost (v : Mem) (d lo n : ℕ) : ℕ :=
  n - lo + ((Finset.Ico lo n).filter (NewTable v d lo)).card

/-- If page `n` needs a page table, the call of `kalloc` for it is not the first to fail. -/
def TableGranted (v : Mem) (d lo n : ℕ) : Prop :=
  NewTable v d lo n → Grants v (allocCost v d lo n + 1) → Grants v (allocCost v d lo n + 2)

/-- The calls of `kalloc` for the pages from `lo` to `n` : with `ok` they all found a page, else one
for a page table did not. -/
structure Tracked (v0 : Mem) (d lo n : ℕ) (ok : Bool) (v : Mem) : Prop where
  granted : ok = true → Drawn v0 (allocCost v0 d lo n) v ∧
    ∀ m, lo ≤ m → m < n → TableGranted v0 d lo m
  lost : ok = false → ∃ m, lo ≤ m ∧ m < n ∧ ¬TableGranted v0 d lo m ∧
    (v0.fails = [] → m + 1 = n ∧ v.freelist = [])

/-- The calls of `kalloc` for the pages from `lo` to `hi` at the end : `r` if there was a page for
each, and `ok` if there was a table whenever there was a page. -/
structure Ended (v0 : Mem) (d lo hi : ℕ) (r ok : Bool) : Prop where
  tables : ok = true ↔ ∀ m, lo ≤ m → m < hi → TableGranted v0 d lo m
  pages : r = false → ok = true → ¬Grants v0 (allocCost v0 d lo hi)
  last : v0.fails = [] →
    (r = true ∧ ok = false ↔ ∃ m, lo ≤ m ∧ m + 1 = hi ∧ ¬TableGranted v0 d lo m)

theorem allocCost_succ (hlo : lo ≤ n) :
    allocCost v d lo (n + 1) = allocCost v d lo n + 1 + if NewTable v d lo n then 1 else 0 := by
  rw [allocCost, allocCost, Nat.Ico_succ_right_eq_insert_Ico hlo, filter_insert]
  split_ifs
  · rw [card_insert_of_notMem (by simp)]
    omega
  · omega

theorem allocCost_mono {m : ℕ} (h : n ≤ m) : allocCost v d lo n ≤ allocCost v d lo m :=
  Nat.add_le_add (Nat.sub_le_sub_right h lo)
    (card_le_card (filter_subset_filter _ (Finset.Ico_subset_Ico_right h)))

theorem tableGranted_of_not_grants {m : ℕ} (h : ¬Grants v (allocCost v d lo n + 1))
    (hm : n ≤ m) : TableGranted v d lo m := fun _ hg =>
  absurd (hg.mono (Nat.succ_le_succ (allocCost_mono hm))) h

theorem Tracked.start (v : Mem) (d lo : ℕ) : Tracked v d lo lo true v := by
  refine ⟨fun _ => ⟨?_, fun m hm hm' => absurd hm' (by omega)⟩, nofun⟩
  rw [allocCost, Nat.sub_self, Finset.Ico_self]
  exact Drawn.refl v

/-- The call for the data of page `n` found a page, and `b` says whether there is a table. -/
theorem Tracked.step {v1 v2 : Mem} {x : ℕ} {b : Bool} (h : Tracked v0 d lo n ok v) (hlo : lo ≤ n)
    (hl : v.freelist = x :: v1.freelist)
    (hd1 : ok = true → Drawn v0 (allocCost v0 d lo n + 1) v1)
    (hd2 : ok = true → Draws v0 (allocCost v0 d lo n + 1) (NewTable v0 d lo n) (· = true) b v2)
    (hl2 : b = false → v2.freelist = v1.freelist) : Tracked v0 d lo (n + 1) (ok && b) v2 := by
  cases ok with
  | false =>
    obtain ⟨m, hm, hm', hno, hlast⟩ := h.lost rfl
    refine ⟨nofun, fun _ => ⟨m, hm, by omega, hno, fun hf => ?_⟩⟩
    rw [(hlast hf).2] at hl
    cases hl
  | true =>
    obtain ⟨-, htab⟩ := h.granted rfl
    obtain ⟨hnew, hold⟩ := hd2 rfl
    have hg := (hd1 rfl).grants
    rw [Bool.true_and]
    cases b with
    | true =>
      refine ⟨fun _ => ⟨?_, fun m hm hm' => ?_⟩, nofun⟩
      · rw [allocCost_succ hlo]
        split_ifs with hn
        · exact (hnew hn).2 rfl
        · exact (hold hn).2
      · rcases Nat.lt_succ_iff_lt_or_eq.1 hm' with hlt | rfl
        · exact htab m hm hlt
        · exact fun hn _ => (hnew hn).1.1 rfl
    | false =>
      have hn : NewTable v0 d lo n := by
        by_contra hn
        exact Bool.false_ne_true (hold hn).1
      have hno : ¬Grants v0 (allocCost v0 d lo n + 2) := mt (hnew hn).1.2 Bool.false_ne_true
      refine ⟨nofun, fun _ => ⟨n, hlo, by omega, fun ht => hno (ht hn hg), fun hf => ⟨rfl, ?_⟩⟩⟩
      rw [hl2 rfl, (hd1 rfl).freelist, List.drop_eq_nil_iff]
      by_contra hlt
      exact hno ⟨by omega, by simp [hf]⟩

theorem Tracked.tables {hi : ℕ} (h : Tracked v0 d lo n ok v) (hn : n ≤ hi)
    (hrest : ok = true → ∀ m, n ≤ m → m < hi → TableGranted v0 d lo m) :
    ok = true ↔ ∀ m, lo ≤ m → m < hi → TableGranted v0 d lo m := by
  constructor
  · intro hok m hm hm'
    by_cases hlt : m < n
    · exact (h.granted hok).2 m hm hlt
    · exact hrest hok m (by omega) hm'
  · intro hall
    by_contra hok
    obtain ⟨m, hm, hm', hno, -⟩ := h.lost (Bool.eq_false_iff.2 hok)
    exact hno (hall m hm (by omega))

theorem Tracked.ended (h : Tracked v0 d lo n ok v) : Ended v0 d lo n true ok := by
  have htab := h.tables le_rfl fun _ m hm hm' => absurd hm' (by omega)
  refine ⟨htab, by simp, fun hf => ⟨fun hok => ?_, ?_⟩⟩
  · obtain ⟨m, hm, -, hno, hlast⟩ := h.lost hok.2
    exact ⟨m, hm, (hlast hf).1, hno⟩
  · rintro ⟨m, hm, hm', hno⟩
    exact ⟨rfl, Bool.eq_false_iff.2 fun hok => hno (htab.1 hok m hm (by omega))⟩

theorem Tracked.refused {hi : ℕ} (h : Tracked v0 d lo n ok v) (hlo : lo ≤ n) (hhi : n < hi)
    (hno : ok = true → ¬Grants v0 (allocCost v0 d lo n + 1)) : Ended v0 d lo hi false ok := by
  have hcost : allocCost v0 d lo (n + 1) ≤ allocCost v0 d lo hi := allocCost_mono hhi
  rw [allocCost_succ hlo] at hcost
  refine ⟨h.tables hhi.le fun hok m hm _ => tableGranted_of_not_grants (hno hok) hm,
    fun _ hok hg => hno hok (hg.mono (by omega)),
    fun hf => iff_of_false (fun hr => Bool.false_ne_true hr.1) ?_⟩
  rintro ⟨m, hm, hm', hnot⟩
  cases ok with
  | true => exact hnot (tableGranted_of_not_grants (hno rfl) (by omega))
  | false =>
    -- a table was missing just before, so there is no page left at the end of the range either
    obtain ⟨k, hk, -, hlost, hlast⟩ := h.lost rfl
    have hkn := (hlast hf).1
    simp only [TableGranted, Classical.not_imp] at hnot hlost
    have hcost : allocCost v0 d lo (k + 1) ≤ allocCost v0 d lo m := allocCost_mono (by omega)
    rw [allocCost_succ hk, if_pos hlost.1] at hcost
    exact hlost.2.2 (hnot.2.1.mono (by omega))

theorem Filling.newTable {perm : ℕ → UInt32} {c : ℕ → ℕ → UInt32}
    (hf : Filling P O a d perm c lo n true v0 v) (hlo : lo ≤ n) (hn : n < NPAGES) :
    v.table d (PDX n) = none ↔ NewTable v0 d lo n := by
  by_cases hfirst : n = lo ∨ PTX n = 0
  · rw [NewTable, and_iff_left hfirst, hf.table _ (PDX_lt hn)]
    intro m hm hm'
    simp only [PDX, PTX, NPTENTRIES] at *
    omega
  · refine iff_of_false ?_ fun h => hfirst h.2
    have hpdx : PDX n = PDX (n - 1) := by
      simp only [PDX, PTX, NPTENTRIES] at *
      omega
    rw [hpdx]
    exact table_ne_none (hf.full rfl (n - 1) (by omega) (by omega))

/-! ## `allocuvm` -/

/-- What the loop of `allocuvm` leaves : the range is filled, or what was filled of it is given
up. -/
def AllocEnd (P : Pool K) (O : Owners A B) (a : A) (d lo hi : ℕ) (v0 : Mem) (r : Bool)
    (v' : Mem) : Prop :=
  ∃ ok, Ended v0 d lo hi r ok ∧
    match r with
    | true => Filling P O a d userPerm zeroPage lo hi ok v0 v' ∧
      (ok = true → Drawn v0 (allocCost v0 d lo hi) v')
    | false => ∃ n v1, lo ≤ n ∧ n < hi ∧ Filling P O a d userPerm zeroPage lo n ok v0 v1 ∧
      (∀ y, Loose P O v1 y → Loose P O v' y) ∧
      (Steps v1 d lo hi → Undone P O a d lo hi v1 v')

/-- The loop maps page by page. -/
theorem allocLoop_filling (ha : O.roots a = some d) (hnew : newsz < KERNBASE) :
    ∀ (count n : ℕ) (v : Mem) (ok : Bool),
      Filling P O a d userPerm zeroPage (pageUp oldsz) n ok v0 v →
      Tracked v0 d (pageUp oldsz) n ok v → pageUp oldsz ≤ n → n + count = pageUp newsz →
      (∀ m, n ≤ m → m < pageUp newsz → present (v0.pte d m) = false) →
      wp (allocLoop K d oldsz newsz count n)
        (AllocEnd P O a d (pageUp oldsz) (pageUp newsz) v0) E v
  | 0, n, v, ok, hf, ht, _, hcount, _ => by
    obtain rfl : n = pageUp newsz := hcount
    exact ⟨ok, ht.ended, hf, fun hok => (ht.granted hok).1⟩
  | count + 1, n, v, ok, hf, ht, hlo, hcount, hp => by
    have hKERN := pageUp_le (UInt32.le_of_lt hnew)
    unfold allocLoop
    obtain ⟨r, v1, hrun, hw, hown, hr⟩ := exists_ok_of_wp (kalloc_spec hf.grew.own)
    have hdrawn := fun hok => wp_ok (E := fun _ _ => True) (kalloc_drawn (ht.granted hok).1) hrun
    rw [wp_bind, wp_iff_of_ok hrun]
    cases r with
    | none =>
      dsimp only
      have hlt : oldsz < newsz := by
        refine UInt32.not_le.1 fun hle => ?_
        have := pageUp_mono hle
        omega
      unfold deallocuvm
      rw [if_neg (UInt32.not_le.2 hlt), bind_assoc]
      refine wp_seq (deallocLoop_undone ha hKERN (pageUp newsz) (pageUp oldsz) v1 hown
        (Nat.le_add_left _ _)) ?_
      rintro _ v' ⟨hloose, hundone⟩
      exact ⟨ok, ht.refused hlo (by omega) fun hok hg => absurd rfl ((hdrawn hok).1.2 hg),
        n, v1, hlo, by omega, hf.of_word_eq hown hw hr.1, hloose, hundone⟩
    | some x =>
      obtain ⟨hx, hl⟩ := hr
      simp only [wp_bind, wp_modify]
      obtain ⟨b, v2, hrun2, hf2, hb⟩ := exists_ok_of_wp (hf.map _ ha hlo (by omega)
        (hp n le_rfl (by omega)) (userPerm_lt n) hown hw hx hl)
      change mappages d (PTE_W ||| PTE_U) 1 n x (v1.fill x fun _ => 0) = .ok b v2 at hrun2
      rw [wp_iff_of_ok hrun2]
      have hd1 := fun hok => (hdrawn hok).2 (Option.some_ne_none x)
      have ht2 : Tracked v0 d (pageUp oldsz) (n + 1) (ok && b) v2 := by
        refine ht.step hlo hl hd1 (fun hok => ?_) fun hb' => by simpa [hb'] using hb
        subst hok
        have hview := (hx.kept_fill fun _ => 0).view a d id ha
        have hd2 : Drawn v0 (allocCost v0 d (pageUp oldsz) n + 1) (v1.fill x fun _ => 0) :=
          (hd1 rfl).congr rfl rfl
        have hmap := wp_ok (mapUser_drawn hd2) hrun2
        rwa [hview.table _ (PDX_lt (lt_npages (by omega))), table_congr (v := v) (by rw [hw]),
          hf.newTable hlo (lt_npages (by omega))] at hmap
      exact allocLoop_filling ha hnew count (n + 1) v2 (ok && b) hf2 ht2 (by omega) (by omega)
        fun m hm hm' => hp m (by omega) hm'

/-- `allocuvm` fills the range and returns the new size, or gives up what it filled. -/
theorem allocuvm_filling (h : Own P O v) (ha : O.roots a = some d)
    (hp : ∀ m, pageUp oldsz ≤ m → m < pageUp newsz → present (v.pte d m) = false)
    (hle : oldsz ≤ newsz) (hlt : newsz < KERNBASE) :
    wp (allocuvm K d oldsz newsz) (fun r v' =>
      r = newsz ∧ AllocEnd P O a d (pageUp oldsz) (pageUp newsz) v true v' ∨
      r = 0 ∧ AllocEnd P O a d (pageUp oldsz) (pageUp newsz) v false v') E v := by
  have hup := pageUp_mono hle
  unfold allocuvm
  rw [if_neg (UInt32.not_le.2 hlt), if_neg (UInt32.not_lt.2 hle)]
  refine wp_seq (allocLoop_filling ha hlt _ _ v true (Filling.start h) (Tracked.start v d _) le_rfl
    (by omega) hp) ?_
  rintro r v' hr
  cases r with
  | true => exact .inl ⟨rfl, hr⟩
  | false => exact .inr ⟨rfl, hr⟩

/-- What `allocuvm` is to do, from the memory `v` : it returns the new size and every page of the
range has a frame of zeros that was free, or it returns 0 and maps nothing more. A page that was
free is free, a table, or, where the range is mapped, a frame of it. -/
structure AllocOk (P : Pool K) (O : Owners A B) (d : ℕ) (oldsz newsz : UInt32) (v : Mem)
    (r : UInt32) (v' : Mem) : Prop where
  own : Own P O v'
  result : (r = newsz ∧ ∀ m, pageUp oldsz ≤ m → m < pageUp newsz → ∃ x ∈ v.freelist,
      v'.mapped d m = some x ∧ v'.pte d m = entry x (PTE_W ||| PTE_U) ∧ ∀ i, v'.word x i = 0) ∨
    r = 0 ∧ ∀ m < KERNPAGE, present (v'.pte d m) = true → v'.pte d m = v.pte d m
  free : ∀ y ∈ v.freelist, y ∈ v'.freelist ∨
    (∃ i < NPTENTRIES, v.table d i = none ∧ v'.table d i = some y) ∨
    r = newsz ∧ ∃ m, pageUp oldsz ≤ m ∧ m < pageUp newsz ∧ v'.mapped d m = some y

theorem AllocOk.not_loose {r : UInt32} (hok : AllocOk P O d oldsz newsz v r v')
    (ha : O.roots a = some d) (hnew : newsz < KERNBASE) {x : ℕ} (hx : x ∈ v.freelist)
    (hloose : Loose P O v' x) : False := by
  have hKERN := pageUp_le (UInt32.le_of_lt hnew)
  rcases hok.free x hx with hfree | ⟨i, hi, -, ht⟩ | ⟨-, m, -, hm, hmapped⟩
  · exact hloose.not_free hfree
  · exact hloose.not_held (.table a i) ((page_table ha hi).trans ht)
  · exact hloose.not_held (.frame a m) ((page_frame ha (by omega)).trans hmapped)

theorem Filling.steps {hi last : ℕ} {perm : ℕ → UInt32} {c : ℕ → ℕ → UInt32}
    (hf : Filling P O a d perm c lo hi true v0 v) (hlo : lo ≤ hi) (hlast : last ≤ NPAGES)
    (hp : ∀ m, lo ≤ m → m < last → present (v0.pte d m) = false) : Steps v d lo last := by
  rcases hlo.eq_or_lt with rfl | hlt
  · refine .inr (.inr fun m hm hm' => ?_)
    rw [hf.pte m (by omega) (by omega)]
    exact hp m hm hm'
  · exact .inr (.inl (table_ne_none (hf.full rfl lo le_rfl hlt)))

theorem Filling.undone {hi last : ℕ} {perm : ℕ → UInt32} {c : ℕ → ℕ → UInt32} {v1 : Mem}
    (hf : Filling P O a d perm c lo hi ok v v1) (hu : Undone P O a d lo last v1 v')
    (hhi : hi ≤ last) (n : ℕ) (hn : n < NPAGES) (hp : present (v'.pte d n) = true) :
    v'.pte d n = v.pte d n := by
  by_cases hin : lo ≤ n ∧ n < last
  · rw [hu.gone n hin.1 hin.2] at hp
    cases hp
  · rw [hu.pte n hn hin, hf.pte n hn (by omega)]

/-- `allocuvm` returns, and does what it is to do unless a page that it took cannot be mapped. -/
theorem allocuvm_ok_iff (h : Own P O v) (ha : O.roots a = some d)
    (hp : ∀ m, pageUp oldsz ≤ m → m < KERNPAGE → present (v.pte d m) = false)
    (hle : oldsz ≤ newsz) (hlt : newsz < KERNBASE) :
    ∃ r v', allocuvm K d oldsz newsz v = .ok r v' ∧
      (AllocOk P O d oldsz newsz v r v' ↔
        ∀ n, pageUp oldsz ≤ n → n < pageUp newsz → TableGranted v d (pageUp oldsz) n) := by
  have hKERN := pageUp_le (UInt32.le_of_lt hlt)
  have hN : pageUp newsz ≤ NPAGES := hKERN.trans (by decide)
  have hp' : ∀ m, pageUp oldsz ≤ m → m < pageUp newsz → present (v.pte d m) = false :=
    fun m hm hm' => hp m hm (by omega)
  obtain ⟨r, v', hrun, hr⟩ := exists_ok_of_wp (allocuvm_filling h ha hp' hle hlt)
  refine ⟨r, v', hrun, ?_⟩
  rcases hr with ⟨rfl, ok, hend, hf, -⟩ | ⟨rfl, ok, hend, hi, v1, hlo, hhi, hf, hloose, hundone⟩
  · rw [← hend.tables]
    refine ⟨fun hok => ?_, ?_⟩
    · by_contra hno
      obtain ⟨x, hx, hl⟩ := hf.lost (Bool.eq_false_iff.2 hno)
      exact hok.not_loose ha hlt hx hl
    · rintro rfl
      refine ⟨hf.grew.own, .inl ⟨rfl, fun m hm hm' => ?_⟩, fun y hy => ?_⟩
      · obtain ⟨x, hx, hmapped, hpte, hword⟩ := hf.page m hm hm' (hf.full rfl m hm hm')
        exact ⟨x, hx, hmapped, hpte, fun i => by rw [hword]; rfl⟩
      · exact (hf.free rfl y hy).imp_right (Or.imp_right fun hm => ⟨rfl, hm⟩)
  · rw [← hend.tables]
    refine ⟨fun hok => ?_, ?_⟩
    · by_contra hno
      obtain ⟨x, hx, hl⟩ := hf.lost (Bool.eq_false_iff.2 hno)
      exact hok.not_loose ha hlt hx (hloose x hl)
    · rintro rfl
      have hu := hundone (hf.steps hlo hN hp')
      refine ⟨hu.own, .inr ⟨rfl, fun m hm => hf.undone hu hhi.le m (lt_npages hm)⟩,
        fun y hy => ?_⟩
      rcases hf.free rfl y hy with hfree | ⟨i, hi, hnone, hsome⟩ | ⟨m, hm, hm', hmapped⟩
      · exact .inl ((hu.free y).2 (.inl hfree))
      · exact .inr (.inl ⟨i, hi, hnone, (hu.table i hi).trans hsome⟩)
      · exact .inl ((hu.free y).2 (.inr ⟨m, hm, hm'.trans hhi, hmapped⟩))

end

/-! ## A page and no table -/

/-- A kernel of 512 pages. -/
def smallKernel : Link :=
  ⟨0x101, 0x200, by decide, by decide, by decide⟩

/-- All pages that can be allocated. -/
def Pool.all (K : Link) : Pool K :=
  ⟨fun x => K.kend ≤ x ∧ x < PHYSTOP, fun _ => id⟩

/-- Memory of zeros with the free pages `l`. -/
def zeroMem (l : List ℕ) : Mem :=
  ⟨fun _ _ => 0, l, [], []⟩

theorem zeroMem_pte (l : List ℕ) (d n : ℕ) : (zeroMem l).pte d n = 0 :=
  pte_of_no_table (by simp [Mem.table, zeroMem, present_zero])

theorem own_zeroMem {K : Link} {l : List ℕ} {d : ℕ} (hnodup : (d :: l).Nodup)
    (hpool : ∀ x ∈ d :: l, K.kend ≤ x ∧ x < PHYSTOP) :
    Own (Pool.all K) (Owners.empty.addRoot d) (zeroMem l) := by
  obtain ⟨hd, hl⟩ := List.nodup_cons.1 hnodup
  obtain ⟨hdpool, hlpool⟩ := List.forall_mem_cons.1 hpool
  refine (own_empty hl hlpool).addRoot ⟨hd, fun r => ?_, hdpool⟩ fun _ => rfl
  rcases r with b | a | a | a <;> exact Empty.elim ‹_›

/-- With one free page, `allocuvm` returns the size it was asked for, maps nothing and loses the
page. -/
theorem allocuvm_loses_page :
    Own (Pool.all smallKernel) (Owners.empty.addRoot 0x400) (zeroMem [0x401]) ∧
      (∀ m, present ((zeroMem [0x401]).pte 0x400 m) = false) ∧
      ∃ v', allocuvm smallKernel 0x400 0 4096 (zeroMem [0x401]) = .ok 4096 v' ∧
        present (v'.pte 0x400 0) = false ∧ v'.freelist = [] ∧ v'.table 0x400 0 = none := by
  refine ⟨own_zeroMem (by decide) (by decide), fun m => by rw [zeroMem_pte, present_zero], ?_⟩
  have hrun : wp (allocuvm smallKernel 0x400 0 4096) (fun r v' => r = 4096 ∧
      present (v'.pte 0x400 0) = false ∧ v'.freelist = [] ∧ v'.table 0x400 0 = none)
      (fun _ _ => False) (zeroMem [0x401]) := by
    have hup : pageUp 4096 - pageUp 0 = 1 := by decide
    unfold allocuvm
    rw [if_neg (by decide), if_neg (by decide), hup]
    simp [allocLoop, kalloc, mappages, walkpgdir, zeroMem, Mem.fill, present_zero, Mem.pte,
      Mem.table, PDX]
  obtain ⟨r, v', hok, rfl, hv'⟩ := exists_ok_of_wp hrun
  exact ⟨v', hok, hv'⟩

/-- With two free pages there is one for the table, and it maps the other. -/
theorem allocuvm_ok_iff_two :
    (∀ n, pageUp 0 ≤ n → n < pageUp 4096 →
      TableGranted (zeroMem [0x401, 0x402]) 0x400 (pageUp 0) n) ∧
    ∃ r v', allocuvm smallKernel 0x400 0 4096 (zeroMem [0x401, 0x402]) = .ok r v' ∧
      AllocOk (Pool.all smallKernel) (Owners.empty.addRoot 0x400) 0x400 0 4096
        (zeroMem [0x401, 0x402]) r v' := by
  have htab : ∀ n, pageUp 0 ≤ n → n < pageUp 4096 →
      TableGranted (zeroMem [0x401, 0x402]) 0x400 (pageUp 0) n := by
    intro n _ hn
    obtain rfl : n = 0 := Nat.lt_one_iff.1 hn
    exact fun _ _ => ⟨by decide, nofun⟩
  obtain ⟨r, v', hrun, hiff⟩ := allocuvm_ok_iff (K := smallKernel) (a := none)
    (own_zeroMem (l := [0x401, 0x402]) (d := 0x400) (by decide) (by decide)) rfl
    (fun m _ _ => by rw [zeroMem_pte, present_zero]) (show (0 : UInt32) ≤ 4096 by decide)
    (by decide)
  exact ⟨htab, r, v', hrun, hiff.2 htab⟩

/-! ## `growproc` -/

/-- Of the pages below `KERNBASE`, those below page `N` are mapped and no others. -/
def Sized (v : Mem) (d N : ℕ) : Prop :=
  ∀ m < KERNPAGE, present (v.pte d m) = true ↔ m < N

/-- Page `m` is mapped as it was, and its frame holds what it held. -/
def SamePage (v v' : Mem) (d m : ℕ) : Prop :=
  v'.pte d m = v.pte d m ∧ v'.word (frame (v.pte d m)) = v.word (frame (v.pte d m))

/-- What `growproc` is to do for a process of `sz` bytes : it returns the new size and the pages
of that size are mapped, the old ones as they were and the new ones to pages of zeros, or it
fails and nothing changes. -/
def GrowOk (d : ℕ) (sz : UInt32) (n : Int32) (v : Mem) (r : Option UInt32) (v' : Mem) : Prop :=
  match r with
  | some sz' => (sz'.toNat : ℤ) = sz.toNat + n.toInt ∧ sz' < KERNBASE ∧ Sized v' d (pageUp sz') ∧
    (∀ m < min (pageUp sz) (pageUp sz'), SamePage v v' d m) ∧
    ∀ m, pageUp sz ≤ m → m < pageUp sz' → ∃ x, v'.mapped d m = some x ∧ ∀ i, v'.word x i = 0
  | none => (∀ m < KERNPAGE, present (v'.pte d m) = present (v.pte d m)) ∧
    ∀ m < pageUp sz, SamePage v v' d m

section

variable {K : Link} {P : Pool K} {A B : Type} {O : Owners A B} {v v1 v' : Mem}
  {a : A} {d m N lo hi : ℕ} {ok : Bool} {E : Stop → Mem → Prop} {sz : UInt32} {n : Int32}

theorem SamePage.refl (v : Mem) (d m : ℕ) : SamePage v v d m :=
  ⟨rfl, rfl⟩

theorem SamePage.trans (h : SamePage v v1 d m) (h' : SamePage v1 v' d m) : SamePage v v' d m := by
  obtain ⟨hpte, hword⟩ := h
  obtain ⟨hpte', hword'⟩ := h'
  rw [hpte] at hpte' hword'
  exact ⟨hpte', hword'.trans hword⟩

theorem Own.pages_le (h : Own P O v) (ha : O.roots a = some d)
    (hsz : ∀ m < KERNPAGE, m < N → present (v.pte d m) = true) : N ≤ PHYSTOP := by
  by_contra hN
  have hlt : ∀ m ∈ Finset.range (PHYSTOP + 1), m < KERNPAGE ∧ m < N := fun m hm => by
    have := mem_range.1 hm
    simp only [PHYSTOP, KERNPAGE] at *
    omega
  have hp : ∀ m ∈ Finset.range (PHYSTOP + 1), present (v.pte d m) = true := fun m hm =>
    hsz m (hlt m hm).1 (hlt m hm).2
  have hcard : (Finset.range (PHYSTOP + 1)).card ≤ (Finset.range PHYSTOP).card := by
    refine card_le_card_of_injOn (fun m => frame (v.pte d m)) (fun m hm => ?_)
      fun m hm m' hm' he => ?_
    · exact mem_coe.2 (mem_range.2
        (h.mapped_usable ha (hlt m hm).1 (hp m hm)).2)
    · have hr := (page_frame (v := v) ha (hlt m hm).1).trans (mapped_of_present (hp m hm))
      have hr' := (page_frame (v := v) ha (hlt m' hm').1).trans (mapped_of_present (hp m' hm'))
      exact (Ref.frame.inj (h.inj _ _ _ hr (hr'.trans (congrArg some he.symm)))).2
  rw [card_range, card_range] at hcard
  omega

theorem Undone.samePage (h : Own P O v) (ha : O.roots a = some d)
    (hu : Undone P O a d lo hi v v') (hhi : hi ≤ KERNPAGE) (hm : m < KERNPAGE)
    (hout : ¬(lo ≤ m ∧ m < hi)) (hp : present (v.pte d m) = true) : SamePage v v' d m := by
  have hr : O.page v (.frame a m) = some (frame (v.pte d m)) :=
    (page_frame ha hm).trans (mapped_of_present hp)
  refine ⟨hu.pte m (lt_npages hm) hout, hu.word _ (fun i hi ht => ?_) fun k hk hk' hmapped => ?_⟩
  · exact (h.plain_frame hr).table a i ((page_table ha hi).trans ht)
  · have he := h.inj _ _ _ hr ((page_frame ha (by omega)).trans hmapped)
    obtain rfl := (Ref.frame.inj he).2
    exact hout ⟨hk, hk'⟩

theorem Filling.samePage {perm : ℕ → UInt32} {c : ℕ → ℕ → UInt32} (h : Own P O v)
    (ha : O.roots a = some d) (hf : Filling P O a d perm c lo hi ok v v') (hm : m < KERNPAGE)
    (hout : ¬(lo ≤ m ∧ m < hi)) (hp : present (v.pte d m) = true) : SamePage v v' d m :=
  ⟨hf.pte m (lt_npages hm) hout, h.frame_word hf.grew ha ha hm (mapped_of_present hp)⟩

theorem steps_of_present {k last : ℕ} (hp : k ≠ 0 → present (v.pte d (k - 1)) = true) :
    Steps v d k last := by
  by_cases h0 : PTX k = 0
  · exact .inl h0
  · have hk : k ≠ 0 := by
      rintro rfl
      exact h0 rfl
    have hpdx : PDX k = PDX (k - 1) := by
      simp only [PDX, PTX, NPTENTRIES] at *
      omega
    exact .inr (.inl (hpdx ▸ table_ne_none (hp hk)))

theorem toNat_le_of_pages (hN : pageUp sz ≤ PHYSTOP) : sz.toNat ≤ 0xE000000 := by
  simp only [pageUp, PGSIZE, PHYSTOP] at hN
  omega

theorem toNat_add_signed (hsz : sz.toNat ≤ 0xE000000) (n : Int32) :
    (0 ≤ (sz.toNat : ℤ) + n.toInt → ((sz + n.toUInt32).toNat : ℤ) = sz.toNat + n.toInt) ∧
      ((sz.toNat : ℤ) + n.toInt < 0 → sz.toNat ≤ (sz + n.toUInt32).toNat) := by
  have hadd : (sz + n.toUInt32).toNat = (sz.toNat + n.toUInt32.toNat) % 2 ^ 32 :=
    UInt32.toNat_add sz n.toUInt32
  have hn : n.toInt = if 2 * n.toUInt32.toNat < 2 ^ 32 then (n.toUInt32.toNat : ℤ)
      else (n.toUInt32.toNat : ℤ) - 2 ^ 32 :=
    BitVec.toInt_eq_toNat_cond n.toBitVec
  have hlt := n.toUInt32.toNat_lt
  split_ifs at hn with hpos
  · omega
  · omega

theorem int32_zero_toInt : (0 : Int32).toInt = 0 :=
  rfl

/-- A process that grows. -/
theorem growproc_pos (h : Own P O v) (ha : O.roots a = some d) (hsz : Sized v d (pageUp sz))
    (hn : 0 < n) :
    wp (growproc K d sz n) (fun r v' => Own P O v' ∧
      ((∀ m, pageUp sz ≤ m → m < pageUp (sz + n.toUInt32) → TableGranted v d (pageUp sz) m) →
        GrowOk d sz n v r v') ∧
      (v.fails = [] → (GrowOk d sz n v r v' ↔ (sz + n.toUInt32 < KERNBASE →
        ∀ m, pageUp sz ≤ m → m + 1 = pageUp (sz + n.toUInt32) →
          TableGranted v d (pageUp sz) m)))) E v := by
  have hle := toNat_le_of_pages (h.pages_le ha fun m hm => (hsz m hm).2)
  have hn' : 0 < n.toInt := Int32.lt_iff_toInt_lt.1 hn
  have hadd := (toNat_add_signed hle n).1 (by omega)
  unfold growproc
  rw [if_pos hn]
  generalize sz + n.toUInt32 = newsz at hadd ⊢
  by_cases hbig : newsz ≥ KERNBASE
  · unfold allocuvm
    rw [if_pos hbig]
    have hok : GrowOk d sz n v none v := ⟨fun _ _ => rfl, fun m _ => SamePage.refl v d m⟩
    exact ⟨h, fun _ => hok, fun _ => iff_of_true hok fun hlt => absurd hbig (UInt32.not_le.2 hlt)⟩
  have hlt : newsz < KERNBASE := UInt32.not_le.1 hbig
  have hge : sz ≤ newsz := by
    rw [UInt32.le_iff_toNat_le]
    omega
  have hne : newsz ≠ 0 := by
    rintro rfl
    rw [show (0 : UInt32).toNat = 0 from rfl] at hadd
    omega
  have hKERN := pageUp_le (UInt32.le_of_lt hlt)
  have hup := pageUp_mono hge
  have habs : ∀ m, pageUp sz ≤ m → m < KERNPAGE → present (v.pte d m) = false := fun m hm hm' =>
    Bool.eq_false_iff.2 fun hp => absurd ((hsz m hm').1 hp) (by omega)
  have hpres : ∀ m < pageUp sz, present (v.pte d m) = true := fun m hm =>
    (hsz m (by omega)).2 hm
  refine wp_seq (allocuvm_filling h ha (fun m hm hm' => habs m hm (by omega)) hge hlt) ?_
  rintro r v' (⟨rfl, ok, hend, hf, -⟩ | ⟨rfl, ok, hend, hi, v1, hlo, hhi, hf, -, hundone⟩)
  · rw [if_neg hne]
    have hiff : GrowOk d sz n v (some r) v' ↔ ok = true := by
      refine ⟨fun hok => ?_, fun hok => ?_⟩
      · by_contra hno
        obtain ⟨m, hm, hm', hp⟩ := hf.gap (Bool.eq_false_iff.2 hno)
        rw [(hok.2.2.1 m (by omega)).2 hm'] at hp
        cases hp
      refine ⟨hadd, hlt, fun m hm => ?_, fun m hm => ?_, fun m hm hm' => ?_⟩
      · by_cases hin : pageUp sz ≤ m ∧ m < pageUp r
        · exact iff_of_true (hf.full hok m hin.1 hin.2) hin.2
        · rw [hf.pte m (lt_npages hm) hin, hsz m hm]
          omega
      · exact hf.samePage h ha (by omega) (by omega) (hpres m (by omega))
      · obtain ⟨x, -, hmapped, -, hword⟩ := hf.page m hm hm' (hf.full hok m hm hm')
        exact ⟨x, hmapped, fun i => by rw [hword]; rfl⟩
    refine ⟨hf.grew.own, fun htab => hiff.2 (hend.tables.2 htab), fun hf => ?_⟩
    have hlast := not_congr (hend.last hf)
    simp only [true_and, Bool.not_eq_false, not_exists, not_and, not_not] at hlast
    exact hiff.trans (hlast.trans (imp_iff_right hlt).symm)
  · rw [if_pos rfl]
    have hpres1 : ∀ m < pageUp sz, present (v1.pte d m) = true := fun m hm => by
      rw [hf.pte m (lt_npages (by omega)) (by omega)]
      exact hpres m hm
    have hu := hundone (steps_of_present fun h0 => hpres1 _ (by omega))
    have hok : GrowOk d sz n v none v' := by
      refine ⟨fun m hm => ?_, fun m hm => ?_⟩
      · by_cases hin : pageUp sz ≤ m ∧ m < pageUp newsz
        · rw [hu.gone m hin.1 hin.2, habs m hin.1 hm]
        · rw [hu.pte m (lt_npages hm) hin, hf.pte m (lt_npages hm) (by omega)]
      · exact (hf.samePage h ha (by omega) (by omega) (hpres m hm)).trans
          (hu.samePage hf.grew.own ha hKERN (by omega) (by omega) (hpres1 m hm))
    refine ⟨hu.own, fun _ => hok, fun hf => iff_of_true hok fun _ m hm hm' => ?_⟩
    by_contra hno
    exact Bool.false_ne_true ((hend.last hf).2 ⟨m, hm, hm', hno⟩).1

/-- A process that shrinks. -/
theorem growproc_neg (h : Own P O v) (ha : O.roots a = some d) (hsz : Sized v d (pageUp sz))
    (hn : n < 0) :
    wp (growproc K d sz n) (fun r v' => Own P O v' ∧
      (GrowOk d sz n v r v' ↔ sz = 0 ∨ 0 < (sz.toNat : ℤ) + n.toInt)) E v := by
  have hle := toNat_le_of_pages (h.pages_le ha fun m hm => (hsz m hm).2)
  have hn' : n.toInt < 0 := Int32.lt_iff_toInt_lt.1 hn
  have hpos : ¬0 < n := fun hp => by
    have := Int32.lt_iff_toInt_lt.1 hp
    rw [int32_zero_toInt] at this
    omega
  obtain ⟨hadd, hwrap⟩ := toNat_add_signed hle n
  unfold growproc
  rw [if_neg hpos, if_pos hn]
  generalize sz + n.toUInt32 = newsz at hadd hwrap ⊢
  have hKERN : sz < KERNBASE := by
    rw [UInt32.lt_iff_toNat_lt]
    exact hle.trans_lt (by decide)
  unfold deallocuvm
  by_cases hge : newsz ≥ sz
  · -- the size wrapped around
    have hneg : (sz.toNat : ℤ) + n.toInt < 0 := by
      by_contra hno
      have := hadd (by omega)
      have := UInt32.le_iff_toNat_le.1 hge
      omega
    rw [if_pos hge]
    simp only [wp_bind, wp_pure]
    refine ⟨h, ?_⟩
    by_cases h0 : sz = 0
    · rw [if_pos h0]
      exact iff_of_true ⟨fun _ _ => rfl, fun m _ => SamePage.refl v d m⟩ (.inl h0)
    · rw [if_neg h0]
      refine iff_of_false (fun hok => ?_) ?_
      · have := hok.1
        omega
      · rintro (h0' | hpos)
        · exact h0 h0'
        · omega
  rw [if_neg hge, bind_assoc]
  have hlt : newsz < sz := UInt32.not_le.1 hge
  have hnonneg : 0 ≤ (sz.toNat : ℤ) + n.toInt := by
    by_contra hno
    have := hwrap (by omega)
    have := UInt32.lt_iff_toNat_lt.1 hlt
    omega
  have hadd := hadd hnonneg
  have hup := pageUp_mono (UInt32.le_of_lt hlt)
  have hKERN' := pageUp_le (UInt32.le_of_lt hKERN)
  have hpres : ∀ m < pageUp sz, present (v.pte d m) = true := fun m hm =>
    (hsz m (by omega)).2 hm
  refine wp_seq (deallocLoop_undone ha hKERN' (pageUp sz) (pageUp newsz) v h
    (Nat.le_add_left _ _)) ?_
  rintro _ v' ⟨-, hundone⟩
  have hu := hundone (steps_of_present fun h0 => hpres _ (by omega))
  simp only [wp_bind, wp_pure]
  refine ⟨hu.own, ?_⟩
  by_cases h0 : newsz = 0
  · subst h0
    rw [if_pos rfl]
    have hs0 : (sz.toNat : ℤ) + n.toInt = 0 := hadd.symm
    have hsz0 : 0 < pageUp sz := by
      simp only [pageUp, PGSIZE]
      omega
    refine iff_of_false (fun hok => ?_) ?_
    · have hsame := hok.1 0 (by decide)
      rw [hpres 0 hsz0, hu.gone 0 (by simp [pageUp]) hsz0] at hsame
      cases hsame
    · rintro (rfl | hpos)
      · exact absurd hlt (UInt32.lt_irrefl _)
      · omega
  · rw [if_neg h0]
    have hnew : 0 < newsz.toNat := Nat.pos_of_ne_zero fun he => h0 (UInt32.toNat_inj.1 he)
    refine iff_of_true ⟨hadd, UInt32.lt_trans hlt hKERN, fun m hm => ?_, fun m hm => ?_,
      fun m hm hm' => absurd hm' (by omega)⟩ (.inr (by omega))
    · by_cases hin : pageUp newsz ≤ m ∧ m < pageUp sz
      · rw [hu.gone m hin.1 hin.2]
        exact iff_of_false Bool.false_ne_true (by omega)
      · rw [hu.pte m (lt_npages hm) hin, hsz m hm]
        omega
    · exact hu.samePage h ha hKERN' (by omega) (by omega) (hpres m (by omega))

/-- `growproc` returns. A process that does not grow gets what it is to get unless it shrinks to
nothing or further. One that grows does where no call of `kalloc` for a page table is the first to
fail; and where `kalloc` fails for want of pages alone, just if that is so at the last page. -/
theorem growproc_ok_iff (h : Own P O v) (ha : O.roots a = some d) (hsz : Sized v d (pageUp sz))
    (n : Int32) :
    ∃ r v', growproc K d sz n v = .ok r v' ∧ Own P O v' ∧
      (n ≤ 0 → (GrowOk d sz n v r v' ↔ n = 0 ∨ sz = 0 ∨ 0 < (sz.toNat : ℤ) + n.toInt)) ∧
      (0 < n → (∀ m, pageUp sz ≤ m → m < pageUp (sz + n.toUInt32) →
        TableGranted v d (pageUp sz) m) → GrowOk d sz n v r v') ∧
      (0 < n → v.fails = [] → (GrowOk d sz n v r v' ↔ (sz + n.toUInt32 < KERNBASE →
        ∀ m, pageUp sz ≤ m → m + 1 = pageUp (sz + n.toUInt32) →
          TableGranted v d (pageUp sz) m))) := by
  refine exists_ok_of_wp ?_
  by_cases hpos : 0 < n
  · refine wp_mono (growproc_pos h ha hsz hpos) ?_
    rintro r v' ⟨hown, hok, hiff⟩
    exact ⟨hown, fun hn => absurd hpos (Int32.not_lt.2 hn), fun _ => hok, fun _ => hiff⟩
  by_cases hneg : n < 0
  · refine wp_mono (growproc_neg h ha hsz hneg) ?_
    rintro r v' ⟨hown, hok⟩
    refine ⟨hown, fun _ => hok.trans (or_iff_right ?_).symm, fun hn => absurd hn hpos,
      fun hn => absurd hn hpos⟩
    rintro rfl
    exact Int32.lt_irrefl hneg
  · have h0 : n.toInt = 0 := by
      rw [Int32.lt_iff_toInt_lt, int32_zero_toInt] at hpos hneg
      omega
    have hle := toNat_le_of_pages (h.pages_le ha fun m hm => (hsz m hm).2)
    unfold growproc
    rw [if_neg hpos, if_neg hneg]
    refine ⟨h, fun _ => iff_of_true ⟨by omega, ?_, hsz, fun m _ => SamePage.refl v d m,
      fun m hm hm' => absurd hm' (by omega)⟩ (.inl (Int32.toInt_inj.1 h0)),
      fun hn => absurd hn hpos, fun hn => absurd hn hpos⟩
    rw [UInt32.lt_iff_toNat_lt]
    exact hle.trans_lt (by decide)

end

/-! ## A process of one page -/

/-- Memory with the free pages `l`, the directory 0x400, its table 0x401 and the frame 0x402 of
page `n`. -/
def pageAt (n : ℕ) (l : List ℕ) : Mem :=
  ((zeroMem l).addTable 0x400 (PDX n) 0x401).set 0x401 (PTX n) (entry 0x402 (PTE_W ||| PTE_U))

/-- Memory with the frame of page 0. -/
def onePage (l : List ℕ) : Mem :=
  pageAt 0 l

section

variable {l : List ℕ} (hnodup : l.Nodup) (hpool : ∀ x ∈ l, 0x403 ≤ x ∧ x < PHYSTOP)
include hnodup hpool

theorem loose_zeroMem {x : ℕ} (hx : 0x401 ≤ x ∧ x ≤ 0x402) :
    Loose (Pool.all smallKernel) (Owners.empty.addRoot 0x400) (zeroMem l) x := by
  have hpool' : smallKernel.kend ≤ x ∧ x < PHYSTOP := by
    simp only [smallKernel, PHYSTOP]
    omega
  refine ⟨fun hm => ?_, fun r hr => ?_, hpool'⟩
  · have := hpool x hm
    omega
  rcases r with b | a | ⟨a, i⟩ | ⟨a, n⟩
  · exact b.elim
  · rcases a with _ | a
    · have := Option.some.inj hr
      omega
    · exact a.elim
  · obtain ⟨-, d, -, ht⟩ := page_table_eq_some.1 hr
    simp [Mem.table, zeroMem, present_zero] at ht
  · obtain ⟨-, d, -, hm⟩ := page_frame_eq_some.1 hr
    simp [Mem.mapped, zeroMem_pte, present_zero] at hm

/-- What is owned in memory with page `n` mapped, and what is mapped. -/
theorem own_pageAt {n : ℕ} (hn : n < KERNPAGE) :
    Own (Pool.all smallKernel) (Owners.empty.addRoot 0x400) (pageAt n l) ∧
      ∀ m < NPAGES, (pageAt n l).pte 0x400 m =
        if m = n then entry 0x402 (PTE_W ||| PTE_U) else 0 := by
  have hroot : (Owners.empty.addRoot 0x400).roots none = some 0x400 := rfl
  have hperm : (PTE_W ||| PTE_U).toNat < PGSIZE := by decide
  have hn' := lt_npages hn
  have h0 : Own (Pool.all smallKernel) (Owners.empty.addRoot 0x400) (zeroMem l) := by
    refine own_zeroMem (List.nodup_cons.2 ⟨fun hm => ?_, hnodup⟩) (List.forall_mem_cons.2
      ⟨by decide, fun x hx => ?_⟩)
    · have := hpool _ hm
      omega
    · have := hpool x hx
      simp only [smallKernel]
      omega
  have ht := loose_zeroMem hnodup hpool (x := 0x401) (by decide)
  have hx := loose_zeroMem hnodup hpool (x := 0x402) (by decide)
  have hadd := h0.addTable (i := PDX n) hroot (PDX_lt hn')
    (by simp [Mem.table, zeroMem, present_zero]) ht
  have hkept := h0.kept_addTable (i := PDX n) hroot ht
  have h1 := h0.of_addTable hadd hkept hroot (PDX_lt hn') rfl ht
  have hx1 := hx.of_addTable (by decide) hadd hkept hroot (PDX_lt hn') rfl
  have hset := h1.setPte hroot hn' hadd.same (entry 0x402 (PTE_W ||| PTE_U))
  have hkept1 := h1.kept_setPte hroot hn' hadd.same (entry 0x402 (PTE_W ||| PTE_U))
  refine ⟨h1.of_setPte_map hset hkept1 hroot rfl hn hx1 present_entry
    (frame_entry (by decide) hperm), fun m hm => ?_⟩
  split_ifs with hmn
  · subst hmn
    exact hset.same
  · exact (hset.rest m hm hmn).trans ((hadd.pte m hm).trans (zeroMem_pte ..))

theorem own_onePage :
    Own (Pool.all smallKernel) (Owners.empty.addRoot 0x400) (onePage l) ∧
      Sized (onePage l) 0x400 1 := by
  obtain ⟨hown, hpte⟩ := own_pageAt hnodup hpool (n := 0) (by decide)
  refine ⟨hown, fun m hm => ?_⟩
  rw [show (onePage l).pte 0x400 m = _ from hpte m (lt_npages hm)]
  split_ifs with h0
  · exact iff_of_true present_entry (by omega)
  · exact iff_of_false (by rw [present_zero]; exact Bool.false_ne_true) (by omega)

end

theorem sized_onePage {l : List ℕ} (hnodup : l.Nodup)
    (hpool : ∀ x ∈ l, 0x403 ≤ x ∧ x < PHYSTOP) : Sized (onePage l) 0x400 (pageUp 4096) :=
  (own_onePage hnodup hpool).2

/-- A process of one page that shrinks by a page is told that it failed, and has no page left. -/
theorem growproc_frees_all :
    Own (Pool.all smallKernel) (Owners.empty.addRoot 0x400) (onePage []) ∧
      Sized (onePage []) 0x400 (pageUp 4096) ∧
      ∃ v', growproc smallKernel 0x400 4096 (-4096) (onePage []) = .ok none v' ∧
        present (v'.pte 0x400 0) = false ∧ v'.freelist = [0x402] := by
  refine ⟨(own_onePage List.nodup_nil (by simp)).1, sized_onePage List.nodup_nil (by simp), ?_⟩
  have hrun : wp (growproc smallKernel 0x400 4096 (-4096)) (fun r v' => r = none ∧
      present (v'.pte 0x400 0) = false ∧ v'.freelist = [0x402]) (fun _ _ => False)
      (onePage []) := by
    unfold growproc deallocuvm
    have hold : pageUp 4096 = 1 := by decide
    have hnew : pageUp (4096 + (-4096 : Int32).toUInt32) = 0 := by decide
    have htable : (onePage []).table 0x400 (PDX 0) = some 0x401 := by decide
    have hpte : (onePage []).word 0x401 (PTX 0) = entry 0x402 (PTE_W ||| PTE_U) := by decide
    have hframe : frame (entry 0x402 (PTE_W ||| PTE_U)) = 0x402 := by decide
    rw [if_neg (by decide), if_pos (by decide), if_neg (by decide), hold, hnew]
    simp only [deallocLoop, wp_bind, wp_walkpgdir_false, htable, Option.map_some, wp_get, hpte,
      present_entry, if_true, hframe, Nat.zero_lt_one]
    rw [if_neg (by decide), wp_bind, wp_kfree (by decide)]
    refine ⟨by decide, ?_, rfl⟩
    decide
  obtain ⟨r, v', hok, rfl, hv'⟩ := exists_ok_of_wp hrun
  exact ⟨v', hok, hv'⟩

/-- With a free page the process of one page grows by a page. -/
theorem growproc_ok_iff_onePage :
    (∀ m, pageUp 4096 ≤ m → m < pageUp (4096 + (4096 : Int32).toUInt32) →
      TableGranted (onePage [0x403]) 0x400 (pageUp 4096) m) ∧
    ∃ r v', growproc smallKernel 0x400 4096 4096 (onePage [0x403]) = .ok r v' ∧
      Own (Pool.all smallKernel) (Owners.empty.addRoot 0x400) v' ∧
      GrowOk 0x400 4096 4096 (onePage [0x403]) r v' := by
  have hpool : ∀ x ∈ [0x403], 0x403 ≤ x ∧ x < PHYSTOP := by decide
  have htab : ∀ m, pageUp 4096 ≤ m → m < pageUp (4096 + (4096 : Int32).toUInt32) →
      TableGranted (onePage [0x403]) 0x400 (pageUp 4096) m := by
    rintro m hm hm' ⟨hnone, -⟩
    obtain rfl : m = 1 := Nat.le_antisymm (Nat.lt_succ_iff.1 hm') hm
    exact absurd hnone (by decide)
  obtain ⟨r, v', hrun, hown, -, hgrow, -⟩ := growproc_ok_iff (K := smallKernel) (a := none)
    (own_onePage (List.nodup_singleton _) hpool).1 rfl
    (sized_onePage (List.nodup_singleton _) hpool) 4096
  exact ⟨htab, r, v', hrun, hown, hgrow (by decide) htab⟩

end Xv6.Vm
