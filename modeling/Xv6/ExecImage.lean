import Xv6.Copyuvm
import Xv6.ExecStack

/-!
# The image that `exec` builds

`exec` maps the pages of the new image from 0 up, as far as the sizes of the segments ask, and
copies the segments to them. What the file asks for is a matter of its program headers (`scan`).
Where no call of `kalloc` for a page table is the first to fail and every segment is copied below
the size so far, each page is mapped (`Built`) and holds the bytes of the segments over zeros
(`Holds`).

`loaduvm` copies through the entries of the new address space, the kernel's among them. A copy is
contained if it goes through an entry that `allocuvm` set, to a page that was free, below the size
so far (`Contained`). It is not if `ph.vaddr + ph.memsz` wraps around : `allocuvm` then gets a small
size and says yes, and the bytes go to `ph.vaddr`, which may be an address of the kernel
(`Proghdr.Inside` says that no byte does), or where there is no page table, and `loaduvm` panics
(`Proghdr.Placed`).
-/

open Layout List
open Prog

namespace Xv6.Vm

/-! ## Mapping pages -/

/-- No call of `kalloc` for one of the tables of the first `N` pages is the first to fail. -/
def TablesGranted (v : Mem) (N : ℕ) : Prop :=
  ∀ n < N, PTX n = 0 → Grants v (65 + copyCost n + 1) → Grants v (65 + copyCost n + 2)

/-- The first `N` pages of the new address space `d` are mapped for the user, and no others below
`KERNBASE`. -/
structure Built {K : Link} (P : Pool K) {A B : Type} (O : Owners A B) (d N : ℕ) (v0 v : Mem) :
    Prop where
  own : Own P (O.addRoot d) v
  kept : Kept O ∅ v0 v
  kern : Kern K v d
  user : ∀ m < N, UserPte (v.pte d m)
  rest : ∀ m, N ≤ m → m < KERNPAGE → v.pte d m = 0
  table : ∀ i < NPTENTRIES, i ∉ kernTables → (v.table d i = none ↔ N ≤ NPTENTRIES * i)

/-- `exec` cannot go on, and the pages of others are as they were. -/
structure Failed {K : Link} (P : Pool K) {A B : Type} (O : Owners A B) (d : ℕ) (v0 v : Mem) :
    Prop where
  own : Own P (O.addRoot d) v
  kept : Kept O ∅ v0 v

/-- The pages below `n` are as they were, and those from `n` to `n'` hold zeros. -/
structure Extended (d n n' : ℕ) (v v' : Mem) : Prop where
  same : ∀ m < n, SamePage v v' d m
  zero : ∀ m, n ≤ m → m < n' → ∀ i, v'.word (frame (v'.pte d m)) i = 0

/-- The size that `allocuvm` returns. -/
def grown (sz newsz : UInt32) : UInt32 :=
  if newsz < sz then sz else newsz

theorem copyCost_mono {n m : ℕ} (h : n ≤ m) : copyCost n ≤ copyCost m :=
  Nat.add_le_add h (Nat.div_le_div_right (by omega))

section

variable {K : Link} {P : Pool K} {A B : Type} {O : Owners A B} {v0 v v1 v' v'' : Mem}
  {d n n' N x : ℕ} {E : Stop → Mem → Prop} {oldsz newsz : UInt32}

theorem Kept.base (h : Kept O ∅ v0 v) (h' : Kept (O.addRoot d) {none} v v') :
    Kept O ∅ v0 v' :=
  h.trans (h'.among (among_addRoot O d) fun a _ _ _ => by simp)

theorem Built.failed (h : Built P O d n v0 v) : Failed P O d v0 v :=
  ⟨h.own, h.kept⟩

theorem Extended.trans (h : Extended d n N v v') (h' : Extended d N n' v' v'') (hn : n ≤ N) :
    Extended d n n' v v'' := by
  refine ⟨fun m hm => (h.same m hm).trans (h'.same m (by omega)), fun m hm hm' i => ?_⟩
  by_cases hN : m < N
  · obtain ⟨hpte, hword⟩ := h'.same m hN
    rw [hpte, hword]
    exact h.zero m hm hN i
  · exact h'.zero m (by omega) hm' i

/-- Filling the next pages builds more of the image. -/
theorem Built.fill (h : Built P O d n v0 v) (hN : N ≤ KERNPAGE) (hn : n ≤ N)
    (hf : Filling P (O.addRoot d) none d userPerm zeroPage n N true v v') :
    Built P O d N v0 v' ∧ Extended d n N v v' := by
  have hNP : ∀ m < N, m < NPAGES := fun m hm => lt_npages (by omega)
  have hpage := fun m hm hm' => hf.page m hm hm' (hf.full rfl m hm hm')
  refine ⟨⟨hf.grew.own, h.kept.base hf.grew.kept, fun m hm hm' => ?_, fun m hm => ?_,
    fun m hm hm' => ?_, fun i hi hk => ?_⟩, fun m hm => ?_, fun m hm hm' i => ?_⟩
  · rw [hf.pte m hm' (by omega)]
    exact h.kern m hm hm'
  · by_cases hmn : m < n
    · rw [hf.pte m (hNP m hm) (by omega)]
      exact h.user m hmn
    · obtain ⟨x, -, -, hpte, -⟩ := hpage m (by omega) hm
      rw [hpte]
      exact userPte_entry
  · rw [hf.pte m (lt_npages hm') (by omega)]
    exact h.rest m (by omega) hm'
  · by_cases hin : ∃ m, n ≤ m ∧ m < N ∧ PDX m = i
    · obtain ⟨m, hm, hm', rfl⟩ := hin
      refine iff_of_false (table_ne_none (hf.full rfl m hm hm')) ?_
      have := Nat.mul_div_le m NPTENTRIES
      rw [PDX]
      omega
    · push Not at hin
      rw [hf.table i hi hin, h.table i hi hk]
      refine ⟨fun hle => ?_, fun hle => by omega⟩
      by_contra hlt
      refine hin (NPTENTRIES * i) hle (by omega) ?_
      rw [PDX, Nat.mul_div_cancel_left i (by decide)]
  · exact hf.samePage h.own rfl (by omega) (by omega) (h.user m hm).1
  · obtain ⟨x, -, hx, -, hword⟩ := hpage m hm hm'
    rw [mapped_of_present (hf.full rfl m hm hm')] at hx
    rw [Option.some.inj hx, hword]
    rfl

theorem Built.newTable_iff (h : Built P O d n v0 v) (hn : n ≤ N) (hN : N < KERNPAGE) :
    NewTable v d n N ↔ PTX N = 0 := by
  have hk : PDX N ∉ kernTables := by
    simp only [kernTables, Finset.mem_union, Finset.mem_Ico, PDX, KERNPAGE, NPTENTRIES] at hN ⊢
    omega
  rw [NewTable, h.table _ (PDX_lt (lt_npages hN)) hk]
  simp only [PDX, PTX, NPTENTRIES]
  omega

/-- The calls of `kalloc` add up. -/
theorem Built.allocCost (h : Built P O d n v0 v) (hn : n ≤ N) (hN : N ≤ KERNPAGE) :
    copyCost n + allocCost v d n N = copyCost N := by
  induction N, hn using Nat.le_induction with
  | base => simp [Vm.allocCost]
  | succ N hn ih =>
    rw [allocCost_succ hn, copyCost_succ, ← ih (by omega)]
    simp only [h.newTable_iff hn hN]
    omega

/-- `allocuvm` maps the pages of the new size, or runs out of pages. -/
theorem allocuvm_built {sz : UInt32} (h : Built P O d (pageUp sz) v0 v)
    (hd : Drawn v0 (65 + copyCost (pageUp sz)) v) (hnew : newsz < KERNBASE)
    (htab : TablesGranted v0 (pageUp (grown sz newsz))) :
    wp (allocuvm K d sz newsz) (fun r v' =>
      (r = grown sz newsz ∧ Built P O d (pageUp r) v0 v' ∧
        Drawn v0 (65 + copyCost (pageUp r)) v' ∧ Extended d (pageUp sz) (pageUp r) v v') ∨
      r = 0 ∧ Failed P O d v0 v' ∧ ¬Grants v0 (65 + copyCost (pageUp (grown sz newsz)))) E v := by
  by_cases hlt : newsz < sz
  · unfold allocuvm
    rw [if_neg (UInt32.not_le.2 hnew), if_pos hlt]
    exact .inl ⟨(if_pos hlt).symm, h, hd, fun m _ => SamePage.refl v d m,
      fun m hm hm' => absurd hm' (by omega)⟩
  have hle := UInt32.not_lt.1 hlt
  have hpages := pageUp_mono hle
  have hN := pageUp_le (UInt32.le_of_lt hnew)
  have hcost : ∀ {m}, pageUp sz ≤ m → m ≤ pageUp newsz → ∀ j,
      Grants v (allocCost v d (pageUp sz) m + j) ↔ Grants v0 (65 + copyCost m + j) :=
    fun hm hm' j => by rw [hd.grants_add, ← h.allocCost hm (by omega)]; ring_nf
  have hp : ∀ m, pageUp sz ≤ m → m < pageUp newsz → present (v.pte d m) = false :=
    fun m hm hm' => by rw [h.rest m hm (by omega), present_zero]
  rw [show grown sz newsz = newsz from if_neg hlt] at htab ⊢
  have htables : ∀ m, pageUp sz ≤ m → m < pageUp newsz → TableGranted v d (pageUp sz) m := by
    intro m hm hm' hnew hg
    rw [hcost hm hm'.le] at hg ⊢
    exact htab m hm' ((h.newTable_iff hm (by omega)).1 hnew) hg
  refine wp_mono (allocuvm_filling h.own (a := none) rfl hp hle hnew) ?_
  rintro r v' (⟨rfl, ok, hend, hf, hdrawn⟩ | ⟨rfl, ok, hend, hi, v1, hlo, hhi, hf, -, hundone⟩)
  · obtain rfl := hend.tables.2 htables
    obtain ⟨hbuilt, hext⟩ := h.fill hN hpages hf
    refine .inl ⟨rfl, hbuilt, ?_, hext⟩
    rw [← h.allocCost hpages hN, ← Nat.add_assoc]
    exact hd.trans (hdrawn rfl)
  · obtain rfl := hend.tables.2 htables
    have hu := hundone (hf.steps hlo (hN.trans (by decide)) hp)
    refine .inr ⟨rfl, ⟨hu.own, h.kept.base (hf.grew.kept.trans hu.kept)⟩, fun hg => ?_⟩
    exact hend.pages rfl rfl ((hcost hpages le_rfl 0).2 hg)

/-! ## Copying a segment -/

/-- The pages below `N` of the address space `d` hold the bytes `c`. -/
def Holds (c : ℕ → UInt8) (d N : ℕ) (v : Mem) : Prop :=
  ∀ n < N * PGSIZE, v.userByte d n = c n

/-- The address of byte `i` of a segment. -/
def Proghdr.addr (ph : Proghdr) (i : ℕ) : UInt32 :=
  ph.vaddr + UInt32.ofNat i

/-- The number of bytes that `loaduvm` copies at byte `i` of a segment. -/
def Proghdr.count (ph : Proghdr) (f : Image) (i : ℕ) : ℕ :=
  f.readi (ph.off + UInt32.ofNat i) (min (ph.filesz.toNat - i) PGSIZE)

/-- What `loaduvm` records at byte `i` of a segment. -/
def copyAt (v : Mem) (d : ℕ) (f : Image) (ph : Proghdr) (sz : UInt32) (i : ℕ) : Copy :=
  ⟨ph, sz, ph.addr i, ph.count f i, v.pte d (page (ph.addr i))⟩

/-- Memory after the copy at byte `i` of a segment. -/
def Mem.copied (v : Mem) (d : ℕ) (f : Image) (ph : Proghdr) (sz : UInt32) (i : ℕ) : Mem :=
  let x := frame (v.pte d (page (ph.addr i)))
  { v.fill x (poke (v.word x) 0 (ph.count f i) fun j =>
      f.byte ((ph.off + UInt32.ofNat i).toNat + j)) with
    log := .copy (copyAt v d f ph sz i) :: v.log }

/-- The part of page `k` of the segment that `loaduvm` reads is in the file. -/
def Proghdr.WholeAt (ph : Proghdr) (f : Image) (k : ℕ) : Prop :=
  ph.count f (k * PGSIZE) = min (ph.filesz.toNat - k * PGSIZE) PGSIZE

/-- Every part of the segment that `loaduvm` reads is in the file. -/
def Proghdr.Whole (ph : Proghdr) (f : Image) : Prop :=
  ∀ k < pageUp ph.filesz, ph.WholeAt f k

instance (ph : Proghdr) (f : Image) : Decidable (ph.Whole f) :=
  inferInstanceAs (Decidable (∀ k < pageUp ph.filesz, _ = _))

/-- An address space of `N` pages has a page table for page `n`. -/
def HasTable (N n : ℕ) : Prop :=
  PDX n ∈ kernTables ∨ NPTENTRIES * PDX n < N

/-- `loaduvm` gets to page `k` of the segment : what comes before is in the file, and has page
tables in an address space of `sz` bytes. -/
structure Proghdr.Reaches (ph : Proghdr) (f : Image) (sz : UInt32) (k : ℕ) : Prop where
  lt : k < pageUp ph.filesz
  whole : ∀ j < k, ph.WholeAt f j
  table : ∀ j < k, HasTable (pageUp sz) (page (ph.addr (j * PGSIZE)))

/-- Every byte of the segment that `loaduvm` copies goes below the size. -/
def Proghdr.Inside (ph : Proghdr) (f : Image) (sz : UInt32) : Prop :=
  ∀ k, ph.Reaches f sz k → HasTable (pageUp sz) (page (ph.addr (k * PGSIZE))) →
    ph.count f (k * PGSIZE) ≠ 0 →
    (ph.addr (k * PGSIZE)).toNat + ph.count f (k * PGSIZE) ≤ sz.toNat

/-- `loaduvm` does not panic : the segment is aligned to a page, and every page that it gets to has
a page table. -/
structure Proghdr.Placed (ph : Proghdr) (f : Image) (sz : UInt32) : Prop where
  aligned : ph.vaddr.toNat % PGSIZE = 0
  table : ∀ k, ph.Reaches f sz k → HasTable (pageUp sz) (page (ph.addr (k * PGSIZE)))

/-- The segment ends below the size. -/
def Proghdr.Fits (ph : Proghdr) (sz : UInt32) : Prop :=
  ph.filesz = 0 ∨ ph.vaddr.toNat + ph.filesz.toNat ≤ sz.toNat

instance (ph : Proghdr) (sz : UInt32) : Decidable (ph.Fits sz) :=
  instDecidableOr

/-- A copy to the new image : below its size so far and below `KERNBASE`, through an entry for the
user, to a page of `free`. -/
structure Contained (free : ℕ → Prop) (c : Copy) : Prop where
  bound : c.va.toNat + c.len ≤ c.sz.toNat
  size : c.sz < KERNBASE
  entry : UserPte c.pte
  frame : free (frame c.pte)

/-- The copies of bytes since `v` were contained. -/
def Confined (free : ℕ → Prop) (v v' : Mem) : Prop :=
  ∀ c, .copy c ∈ v'.log → c.len ≠ 0 → .copy c ∈ v.log ∨ Contained free c

/-- The bytes `c` with the first `len` bytes of a segment over them. -/
def Proghdr.over (ph : Proghdr) (f : Image) (len : ℕ) (c : ℕ → UInt8) (n : ℕ) : UInt8 :=
  if ph.vaddr.toNat ≤ n ∧ n < ph.vaddr.toNat + len then
    f.byte (ph.off.toNat + (n - ph.vaddr.toNat))
  else c n

theorem Holds.extend {c : ℕ → UInt8} (h : Holds c d n v) (hext : Extended d n N v v')
    (hc : ∀ m, n * PGSIZE ≤ m → c m = 0) : Holds c d N v' := by
  intro m hm
  have hpage : m / PGSIZE < N := Nat.div_lt_of_lt_mul (by rwa [Nat.mul_comm])
  by_cases hmn : m / PGSIZE < n
  · obtain ⟨hpte, hword⟩ := hext.same _ hmn
    rw [← h m ((Nat.div_lt_iff_lt_mul (by decide)).1 hmn), Mem.userByte, Mem.userByte, hpte,
      Mem.byte, Mem.byte, hword]
  · rw [not_lt] at hmn
    rw [hc m ((Nat.le_div_iff_mul_le (by decide)).1 hmn), Mem.userByte, Mem.byte,
      hext.zero _ hmn hpage]
    simp [Codec.u32]

theorem Built.userWrites (h : Built P O d N v0 v) (hN : N ≤ KERNPAGE) (hw : UserWrites d v v') :
    Built P O d N v0 v' := by
  obtain ⟨hown, hkept⟩ := hw.own h.own (a := none) rfl h.kern
  refine ⟨hown, h.kept.base (hkept.mono (Set.empty_subset _)), h.kern.sameView hw.view,
    fun m hm => ?_, fun m hm hm' => ?_, fun i hi hk => ?_⟩
  · rw [hw.view.pte m (lt_npages (by omega))]
    exact h.user m hm
  · rw [hw.view.pte m (lt_npages hm')]
    exact h.rest m hm hm'
  · rw [hw.view.table i hi]
    exact h.table i hi hk

theorem toNat_le_pageUp (sz : UInt32) : sz.toNat ≤ pageUp sz * PGSIZE := by
  simp only [pageUp, PGSIZE]
  omega

theorem readi_le {f : Image} {off : UInt32} : f.readi off n ≤ n := by
  unfold Image.readi
  split_ifs <;> omega

theorem readi_eq {f : Image} {off : UInt32} (h : f.readi off n = n) (hn : n ≠ 0) :
    off.toNat + n ≤ f.size := by
  unfold Image.readi at h
  split_ifs at h with hc <;> omega

section

variable {f : Image} {ph : Proghdr} {sz : UInt32} {c : ℕ → UInt8} {k : ℕ}

theorem addr_toNat {i : ℕ} (hi : ph.vaddr.toNat + i < 2 ^ 32) :
    (ph.addr i).toNat = ph.vaddr.toNat + i := by
  rw [Proghdr.addr, UInt32.toNat_add, UInt32.toNat_ofNat']
  omega

theorem lt_filesz (hk : k < pageUp ph.filesz) : k * PGSIZE < ph.filesz.toNat := by
  simp only [pageUp, PGSIZE] at hk ⊢
  omega

theorem hasTable_of_lt (h : n < N) : HasTable N n :=
  .inr ((Nat.mul_div_le n NPTENTRIES).trans_lt h)

theorem Proghdr.Fits.inside (h : ph.Fits sz) : ph.Inside f sz := by
  intro k hk _ _
  have hlt := lt_filesz hk.lt
  have hcount : ph.count f (k * PGSIZE) ≤ min (ph.filesz.toNat - k * PGSIZE) PGSIZE := readi_le
  have hsz := sz.toNat_lt
  rcases h with h0 | h
  · rw [h0] at hlt
    exact absurd hlt (Nat.not_lt_zero _)
  · rw [addr_toNat (by omega)]
    omega

theorem Proghdr.Fits.placed (h : ph.Fits sz) (hal : ph.vaddr.toNat % PGSIZE = 0) :
    ph.Placed f sz := by
  refine ⟨hal, fun k hk => hasTable_of_lt ?_⟩
  have hlt := lt_filesz hk.lt
  have hsz := sz.toNat_lt
  rcases h with h0 | h
  · rw [h0] at hlt
    exact absurd hlt (Nat.not_lt_zero _)
  · rw [page, addr_toNat (by omega)]
    simp only [pageUp, PGSIZE] at *
    omega

theorem Built.table_iff (h : Built P O d N v0 v) (hn : n < NPAGES) :
    v.table d (PDX n) ≠ none ↔ HasTable N n := by
  by_cases hk : PDX n ∈ kernTables
  · exact iff_of_true (h.kern.table hk) (.inl hk)
  · rw [HasTable, or_iff_right hk, ne_eq, h.table _ (PDX_lt hn) hk, not_le]

/-! ### What is copied -/

variable {free : ℕ → Prop}

theorem Confined.trans (h : Confined free v v') (h' : Confined free v' v'') : Confined free v v'' :=
  fun c hc hlen => (h' c hc hlen).elim (h c · hlen) .inr

theorem Confined.of_noted {N : Event → Prop} (h : Noted N v v') (hN : ∀ c, ¬N (.copy c)) :
    Confined free v v' :=
  fun c hc _ => .inl ((h.mem_old hc).resolve_left (hN c))

theorem Confined.refl (v : Mem) : Confined free v v :=
  fun _ hc _ => .inl hc

theorem copied_confined {i : ℕ}
    (h : ph.count f i ≠ 0 → Contained free (copyAt v d f ph sz i)) :
    Confined free v (v.copied d f ph sz i) := by
  intro c hc hlen
  rcases mem_cons.1 hc with he | hc
  · obtain rfl := Event.copy.inj he
    exact .inr (h hlen)
  · exact .inl hc

theorem poke_zero (p : ℕ → UInt32) (off : ℕ) (data : ℕ → UInt8) : poke p off 0 data = p := by
  funext i
  rw [poke, Codec.u32.ofByte_congr _ (Codec.u32.toByte (p i)) fun k _ => if_neg (by omega),
    Codec.u32.ofByte_toByte]

theorem userWrites_copied {i : ℕ} (h : ph.count f i = 0) :
    UserWrites d v (v.copied d f ph sz i) := by
  have hw : (v.copied d f ph sz i).word = v.word := by
    simp only [Mem.copied, h, poke_zero]
    exact Function.update_eq_self _ _
  exact ⟨SameView.of_word_eq hw d, fun x _ => by rw [hw], rfl, rfl⟩

theorem copied_written (f : Image) (sz : UInt32) {i : ℕ} (h : Apart v d)
    (hal : (ph.addr i).toNat % PGSIZE = 0)
    (hu : UserPte (v.pte d (page (ph.addr i)))) :
    Written d (ph.addr i).toNat (ph.count f i)
      (fun j => f.byte ((ph.off + UInt32.ofNat i).toNat + j)) v (v.copied d f ph sz i) := by
  have hle : ph.count f i ≤ PGSIZE := readi_le.trans (min_le_right _ _)
  have hw := Written.poke (ph.count f i)
    (fun j => f.byte ((ph.off + UInt32.ofNat i).toNat + j)) h (ph.addr i).toNat_lt hu (by omega)
  rw [hal] at hw
  exact ⟨⟨hw.view.table, hw.view.pte⟩, hw.inside, hw.outside, hw.freelist, hw.fails⟩

/-- Copying a piece of a segment. -/
theorem Holds.copied {i : ℕ} (hH : Holds (ph.over f i c) d N v) (sz : UInt32) (h : Apart v d)
    (hN : N ≤ KERNPAGE) (huser : ∀ m < N, UserPte (v.pte d m))
    (haddr : (ph.addr i).toNat = ph.vaddr.toNat + i) (hal : (ph.addr i).toNat % PGSIZE = 0)
    (hoff : (ph.off + UInt32.ofNat i).toNat = ph.off.toNat + i)
    (hfit : ph.vaddr.toNat + i + ph.count f i ≤ N * PGSIZE) (hpos : 0 < ph.count f i) :
    Holds (ph.over f (i + ph.count f i) c) d N (v.copied d f ph sz i) := by
  have hlt : N * PGSIZE ≤ 2 ^ 31 := Nat.mul_le_mul_right PGSIZE hN
  have hpage : ∀ m < N * PGSIZE, UserPte (v.pte d (m / PGSIZE)) := fun m hm =>
    huser _ ((Nat.div_lt_iff_lt_mul (by decide)).2 hm)
  have hu : UserRange v d (ph.addr i).toNat (ph.count f i) := fun j hj =>
    hpage _ (by omega)
  have hw := copied_written f sz h hal (hpage _ (by omega))
  intro m hm
  by_cases hin : ph.vaddr.toNat + i ≤ m ∧ m < ph.vaddr.toNat + i + ph.count f i
  · have hj := hw.inside (m - (ph.vaddr.toNat + i)) (by omega)
    rw [haddr, hoff, Nat.add_sub_cancel' hin.1] at hj
    rw [hj, Proghdr.over, if_pos (by omega)]
    congr 1
    omega
  · rw [hw.userByte h hu (by omega) (by omega) (hpage m hm) (by omega), hH m hm, Proghdr.over,
      Proghdr.over]
    by_cases hold : ph.vaddr.toNat ≤ m ∧ m < ph.vaddr.toNat + i
    · rw [if_pos hold, if_pos (by omega)]
    · rw [if_neg hold, if_neg (by omega)]

/-- What `loaduvm` does with page `k` of a segment : it copies to an address below the size, if it
copies a byte. -/
theorem Built.copyPage (h : Built P O d (pageUp sz) v0 v) (hsz : sz < KERNBASE)
    (hal : (ph.addr (k * PGSIZE)).toNat % PGSIZE = 0)
    (hin : ph.count f (k * PGSIZE) ≠ 0 →
      (ph.addr (k * PGSIZE)).toNat + ph.count f (k * PGSIZE) ≤ sz.toNat) :
    Built P O d (pageUp sz) v0 (v.copied d f ph sz (k * PGSIZE)) ∧
      Confined P.mem v (v.copied d f ph sz (k * PGSIZE)) := by
  have hN := pageUp_le (UInt32.le_of_lt hsz)
  have hle := toNat_le_pageUp sz
  by_cases h0 : ph.count f (k * PGSIZE) = 0
  · exact ⟨h.userWrites hN (userWrites_copied h0), copied_confined fun hne => absurd h0 hne⟩
  have hpages : ∀ j < ph.count f (k * PGSIZE),
      ((ph.addr (k * PGSIZE)).toNat + j) / PGSIZE < pageUp sz := fun j hj => by
    have := hin h0
    exact (Nat.div_lt_iff_lt_mul (by decide)).2 (by omega)
  have hpage : page (ph.addr (k * PGSIZE)) < pageUp sz := hpages 0 (Nat.pos_of_ne_zero h0)
  have huser := h.user _ hpage
  have hapart := h.own.apart (a := none) rfl h.kern
  refine ⟨h.userWrites hN ((copied_written f sz hapart hal huser).userWrites
    (fun j hj => h.user _ (hpages j hj)) ?_), copied_confined fun _ => ⟨hin h0, hsz, huser, ?_⟩⟩
  · have := hin h0
    exact this.trans sz.toNat_lt.le
  · exact h.own.pool_held (.frame none (page (ph.addr (k * PGSIZE)))) _
      ((page_frame rfl (hpage.trans_le hN)).trans (mapped_of_present huser.1))

/-- The loop of `loaduvm` from page `k` of the segment on. -/
theorem loadLoop_built (hsz : sz < KERNBASE) (hal : ph.vaddr.toNat % PGSIZE = 0)
    (hin : ph.Inside f sz) :
    ∀ (count k : ℕ) (v : Mem), Built P O d (pageUp sz) v0 v → k + count = pageUp ph.filesz →
      (∀ j < k, ph.WholeAt f j) →
      (∀ j < k, HasTable (pageUp sz) (page (ph.addr (j * PGSIZE)))) →
      (k ≠ 0 → ph.vaddr.toNat + min (k * PGSIZE) ph.filesz.toNat ≤ sz.toNat ∧
        (k * PGSIZE < ph.filesz.toNat → ph.off.toNat + k * PGSIZE ≤ f.size)) →
      wp (loadLoop d f ph sz count (k * PGSIZE)) (fun r v' => ph.Placed f sz ∧
        Built P O d (pageUp sz) v0 v' ∧ Confined P.mem v v' ∧
        v'.freelist = v.freelist ∧ v'.fails = v.fails ∧ (r = true ↔ ph.Whole f) ∧
        (r = true → ph.Fits sz ∧
          ∀ c, Holds (ph.over f (min (k * PGSIZE) ph.filesz.toNat) c) d (pageUp sz) v →
            Holds (ph.over f ph.filesz.toNat c) d (pageUp sz) v'))
        (fun _ v' => ¬ph.Placed f sz ∧ Confined P.mem v v') v
  | 0, k, v, h, hk, hwhole, htable, hpos => by
    obtain rfl : k = pageUp ph.filesz := hk
    have hlen : ph.filesz.toNat ≤ pageUp ph.filesz * PGSIZE := toNat_le_pageUp _
    rw [min_eq_right hlen] at hpos ⊢
    refine ⟨⟨hal, fun j hj => htable j hj.lt⟩, h, Confined.refl v, rfl, rfl,
      iff_of_true rfl hwhole, fun _ => ⟨?_, fun _ => id⟩⟩
    by_cases h0 : ph.filesz = 0
    · exact .inl h0
    · refine .inr (hpos fun he => h0 (UInt32.toNat_inj.1 ?_)).1
      rw [he] at hlen
      exact Nat.le_zero.1 (hlen.trans_eq (Nat.zero_mul _))
  | count + 1, k, v, h, hk, hwhole, htable, hpos => by
    have hN := pageUp_le (UInt32.le_of_lt hsz)
    have hszN : sz.toNat < 2 ^ 31 := UInt32.lt_iff_toNat_lt.1 hsz
    have hlt : k < pageUp ph.filesz := by omega
    have hi := lt_filesz hlt
    have hreach : ph.Reaches f sz k := ⟨hlt, hwhole, htable⟩
    have hv := ph.vaddr.toNat_lt
    have haddr : (ph.addr (k * PGSIZE)).toNat = ph.vaddr.toNat + k * PGSIZE := by
      refine addr_toNat ?_
      by_cases h0 : k = 0
      · rw [h0]
        exact hv
      · have := (hpos h0).1
        omega
    have hal' : (ph.addr (k * PGSIZE)).toNat % PGSIZE = 0 := by
      rw [haddr, Nat.add_mul_mod_self_right, hal]
    have hiff := h.table_iff (n := page (ph.addr (k * PGSIZE))) (div_lt_npages (UInt32.toNat_lt _))
    unfold loadLoop
    rw [wp_bind, wp_walkpgdir_false, ← Proghdr.addr]
    cases ht : v.table d (PDX (page (ph.addr (k * PGSIZE)))) with
    | none =>
      exact ⟨fun hp => hiff.2 (hp.table k hreach) ht, Confined.refl v⟩
    | some t =>
      have hhas := hiff.1 (by simp [ht])
      have hbelow := hin k hreach hhas
      obtain ⟨hbuilt, hcopied⟩ := h.copyPage hsz hal' hbelow
      simp only [Option.map_some, wp_bind, wp_get, wp_modify, ← pte_of_table ht]
      split_ifs with hm
      · replace hm : ph.WholeAt f k := hm
        have hP : 0 < PGSIZE := by decide
        have hcount : ph.count f (k * PGSIZE) = min (ph.filesz.toNat - k * PGSIZE) PGSIZE := hm
        have hin' := readi_eq (hcount : f.readi _ _ = _) (by omega)
        have hsize : f.size < 2 ^ 32 := f.size_le.trans_lt (by decide)
        have hoff' : (ph.off + UInt32.ofNat (k * PGSIZE)).toNat = ph.off.toNat + k * PGSIZE := by
          have hfile := ph.filesz.toNat_lt
          have := ph.off.toNat_lt
          rw [UInt32.toNat_add, UInt32.toNat_ofNat']
          by_cases h0 : k = 0
          · subst h0
            omega
          · have := (hpos h0).2 hi
            omega
        have hnext : k * PGSIZE + PGSIZE = (k + 1) * PGSIZE := by rw [Nat.add_mul, one_mul]
        have hmin : min ((k + 1) * PGSIZE) ph.filesz.toNat =
            k * PGSIZE + ph.count f (k * PGSIZE) := by omega
        replace hbelow := hbelow (by omega)
        have hsucc : ∀ {p : ℕ → Prop}, p k → (∀ j < k, p j) → ∀ j < k + 1, p j :=
          fun hp hall j hj => (Nat.lt_succ_iff_lt_or_eq.1 hj).elim (hall j) (· ▸ hp)
        rw [hnext]
        refine wp_mono' (loadLoop_built hsz hal hin count (k + 1) _ hbuilt (by omega)
          (hsucc hm hwhole)
          (hsucc (p := fun j => HasTable (pageUp sz) (page (ph.addr (j * PGSIZE)))) hhas htable)
          fun _ => ⟨by omega, fun hlast => by omega⟩) ?_ ?_
        · rintro r v' ⟨hpl, hb, hc, hl, hf, hw, hH⟩
          refine ⟨hpl, hb, hcopied.trans hc, hl, hf, hw, fun hr => ⟨(hH hr).1, fun c hc => ?_⟩⟩
          rw [min_eq_left hi.le] at hc
          have hfit := toNat_le_pageUp sz
          have := hc.copied sz (h.own.apart (a := none) rfl h.kern) hN h.user haddr hal' hoff'
            (by omega) (by omega)
          exact (hH hr).2 c (by rwa [hmin])
        · exact fun _ v' he => ⟨he.1, hcopied.trans he.2⟩
      · refine ⟨⟨hal, fun j hj => ?_⟩, hbuilt, hcopied, rfl, rfl,
          iff_of_false Bool.false_ne_true fun hall => hm (hall k hlt), by simp⟩
        rcases lt_trichotomy j k with hlt | rfl | hgt
        · exact htable j hlt
        · exact hhas
        · exact absurd (hj.whole k hgt) hm

theorem over_zero : ph.over f 0 c = c := by
  funext n
  rw [Proghdr.over, if_neg (by omega)]

/-- `loaduvm` copies a segment, if no byte of it goes past the size. -/
theorem loaduvm_built (h : Built P O d (pageUp sz) v0 v) (hsz : sz < KERNBASE)
    (hin : ph.vaddr.toNat % PGSIZE = 0 → ph.Inside f sz) :
    wp (loaduvm d f ph sz) (fun r v' => ph.Placed f sz ∧ Built P O d (pageUp sz) v0 v' ∧
      Confined P.mem v v' ∧ v'.freelist = v.freelist ∧ v'.fails = v.fails ∧
      (r = true ↔ ph.Whole f) ∧
      (r = true → ph.Fits sz ∧
        ∀ c, Holds c d (pageUp sz) v → Holds (ph.over f ph.filesz.toNat c) d (pageUp sz) v'))
      (fun _ v' => ¬ph.Placed f sz ∧ Confined P.mem v v') v := by
  unfold loaduvm
  split_ifs with hal
  · exact ⟨fun hp => hal hp.aligned, Confined.refl v⟩
  · rw [ne_eq, not_not] at hal
    have hloop := loadLoop_built hsz hal (hin hal) (pageUp ph.filesz) 0 v h (Nat.zero_add _)
      (fun j hj => absurd hj j.not_lt_zero) (fun j hj => absurd hj j.not_lt_zero)
      fun h0 => absurd rfl h0
    simpa only [Nat.zero_mul, Nat.zero_min, over_zero] using hloop

end

/-! ## The program headers -/

/-- The segments that `exec` loads from `count` program headers on, for an image of `sz` bytes so
far, each with the size that it leaves, and the size at the end unless one of them is refused. -/
def scan (f : Image) : ℕ → UInt32 → UInt32 → List (Proghdr × UInt32) × Option UInt32
  | 0, _, sz => ([], some sz)
  | count + 1, off, sz =>
    let ph := f.proghdr off.toNat
    let sz' := grown sz (ph.vaddr + ph.memsz)
    if f.readi off PROGHDR ≠ PROGHDR then ([], none)
    else if ph.type ≠ ELF_PROG_LOAD then scan f count (off + 32) sz
    else if ph.memsz < ph.filesz ∨ KERNBASE ≤ ph.vaddr + ph.memsz ∨ sz' = 0 then ([], none)
    else if ph.Whole f then
      ((ph, sz') :: (scan f count (off + 32) sz').1, (scan f count (off + 32) sz').2)
    else ([(ph, sz')], none)

/-- The bytes `c` with segments over them. -/
def overlay (f : Image) (l : List (Proghdr × UInt32)) (c : ℕ → UInt8) : ℕ → UInt8 :=
  l.foldl (fun c q => q.1.over f q.1.filesz.toNat c) c

/-- An image of `sz` bytes is built, with the bytes `c`. -/
structure Stage (P : Pool K) (O : Owners A B) (d : ℕ) (sz : UInt32) (c : ℕ → UInt8) (v0 v : Mem) :
    Prop where
  built : Built P O d (pageUp sz) v0 v
  drawn : Drawn v0 (65 + copyCost (pageUp sz)) v
  holds : Holds c d (pageUp sz) v
  zero : ∀ n, pageUp sz * PGSIZE ≤ n → c n = 0
  size : sz < KERNBASE

section

variable {f : Image} {ph : Proghdr} {sz sz' : UInt32} {c : ℕ → UInt8}

/-- `allocuvm` leads to the next size. -/
theorem allocuvm_stage (h : Stage P O d sz c v0 v) (hnew : newsz < KERNBASE)
    (htab : TablesGranted v0 (pageUp (grown sz newsz))) :
    wp (allocuvm K d sz newsz) (fun r v' =>
      (r = grown sz newsz ∧ Stage P O d r c v0 v') ∨
      r = 0 ∧ Failed P O d v0 v' ∧ ¬Grants v0 (65 + copyCost (pageUp (grown sz newsz)))) E v := by
  refine wp_mono (allocuvm_built h.built h.drawn hnew htab) ?_
  rintro r v' (⟨rfl, hb, hd, hext⟩ | hfail)
  · have hle : pageUp sz ≤ pageUp (grown sz newsz) := by
      refine pageUp_mono ?_
      unfold grown
      split_ifs with hlt
      · exact UInt32.le_refl sz
      · exact UInt32.not_lt.1 hlt
    refine .inl ⟨rfl, hb, hd, h.holds.extend hext h.zero, fun n hn => h.zero n ?_, ?_⟩
    · exact (Nat.mul_le_mul_right PGSIZE hle).trans hn
    · unfold grown
      split_ifs
      · exact h.size
      · exact hnew
  · exact .inr hfail

/-- `loaduvm` puts the bytes in place. -/
theorem loaduvm_stage (h : Stage P O d sz c v0 v)
    (hin : ph.vaddr.toNat % PGSIZE = 0 → ph.Inside f sz) :
    wp (loaduvm d f ph sz) (fun r v' => ph.Placed f sz ∧ Failed P O d v0 v' ∧ Confined P.mem v v' ∧
      (r = true ↔ ph.Whole f) ∧
      (r = true → Stage P O d sz (ph.over f ph.filesz.toNat c) v0 v'))
      (fun _ v' => ¬ph.Placed f sz ∧ Confined P.mem v v') v := by
  refine wp_mono (loaduvm_built h.built h.size hin) ?_
  rintro r v' ⟨hpl, hb, hc, hl, hf, hiff, hH⟩
  refine ⟨hpl, hb.failed, hc, hiff, fun hr => ⟨hb, h.drawn.congr hl hf, (hH hr).2 c h.holds,
    fun n hn => ?_, h.size⟩⟩
  rw [Proghdr.over, if_neg, h.zero n hn]
  rintro ⟨hlo, hhi⟩
  rcases (hH hr).1 with h0 | hfit
  · rw [h0] at hhi
    exact absurd hhi (by simp; omega)
  · have := toNat_le_pageUp sz
    omega

/-- The pages that an image of `sz` bytes takes, with its tables and the kernel's part. -/
def imageCost (sz : UInt32) : ℕ :=
  65 + copyCost (pageUp sz)

/-- Every segment that `exec` gets to has the tables for its pages and is copied below the size. -/
def Sound (f : Image) (v0 : Mem) : List (Proghdr × UInt32) → Prop
  | [] => True
  | q :: l => TablesGranted v0 (pageUp q.2) ∧
    (q.1.vaddr.toNat % PGSIZE = 0 → Grants v0 (imageCost q.2) → q.1.Inside f q.2) ∧
    (q.1.Placed f q.2 → Sound f v0 l)

/-- `loaduvm` does not panic at the segments of `l`. -/
def AllPlaced (f : Image) (l : List (Proghdr × UInt32)) : Prop :=
  ∀ q ∈ l, q.1.Placed f q.2

/-- What the loop of `exec` over the program headers leaves, for segments and a size that are as
`scan` says. -/
structure Scanned (P : Pool K) (O : Owners A B) (d : ℕ) (f : Image)
    (s : List (Proghdr × UInt32) × Option UInt32) (c : ℕ → UInt8) (v0 : Mem) (r : Option UInt32)
    (v' : Mem) : Prop where
  placed : (∀ q ∈ s.1, Grants v0 (imageCost q.2)) → AllPlaced f s.1
  loaded : ∀ sz, r = some sz →
    AllPlaced f s.1 ∧ s.2 = some sz ∧ Stage P O d sz (overlay f s.1 c) v0 v'
  failed : r = none →
    Failed P O d v0 v' ∧ (s.2 = none ∨ ∃ q ∈ s.1, ¬Grants v0 (imageCost q.2))

theorem Scanned.nil {c : ℕ → UInt8} (h : Failed P O d v0 v) :
    Scanned P O d f ([], none) c v0 none v :=
  ⟨fun _ => nofun, nofun, fun _ => ⟨h, .inl rfl⟩⟩

theorem Scanned.cons {q : Proghdr × UInt32} {s : List (Proghdr × UInt32) × Option UInt32}
    {r : Option UInt32}
    (h : Scanned P O d f s (q.1.over f q.1.filesz.toNat c) v0 r v)
    (hq : q.1.Placed f q.2) : Scanned P O d f (q :: s.1, s.2) c v0 r v := by
  refine ⟨fun hg => ?_, fun sz hr => ?_, fun hr => ⟨(h.failed hr).1, (h.failed hr).2.imp id ?_⟩⟩
  · exact forall_mem_cons.2 ⟨hq, h.placed (forall_mem_cons.1 hg).2⟩
  · obtain ⟨hall, hst⟩ := h.loaded sz hr
    exact ⟨forall_mem_cons.2 ⟨hq, hall⟩, hst⟩
  · rintro ⟨q', hq', hno⟩
    exact ⟨q', mem_cons_of_mem _ hq', hno⟩

theorem allocuvm_refused (hbig : KERNBASE ≤ newsz) :
    wp (allocuvm K d oldsz newsz) (fun r v' => r = 0 ∧ v' = v) E v := by
  unfold allocuvm
  rw [if_pos hbig]
  exact ⟨rfl, rfl⟩

/-- The loop of `exec` over the program headers, from `count` of them on. -/
theorem loadSegments_scanned : ∀ (count : ℕ) (off sz : UInt32) (c : ℕ → UInt8) (v : Mem),
    Stage P O d sz c v0 v → Sound f v0 (scan f count off sz).1 →
    wp (loadSegments K d f count off sz)
      (fun r v' => Scanned P O d f (scan f count off sz) c v0 r v' ∧ Confined P.mem v v')
      (fun _ v' => ¬AllPlaced f (scan f count off sz).1 ∧ Confined P.mem v v') v
  | 0, off, sz, c, v, h, _ =>
    ⟨⟨fun _ => forall_mem_nil _,
      fun _ he => Option.some.inj he ▸ ⟨forall_mem_nil _, rfl, h⟩, by simp⟩, Confined.refl v⟩
  | count + 1, off, sz, c, v, h, hs => by
    have hnil : Scanned P O d f ([], none) c v0 none v ∧ Confined P.mem v v :=
      ⟨Scanned.nil h.built.failed, Confined.refl v⟩
    unfold loadSegments
    unfold scan at hs ⊢
    dsimp only at hs ⊢
    by_cases hread : f.readi off PROGHDR ≠ PROGHDR
    · rw [if_pos hread, if_pos hread]
      exact hnil
    rw [if_neg hread] at hs
    rw [if_neg hread, if_neg hread]
    generalize f.proghdr off.toNat = ph at *
    by_cases htype : ph.type ≠ ELF_PROG_LOAD
    · rw [if_pos htype] at hs
      rw [if_pos htype, if_pos htype]
      exact loadSegments_scanned count (off + 32) sz c v h hs
    rw [if_neg htype] at hs
    rw [if_neg htype, if_neg htype]
    by_cases hfile : ph.memsz < ph.filesz
    · rw [if_pos hfile, if_pos (.inl hfile)]
      exact hnil
    rw [if_neg hfile]
    by_cases hbig : KERNBASE ≤ ph.vaddr + ph.memsz
    · rw [if_pos (.inr (.inl hbig))]
      refine wp_seq (allocuvm_refused hbig) ?_
      rintro r v1 ⟨rfl, rfl⟩
      exact hnil
    have hnew := UInt32.not_le.1 hbig
    by_cases hzero : grown sz (ph.vaddr + ph.memsz) = 0
    · rw [if_pos (.inr (.inr hzero))]
      have htab : TablesGranted v0 (pageUp (grown sz (ph.vaddr + ph.memsz))) := by
        rw [hzero]
        exact fun n hn => absurd hn n.not_lt_zero
      refine wp_seq (wp_always (allocuvm_stage h hnew htab) silent_allocuvm) ?_
      rintro r v1 ⟨⟨rfl, hst⟩ | ⟨rfl, hfail, -⟩, hsil⟩
      · rw [if_pos hzero]
        exact ⟨Scanned.nil hst.built.failed, Confined.of_noted hsil nofun⟩
      · exact ⟨Scanned.nil hfail, Confined.of_noted hsil nofun⟩
    have hok : ¬(ph.memsz < ph.filesz ∨ KERNBASE ≤ ph.vaddr + ph.memsz ∨
        grown sz (ph.vaddr + ph.memsz) = 0) := by
      rintro (h' | h' | h')
      exacts [hfile h', hbig h', hzero h']
    rw [if_neg hok] at hs
    rw [if_neg hok]
    generalize hsz' : grown sz (ph.vaddr + ph.memsz) = sz' at *
    -- the segment is loaded whether it is in the file or not
    have hmem : (ph, sz') ∈ (if ph.Whole f then ((ph, sz') :: (scan f count (off + 32) sz').1,
        (scan f count (off + 32) sz').2) else ([(ph, sz')], none)).1 := by
      split_ifs <;> exact mem_cons_self
    have htab : TablesGranted v0 (pageUp sz') := by
      split_ifs at hs <;> exact hs.1
    have hin : ph.vaddr.toNat % PGSIZE = 0 → Grants v0 (imageCost sz') → ph.Inside f sz' := by
      split_ifs at hs <;> exact hs.2.1
    refine wp_seq (wp_always (allocuvm_stage h hnew (by rwa [hsz'])) silent_allocuvm) ?_
    rw [hsz']
    rintro r v1 ⟨⟨rfl, hst⟩ | ⟨rfl, hfail, hno⟩, hsil⟩
    · rw [if_neg hzero]
      have hc1 : Confined P.mem v v1 := Confined.of_noted hsil nofun
      refine wp_bind.2 (wp_mono' (loaduvm_stage hst fun hal => hin hal hst.drawn.grants) ?_ ?_)
      · rintro b v2 ⟨hpl, hfail, hc2, hwhole, hst2⟩
        replace hc2 := hc1.trans hc2
        cases b with
        | true =>
          have hw := hwhole.1 rfl
          rw [if_pos hw] at hs
          rw [if_pos hw]
          exact wp_mono' (loadSegments_scanned count (off + 32) r _ v2 (hst2 rfl) (hs.2.2 hpl))
            (fun _ _ hsc => ⟨Scanned.cons hsc.1 hpl, hc2.trans hsc.2⟩)
            fun _ _ he => ⟨fun hall => he.1 fun q hq => hall q (mem_cons_of_mem _ hq),
              hc2.trans he.2⟩
        | false =>
          rw [if_neg (mt hwhole.2 Bool.false_ne_true)]
          refine ⟨⟨fun _ q hq => ?_, by simp, fun _ => ⟨hfail, .inl rfl⟩⟩, hc2⟩
          obtain rfl := mem_singleton.1 hq
          exact hpl
      · exact fun _ _ he => ⟨fun hall => he.1 (hall _ hmem), hc1.trans he.2⟩
    · exact ⟨⟨fun hg => absurd (hg _ hmem) hno, by simp, fun _ =>
        ⟨hfail, .inr ⟨_, hmem, hno⟩⟩⟩, Confined.of_noted hsil nofun⟩

end

end

end Xv6.Vm
