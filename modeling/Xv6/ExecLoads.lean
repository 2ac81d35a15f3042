import Xv6.ExecOutcome

/-!
# The image that `exec` leaves

What a file asks for, read off its program headers alone : the loadable segments in order, the end
of the highest, and zeros with the bytes of the segments over them. An `exec` of a file whose
segments are proper leaves just that, with the stack page above and a page between that the user
cannot access (`exec_loads`).

`allocuvm` ignores the result of `mappages`, so a call of `kalloc` for a page table that fails at
the wrong moment leaves a page of the image out, and `exec` succeeds all the same
(`exec_leaves_hole`).
-/

open Layout List
open Prog

namespace Xv6.Vm

/-! ## What a file asks for -/

/-- The `count` program headers from `off` on. -/
def Image.headers (f : Image) (count : ℕ) (off : UInt32) : List Proghdr :=
  (List.range count).map fun i => f.proghdr (off + 32 * UInt32.ofNat i).toNat

/-- The loadable segments of a file. -/
def Image.loads (f : Image) : List Proghdr :=
  (f.headers f.phnum f.phoff).filter (·.type = ELF_PROG_LOAD)

/-- The end of the highest segment. -/
def topOf (l : List Proghdr) : ℕ :=
  l.foldl (fun m ph => max m (ph.vaddr.toNat + ph.memsz.toNat)) 0

/-- Zeros with the bytes of the segments over them. -/
def Image.overlaid (f : Image) : ℕ → UInt8 :=
  f.loads.foldl (fun c ph => ph.over f ph.filesz.toNat c) fun _ => 0

/-- A segment at a page boundary, whose bytes are in the file and whose memory is below
`KERNBASE`. -/
structure Proghdr.Proper (ph : Proghdr) (f : Image) : Prop where
  aligned : ph.vaddr.toNat % PGSIZE = 0
  filesz : ph.filesz ≤ ph.memsz
  memory : ph.vaddr.toNat + ph.memsz.toNat < KERNBASE.toNat
  file : ph.off.toNat + ph.filesz.toNat ≤ f.size

section

variable {f : Image} {ph : Proghdr} {sz sz' : UInt32}

theorem headers_succ (count : ℕ) (off : UInt32) :
    f.headers (count + 1) off = f.proghdr off.toNat :: f.headers count (off + 32) := by
  rw [Image.headers, range_succ_eq_map, map_cons, map_map]
  refine congrArg₂ _ (by simp) (map_congr_left fun i _ => ?_)
  have hi : off + 32 * UInt32.ofNat (i + 1) = off + 32 + 32 * UInt32.ofNat i := by
    rw [UInt32.ofNat_add]
    grind
  exact congrArg (fun o => f.proghdr o.toNat) hi

theorem Proghdr.Proper.end_toNat (h : ph.Proper f) :
    (ph.vaddr + ph.memsz).toNat = ph.vaddr.toNat + ph.memsz.toNat := by
  have := h.memory
  rw [UInt32.toNat_add, Nat.mod_eq_of_lt (this.trans (by decide))]

theorem grown_toNat : (grown sz sz').toNat = max sz.toNat sz'.toNat := by
  unfold grown
  split_ifs with h
  · rw [UInt32.lt_iff_toNat_lt] at h
    omega
  · rw [UInt32.not_lt, UInt32.le_iff_toNat_le] at h
    omega

/-- The headers that `exec` goes through are those of the file, and the size it gets is the end of
the highest segment. -/
theorem scan_proper : ∀ (count : ℕ) (off sz : UInt32),
    (∀ ph ∈ (f.headers count off).filter (·.type = ELF_PROG_LOAD), ph.Proper f) →
    ∀ sz', (scan f count off sz).2 = some sz' →
      (scan f count off sz).1.map Prod.fst =
        (f.headers count off).filter (·.type = ELF_PROG_LOAD) ∧
      sz'.toNat = ((f.headers count off).filter (·.type = ELF_PROG_LOAD)).foldl
        (fun m ph => max m (ph.vaddr.toNat + ph.memsz.toNat)) sz.toNat
  | 0, off, sz, _, sz', h => ⟨rfl, by rw [← Option.some.inj h]; rfl⟩
  | count + 1, off, sz, hp, sz', h => by
    rw [headers_succ] at hp ⊢
    unfold scan at h ⊢
    dsimp only at h ⊢
    generalize f.proghdr off.toNat = ph at *
    split_ifs at h ⊢ with hread htype hbad hwhole
    · rw [filter_cons_of_neg (by simpa using htype)] at hp ⊢
      exact scan_proper count (off + 32) sz hp sz' h
    · rw [ne_eq, not_not] at htype
      rw [filter_cons_of_pos (by simpa using htype)] at hp ⊢
      obtain ⟨hph, hp⟩ := forall_mem_cons.1 hp
      obtain ⟨hmap, hsz⟩ := scan_proper count (off + 32) _ hp sz' h
      refine ⟨by rw [map_cons, hmap], ?_⟩
      rw [hsz, grown_toNat, hph.end_toNat, foldl_cons]

theorem foldl_max_lt {N : ℕ} : ∀ (l : List Proghdr) (m : ℕ), m < N →
    (∀ ph ∈ l, ph.vaddr.toNat + ph.memsz.toNat < N) →
    l.foldl (fun m ph => max m (ph.vaddr.toNat + ph.memsz.toNat)) m < N
  | [], _, hm, _ => hm
  | ph :: l, m, hm, h => by
    obtain ⟨hph, hl⟩ := forall_mem_cons.1 h
    exact foldl_max_lt l _ (max_lt hm hph) hl

theorem plan_proper (hp : ∀ ph ∈ f.loads, ph.Proper f) (h : f.plan.2 = some sz) :
    sz < KERNBASE ∧ sz.toNat = topOf f.loads ∧ f.bytes = f.overlaid := by
  obtain ⟨hmap, hsz⟩ := scan_proper f.phnum f.phoff 0 hp sz h
  refine ⟨?_, hsz, ?_⟩
  · rw [UInt32.lt_iff_toNat_lt, hsz]
    exact foldl_max_lt _ _ (by decide) fun ph hph => (hp ph hph).memory
  rw [Image.bytes, Image.overlaid, Image.loads, ← hmap, overlay, foldl_map]
  rfl

end

/-! ## The old address space is given up -/

section

variable {K : Link} {P : Pool K} {A B : Type} {O : Owners A B} {v v' : Mem} {a : A}
  {cur d m n x : ℕ} {sz : UInt32} {E : Stop → Mem → Prop} {f : Image} {argv : List (List UInt8)}

/-- The page is owned through the address space of `a`. -/
def Ref.Of (r : Ref A B) (a : A) : Prop :=
  r = .dir a ∨ (∃ i, r = .table a i) ∨ ∃ n, r = .frame a n

theorem freevm_words (h : Own P O v) (ha : O.roots a = some cur) :
    wp (freevm K cur) (fun _ v' => ∀ r x, O.page v r = some x → ¬r.Of a → v'.word x = v.word x)
      E v := by
  let O₁ : Owners Unit Empty := ⟨fun _ => some cur, Empty.elim⟩
  have hO : Among O₁ O (fun _ => a) Empty.elim :=
    ⟨fun _ _ hd => ha.trans hd, fun b => b.elim, fun _ _ _ _ _ _ => rfl, fun b => b.elim⟩
  let S : ℕ → Prop := fun x => P.mem x ∧ x ∉ v.freelist ∧ Outside O₁ v x
  have hown := (h.among hO).keeping (S := S) fun _ => id
  refine wp_mono (freevm_spec (a := ()) hown rfl) ?_
  rintro - v' ⟨-, hkept, -⟩ r x hr hne
  have hout : Outside O₁ v x :=
    ⟨fun _ hx => hne (.inl (h.inj _ _ x hr (hO.page hx))),
      fun _ i hx => hne (.inr (.inl ⟨i, h.inj _ _ x hr (hO.page hx)⟩)),
      fun _ n hx => hne (.inr (.inr ⟨n, h.inj _ _ x hr (hO.page hx)⟩))⟩
  have hS : S x := ⟨h.pool_held r x hr, h.not_free r x hr, hout⟩
  exact hkept.word x x ((keeping_other (O := O₁) (S := S)).2 ⟨hS, rfl⟩)

theorem freevm_other (h : Own P (O.addRoot d) v) (ha : O.roots a = some cur) :
    wp (freevm K cur) (fun _ v' => SameView v v' d ∧
      ∀ m < KERNPAGE, present (v.pte d m) = true → SamePage v v' d m) E v := by
  refine wp_mono (freevm_words (a := some a) h ha) fun _ v' hw => ?_
  have hview : SameView v v' d := by
    refine SameView.of_word (hw (.dir none) d rfl ?_) fun i hi t ht =>
      hw (.table none i) t ((page_table rfl hi).trans ht) ?_
    · simp [Ref.Of]
    · simp [Ref.Of]
  refine ⟨hview, fun m hm hp => ⟨hview.pte m (lt_npages hm), hw (.frame none m) _
    ((page_frame rfl hm).trans (mapped_of_present hp)) ?_⟩⟩
  simp [Ref.Of]

/-! ## The image -/

/-- The image that the file asks for : its pages, the page below the stack page, that the user
cannot access, and the stack page. -/
structure Faithful (f : Image) (d : ℕ) (sz : UInt32) (v : Mem) : Prop where
  size : sz.toNat = (topOf f.loads + PGSIZE - 1) / PGSIZE * PGSIZE + 2 * PGSIZE
  page : ∀ m < sz.toNat / PGSIZE - 2, UserPte (v.pte d m)
  bytes : ∀ n < sz.toNat - 2 * PGSIZE, v.userByte d n = f.overlaid n
  guard : present (v.pte d (sz.toNat / PGSIZE - 2)) = true ∧
    user (v.pte d (sz.toNat / PGSIZE - 2)) = false
  stack : UserPte (v.pte d (sz.toNat / PGSIZE - 1))

theorem SamePage.userByte (h : SamePage v v' d (n / PGSIZE)) :
    v'.userByte d n = v.userByte d n := by
  rw [Mem.userByte, Mem.userByte, Mem.byte, Mem.byte, h.1, h.2]

/-- What `exec` leaves is faithful. -/
theorem Launched.faithful {v0 : Mem} (hL : Launched P O d (stackTop sz) f.bytes argv v0 v)
    (hlt : stackTop sz < KERNBASE) (hsz : sz < KERNBASE) (htop : sz.toNat = topOf f.loads)
    (hbytes : f.bytes = f.overlaid)
    (hsame : ∀ m < KERNPAGE, present (v.pte d m) = true → SamePage v v' d m) :
    Faithful f d (stackTop sz) v' := by
  have hT := stackTop_toNat hsz
  rw [pageUp, htop, Nat.add_mul] at hT
  rw [hbytes] at hL
  generalize stackTop sz = T at *
  have hltN : T.toNat < 2 ^ 31 := UInt32.lt_iff_toNat_lt.1 hlt
  have hpages : T.toNat / PGSIZE < KERNPAGE ∧ 2 ≤ T.toNat / PGSIZE := by
    simp only [PGSIZE, KERNPAGE] at *
    omega
  have hsame' : ∀ m < T.toNat / PGSIZE, SamePage v v' d m := fun m hm =>
    hsame m (by omega) (hL.guarded.present hm)
  refine ⟨hT, fun m hm => ?_, fun n hn => ?_, ?_, ?_⟩
  · rw [(hsame' m (by omega)).1]
    exact hL.guarded.page m (by omega) (by omega)
  · rw [(hsame' _ ?_).userByte]
    · exact hL.image n hn
    · simp only [PGSIZE] at *
      omega
  · rw [(hsame' _ (by omega)).1]
    exact hL.guarded.guard
  · rw [(hsame' _ (by omega)).1]
    exact hL.guarded.page _ (by omega) (by omega)

/-- An `exec` that succeeds leaves the image that the file asks for. -/
theorem exec_loads (h : Own P O v) (ha : O.roots a = some cur)
    (hp : ∀ ph ∈ f.loads, ph.Proper f) (hs : f.IsElf → ExecSound v f argv)
    (hrun : exec K cur f argv v = .ok (some (d, sz)) v') : Faithful f d sz v' := by
  have hwp : wp (exec K cur f argv) (fun r v' => ∀ d sz, r = some (d, sz) → Faithful f d sz v')
      (fun _ _ => True) v := by
    refine exec_rule h hs (fun _ => nofun) (fun _ _ _ _ _ => nofun) (fun _ _ _ _ _ _ => nofun)
      (fun _ _ d sz v1 hplan hlt hL => ?_) fun _ _ _ _ => trivial
    obtain ⟨hsz, htop, hbytes⟩ := plan_proper hp hplan
    refine wp_mono (freevm_other hL.guarded.own ha) fun _ v2 hv2 => ?_
    rintro d' sz' hr
    obtain ⟨rfl, rfl⟩ := Prod.mk.inj (Option.some.inj hr)
    exact hL.faithful hlt hsz htop hbytes hv2.2
  exact wp_ok hwp hrun d sz rfl

end

/-! ## A page that is left out -/

section

variable {K : Link} {P : Pool K} {A B : Type} {O : Owners A B} {v0 v v' : Mem} {a : A}
  {cur d n x : ℕ} {c : ℕ → UInt8} {perm : UInt32} {E : Stop → Mem → Prop}

theorem kalloc_next : wp kalloc (fun r v' => v'.fails = v.fails.tail ∧
    (r ≠ none ↔ v.freelist ≠ [] ∧ v.fails.headD false = false)) E v := by
  unfold kalloc
  simp only [wp_bind, wp_get]
  split
  · next x l hf hl => exact ⟨rfl, iff_of_true (by simp) ⟨by simp [hl], hf⟩⟩
  · next hne =>
    refine ⟨rfl, iff_of_false (by simp) ?_⟩
    rintro ⟨hl, hf⟩
    obtain ⟨x, l, hl⟩ := exists_cons_of_ne_nil hl
    exact hne x l hf hl

theorem kalloc_none (hf : v.fails.headD false = true) :
    wp kalloc (fun r v' => r = none ∧ v' = { v with fails := v.fails.tail }) E v := by
  unfold kalloc
  simp only [wp_bind, wp_get]
  split
  · next hf' _ => exact absurd (hf.symm.trans hf') (by decide)
  · exact ⟨rfl, rfl⟩

theorem mappages_no_table (ht : v.table d (PDX n) = none) (hf : v.fails.headD false = true) :
    wp (mappages d perm 1 n x) (fun _ v' => v'.word = v.word ∧ v'.freelist = v.freelist ∧
      v'.fails = v.fails.tail) E v := by
  have hp : present (v.word d (PDX n)) = false := by
    simpa [Mem.table] using ht
  unfold mappages walkpgdir
  simp only [wp_bind, wp_get, hp, Bool.false_eq_true, if_false, reduceCtorEq]
  refine wp_mono (kalloc_none hf) ?_
  rintro r v1 ⟨rfl, rfl⟩
  exact ⟨rfl, rfl, rfl⟩

/-- No page of the user is mapped, and some pages are free. -/
structure Bare (P : Pool K) (O : Owners A B) (d : ℕ) (v : Mem) : Prop where
  own : Own P (O.addRoot d) v
  kern : Kern K v d
  rest : ∀ m < KERNPAGE, v.pte d m = 0
  fails : v.fails = []
  pages : 4 ≤ v.freelist.length

/-- `allocuvm` returns the new size, though there was no page for the table. -/
theorem allocuvm_hole (h : Stage P O d 0 c v0 v) (hf : v.fails = [false, true])
    (hlen : 5 ≤ v.freelist.length) :
    wp (allocuvm K d 0 0x1000) (fun r v' => r = 0x1000 ∧ Bare P O d v') E v := by
  have ht : v.table d (PDX 0) = none := ((h.built.newTable_iff le_rfl (by decide)).2 rfl).1
  unfold allocuvm
  rw [if_neg (by decide), if_neg (by decide), show pageUp 0x1000 - pageUp 0 = 1 by decide,
    show pageUp 0 = 0 by decide]
  unfold allocLoop
  refine wp_seq (Q := fun b v' => b = true ∧ Bare P O d v') ?_ ?_
  · refine wp_seq (wp_and (kalloc_spec h.built.own) kalloc_next) ?_
    rintro r v1 ⟨⟨hw, hown1, hr⟩, hf1, hsome⟩
    cases r with
    | none => exact absurd rfl (hsome.2 ⟨by rintro h0; simp [h0] at hlen, by rw [hf]; rfl⟩)
    | some x =>
      obtain ⟨hx, hl⟩ := hr
      have hview : SameView v (v1.fill x fun _ => 0) d :=
        (SameView.of_word_eq hw d).trans ((hx.kept_fill fun _ => 0).view none d id rfl)
      rw [hf] at hf1
      refine wp_bind.2 ((wp_modify _).2 (wp_seq (mappages_no_table ?_ ?_) ?_))
      · rw [hview.table _ (by decide), ht]
      · exact congrArg (List.headD · false) hf1
      · rintro b v2 ⟨hw2, hl2, hf2⟩
        have hview2 := SameView.of_word_eq hw2
        refine ⟨rfl, (hx.own_fill hown1 _).congr hl2 fun _ d' _ => hview2 d',
          h.built.kern.sameView (hview.trans (hview2 d)), fun m hm => ?_, ?_, ?_⟩
        · rw [(hview.trans (hview2 d)).pte m (lt_npages hm)]
          exact h.built.rest m (Nat.zero_le m) hm
        · exact hf2.trans (congrArg List.tail hf1)
        · rw [hl, length_cons] at hlen
          rw [hl2]
          exact Nat.le_of_succ_le_succ hlen
  · rintro b v1 ⟨rfl, hb⟩
    exact ⟨rfl, hb⟩

theorem allocuvm_above (h : Bare P O d v) :
    wp (allocuvm K d 0x1000 0x3000) (fun r v' => r = 0x3000 ∧
      Filling P (O.addRoot d) none d userPerm zeroPage 1 3 true v v') E v := by
  have hg : Grants v 4 := ⟨h.pages, by simp [h.fails]⟩
  have hcost : ∀ m, allocCost v d 1 m ≤ 2 * (m - 1) := fun m => by
    have := Finset.card_filter_le (Finset.Ico 1 m) (NewTable v d 1)
    rw [Nat.card_Ico] at this
    unfold allocCost
    omega
  have htables : ∀ m, 1 ≤ m → m < 3 → TableGranted v d 1 m := fun m _ hm _ _ =>
    hg.mono (by have := hcost m; omega)
  refine wp_mono (allocuvm_filling h.own (a := none) rfl (fun m _ hm => ?_) (by decide)
    (by decide)) ?_
  · rw [h.rest m (hm.trans (by decide)), present_zero]
  rw [show pageUp 0x1000 = 1 by decide, show pageUp 0x3000 = 3 by decide]
  rintro r v' (⟨rfl, ok, hend, hf, -⟩ | ⟨rfl, ok, hend, -⟩)
  · obtain rfl := hend.tables.2 htables
    exact ⟨rfl, hf⟩
  · exact absurd (hg.mono (hcost 3)) (hend.pages rfl (hend.tables.2 htables))

/-- The stack page, and the page below it without user access. -/
theorem clearpteu_above (h : Bare P O d v)
    (hf : Filling P (O.addRoot d) none d userPerm zeroPage 1 3 true v v') :
    wp (clearpteu d 1) (fun _ v'' => Own P (O.addRoot d) v'' ∧ Kern K v'' d ∧ v''.pte d 0 = 0 ∧
      Loaded v'' d 0x3000) E v' := by
  have hpage : ∀ m, 1 ≤ m → m < 3 → UserPte (v'.pte d m) := fun m hm hm' => by
    obtain ⟨x, -, -, hpte, -⟩ := hf.page m hm hm' (hf.full rfl m hm hm')
    rw [hpte]
    exact userPte_entry
  have hone := hpage 1 le_rfl (by omega)
  refine wp_mono (clearpteu_own hf.grew.own (by decide) hone.1) ?_
  rintro - v2 ⟨hown, -, hset, -⟩
  have hkern : Kern K v2 d := fun m hm hm' => by
    have hK : KERNPAGE = 0x80000 := rfl
    rw [hset.rest m hm' (by omega), hf.pte m hm' (by omega)]
    exact h.kern m hm hm'
  have hstack : UserPte (v2.pte d 2) := by
    rw [hset.rest 2 (by decide) (by decide)]
    exact hpage 2 (by omega) (by omega)
  have hzero : v2.pte d 0 = 0 := by
    rw [hset.rest 0 (by decide) (by decide), hf.pte 0 (by decide) (by omega)]
    exact h.rest 0 (by decide)
  refine ⟨hown, hkern, hzero, hown.apart (a := none) rfl hkern, by decide, by decide,
    fun n hn => ?_, (congrArg user hset.same).trans (user_clear _), hstack, fun n hn hp he => ?_⟩
  · have hn : n < 3 := hn
    rw [show PDX n = PDX 1 by simp only [PDX, NPTENTRIES]; omega, hset.table _ (by decide)]
    exact table_ne_none hone.1
  · have hn : n < 2 := hn
    have := hown.frame_inj (a := none) rfl (hn.trans (by decide)) (by decide) hp hstack.1 he
    omega

theorem startProgram_hole {p : M (Option UInt32)} (hp : p = startProgram K cur d [] 0x1000)
    (h : Bare P O d v) :
    wp p (fun r v' => r = some 0x3000 ∧ Own P (O.addRoot d) v' ∧ v'.pte d 0 = 0)
      (fun _ _ => False) v := by
  rw [hp]
  unfold startProgram
  dsimp only
  rw [show UInt32.ofNat (pageUp 0x1000 * PGSIZE) = 0x1000 by decide,
    show (0x1000 : UInt32) + 2 * 4096 = 0x3000 by decide]
  refine wp_seq (allocuvm_above h) ?_
  rintro r v1 ⟨rfl, hf⟩
  rw [if_neg (by decide), show page ((0x3000 : UInt32) - 2 * 4096) = 1 by decide]
  refine wp_seq (clearpteu_above h hf) ?_
  rintro - v2 ⟨hown, hkern, hzero, hloaded⟩
  refine wp_seq (pushStack_spec hloaded hkern.refused trivial) ?_
  rintro r v3 ⟨hw, hr⟩
  rw [if_pos (by decide)] at hr
  obtain ⟨rfl, -⟩ := hr
  exact ⟨rfl, (hw.own hown (a := none) rfl hkern).1, (hw.view.pte 0 (by decide)).trans hzero⟩

end

/-- The header of a segment of one page at address 0, that has no bytes in the file. -/
def bssHeader : Proghdr :=
  ⟨ELF_PROG_LOAD, 0, 0, 0, 0x1000⟩

/-- A program with that header. -/
def bssImage : Image :=
  .ofWords (elfWords [bssHeader]) (by decide)

section

variable {K : Link} {P : Pool K} {A B : Type} {O : Owners A B} {v0 v : Mem} {a : A} {cur d : ℕ}
  {c : ℕ → UInt8}

theorem bssImage_proper : ∀ ph ∈ bssImage.loads, ph.Proper bssImage := by
  rw [show bssImage.loads = [bssHeader] by decide]
  intro ph hph
  obtain rfl := mem_singleton.1 hph
  exact ⟨by decide, by decide, by decide, by decide⟩

theorem loadSegments_hole (h : Stage P O d 0 c v0 v) (hf : v.fails = [false, true])
    (hlen : 5 ≤ v.freelist.length) :
    wp (loadSegments K d bssImage 1 52 0) (fun r v' => r = some 0x1000 ∧ Bare P O d v')
      (fun _ _ => False) v := by
  unfold loadSegments
  rw [if_neg (by decide)]
  dsimp only
  rw [show bssImage.proghdr (52 : UInt32).toNat = bssHeader by decide, if_neg (by decide),
    if_neg (by decide),
    show bssHeader.vaddr + bssHeader.memsz = 0x1000 by decide]
  refine wp_seq (allocuvm_hole h hf hlen) ?_
  rintro r v1 ⟨rfl, hb⟩
  rw [if_neg (by decide)]
  unfold loaduvm
  rw [if_neg (by decide), show pageUp bssHeader.filesz = 0 by decide]
  exact ⟨rfl, hb⟩

theorem exec_hole (h : Own P O v) (ha : O.roots a = some cur)
    (hf : v.fails = List.replicate 66 false ++ [true]) (hlen : 70 ≤ v.freelist.length) :
    ∃ d sz v', exec K cur bssImage [] v = .ok (some (d, sz)) v' ∧ ¬Faithful bssImage d sz v' := by
  suffices hwp : wp (exec K cur bssImage [])
      (fun r v' => ∃ d, r = some (d, 0x3000) ∧ v'.pte d 0 = 0) (fun _ _ => False) v by
    obtain ⟨r, v', hrun, d, rfl, hzero⟩ := exists_ok_of_wp hwp
    refine ⟨d, _, v', hrun, fun hfaith => ?_⟩
    have hu := hfaith.page 0 (by decide)
    rw [hzero] at hu
    exact absurd hu.1 (by decide)
  have hg : Grants v 65 := ⟨by omega, by rw [hf]; decide⟩
  unfold exec
  rw [if_neg (by decide), if_neg (by decide)]
  refine wp_seq (setupkvm_stage h) fun r v1 hr => ?_
  cases r with
  | none => exact absurd hg hr.2.2
  | some d =>
    have hf1 : v1.fails = [false, true] := by
      have := hr.drawn.fails
      rw [hf] at this
      exact this
    have hlen1 := congrArg List.length hr.drawn.freelist
    rw [length_drop, show 65 + copyCost (pageUp 0) = 65 by decide] at hlen1
    dsimp only
    unfold loadImage
    rw [show bssImage.phnum = 1 by decide, show bssImage.phoff = 52 by decide, bind_assoc]
    refine wp_seq (loadSegments_hole hr hf1 (by omega)) ?_
    rintro r v2 ⟨rfl, hb⟩
    dsimp only
    generalize hp : startProgram K cur d [] 0x1000 = p
    refine wp_seq (startProgram_hole hp.symm hb) ?_
    rintro r v3 ⟨rfl, hown, hzero⟩
    refine wp_seq (freevm_other hown ha) fun _ v4 hv4 => ⟨d, rfl, ?_⟩
    rw [hv4.1.pte 0 (by decide), hzero]

theorem exec_succeeds {f : Image} {argv : List (List UInt8)} (h : Own P O v)
    (ha : O.roots a = some cur) (helf : f.IsElf) (hs : ExecSound v f argv)
    (hfits : ExecFits v f argv) (hp : AllPlaced f f.plan.1) :
    ∃ d sz v', exec K cur f argv v = .ok (some (d, sz)) v' := by
  have hwp : wp (exec K cur f argv) (fun r _ => ∃ d sz, r = some (d, sz)) (fun _ _ => False) v := by
    classical
    refine exec_rule h (fun _ => hs) (fun hno => absurd helf hno) (fun _ v' _ _ hno => ?_)
      (fun _ _ hno => absurd hfits hno) (fun _ _ d sz v' _ _ hL => ?_) fun _ hno => absurd hp hno
    · obtain ⟨sz, -, -, hg⟩ := hfits.size
      exact absurd (hg.mono (Nat.le_add_right _ _)) hno
    · exact wp_mono (freevm_spec (a := some a) hL.guarded.own ha) fun _ _ _ => ⟨d, _, rfl⟩
  obtain ⟨r, v', hrun, d, sz, rfl⟩ := exists_ok_of_wp hwp
  exact ⟨d, sz, v', hrun⟩

theorem textImage_fits (hg : Grants v 69) : ExecFits v textImage [[97]] := by
  refine ⟨?_, ⟨0x1000, ?_, by decide, hg⟩, by decide, by decide⟩
  · rw [textImage_plan]
    exact forall_mem_singleton.2 (hg.mono (by decide))
  · rw [textImage_plan]

theorem textImage_proper : ∀ ph ∈ textImage.loads, ph.Proper textImage := by
  rw [show textImage.loads = [textHeader] by decide]
  exact forall_mem_singleton.2 ⟨by decide, by decide, by decide, by decide⟩

end

/-- A process of one page and 80 free pages, of which the 67th call of `kalloc` finds none. -/
def holeMem : Mem :=
  { onePage (List.range' 0x403 80) with fails := List.replicate 66 false ++ [true] }

theorem own_holeMem :
    Own (Pool.all smallKernel) (Owners.empty.addRoot 0x400) holeMem := by
  have hword : holeMem.word = (onePage (List.range' 0x403 80)).word := rfl
  exact (own_freePages (n := 80) (by omega)).congr rfl fun _ d _ => SameView.of_word_eq hword d

/-- The first page of the image is not mapped, though `exec` returns 0. -/
theorem exec_leaves_hole :
    Own (Pool.all smallKernel) (Owners.empty.addRoot 0x400) holeMem ∧
    (∀ ph ∈ bssImage.loads, ph.Proper bssImage) ∧
    ∃ d sz v', exec smallKernel 0x400 bssImage [] holeMem = .ok (some (d, sz)) v' ∧
      ¬Faithful bssImage d sz v' := by
  have hroot : (Owners.empty.addRoot 0x400).roots none = some 0x400 := rfl
  exact ⟨own_holeMem, bssImage_proper,
    exec_hole own_holeMem hroot rfl (show 70 ≤ (List.range' 0x403 80).length by simp)⟩

/-- A program with a segment that has bytes in the file, and an argument. -/
theorem exec_loads_text :
    ∃ d sz v', exec smallKernel 0x400 textImage [[97]] (onePage (List.range' 0x403 80)) =
      .ok (some (d, sz)) v' ∧ Faithful textImage d sz v' := by
  have hown := own_freePages (n := 80) (by omega)
  have hg : Grants (onePage (List.range' 0x403 80)) 69 := onePage_grants (by simp)
  obtain ⟨d, sz, v', hrun⟩ := exec_succeeds (a := none) hown rfl ⟨by decide, by decide⟩
    (textImage_sound hg) (textImage_fits hg) (by rw [textImage_plan]; exact textHeader_placed)
  exact ⟨d, sz, v', hrun, exec_loads (a := none) hown rfl textImage_proper
    (fun _ => textImage_sound hg) hrun⟩

end Xv6.Vm
