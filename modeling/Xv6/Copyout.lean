import Xv6.Growproc

/-!
# Copying to user memory

`copyout` writes the pages of the address space one after the other, and stops at the first that
the user may not write. If all may be written, then after it the range holds the bytes and nothing
else has changed (`Written`). `uva2ka` does not look whether `walkpgdir` found a page table, so
where the first page that stops `copyout` has none, it reads through a null pointer; this is the
only way in which `copyout` fails to do what it is to do (`copyout_exact_iff`).
-/

open Layout
open Prog

namespace Xv6.Vm

/-! ## Bytes of memory -/

/-- Byte `o` of page `x`. -/
def Mem.byte (v : Mem) (x o : ℕ) : UInt8 :=
  Codec.u32.toByte (v.word x (o / 4)) (o % 4)

/-- The byte at the address `n` of the address space `d`. -/
def Mem.userByte (v : Mem) (d n : ℕ) : UInt8 :=
  v.byte (frame (v.pte d (n / PGSIZE))) (n % PGSIZE)

section

variable {v v' v'' : Mem} {cur d n m x y o off len fuel : ℕ} {va : UInt32} {data : ℕ → UInt8}
  {E : Stop → Mem → Prop}

theorem div_lt_npages (hn : n < 2 ^ 32) : n / PGSIZE < NPAGES := by
  simp only [PGSIZE, NPAGES]
  omega

theorem byte_fill_poke :
    (v.fill x (poke (v.word x) off len data)).byte y o =
      if y = x ∧ off ≤ o ∧ o < off + len then data (o - off) else v.byte y o := by
  unfold Mem.byte
  by_cases hy : y = x
  · subst hy
    rw [fill_word_same, poke, Codec.toByte_ofByte_u32 _ (Nat.mod_lt o (by omega)), Nat.div_add_mod]
    simp only [true_and]
  · rw [fill_word_ne _ hy, if_neg fun h => hy h.1]

theorem word_eq_of_byte (h : ∀ o, v'.byte x o = v.byte x o) : v'.word x = v.word x := by
  funext i
  rw [← Codec.u32.ofByte_toByte (v'.word x i), ← Codec.u32.ofByte_toByte (v.word x i)]
  refine Codec.u32.ofByte_congr _ _ fun j hj => ?_
  have hj : j < 4 := hj
  have := h (4 * i + j)
  simp only [Mem.byte, Nat.mul_add_mod, Nat.mod_eq_of_lt hj,
    show (4 * i + j) / 4 = i by omega] at this
  exact this

/-! ## Address spaces that can be written -/

/-- The pages that the user may write have frames of their own below `PHYSTOP`, which are neither
the directory nor a table of it. -/
structure Apart (v : Mem) (d : ℕ) : Prop where
  low : ∀ m < NPAGES, UserPte (v.pte d m) → frame (v.pte d m) < PHYSTOP
  inj : ∀ m < NPAGES, ∀ n < NPAGES, UserPte (v.pte d m) → UserPte (v.pte d n) →
    frame (v.pte d m) = frame (v.pte d n) → m = n
  dir : ∀ m < NPAGES, UserPte (v.pte d m) → frame (v.pte d m) ≠ d
  table : ∀ m < NPAGES, UserPte (v.pte d m) → ∀ i < NPTENTRIES,
    v.table d i ≠ some (frame (v.pte d m))

theorem Apart.sameView (h : Apart v d) (hview : SameView v v' d) : Apart v' d := by
  refine ⟨fun m hm => ?_, fun m hm n hn => ?_, fun m hm => ?_, fun m hm hu i hi => ?_⟩
  · rw [hview.pte m hm]
    exact h.low m hm
  · rw [hview.pte m hm, hview.pte n hn]
    exact h.inj m hm n hn
  · rw [hview.pte m hm]
    exact h.dir m hm
  · rw [hview.pte m hm] at hu ⊢
    rw [hview.table i hi]
    exact h.table m hm hu i hi

theorem user_mapPte {K : Link} (m : ℕ) : user (mapPte (kmap K) 0 m) = false := by
  unfold mapPte
  cases hk : (kmap K).find? (·.covers m) with
  | none => exact (by decide : user 0 = false)
  | some k =>
    have hmem := List.mem_of_find?_eq_some hk
    have hperm : user k.perm = false := by
      simp only [kmap, List.mem_cons, List.not_mem_nil, or_false] at hmem
      rcases hmem with rfl | rfl | rfl | rfl <;> (dsimp only; decide)
    simp only [Option.elim_some, Kmap.pte, user_entry, hperm]

theorem Kern.lt_of_user {K : Link} (hkern : Kern K v d) (hm : m < NPAGES)
    (hu : UserPte (v.pte d m)) : m < KERNPAGE := by
  by_contra hge
  have := hu.2
  rw [hkern m (by omega) hm, user_mapPte] at this
  cases this

section

variable {K : Link} {P : Pool K} {A B : Type} {O : Owners A B} {a : A}

theorem Own.page_user (ha : O.roots a = some d) (hkern : Kern K v d) (hm : m < NPAGES)
    (hu : UserPte (v.pte d m)) : O.page v (.frame a m) = some (frame (v.pte d m)) :=
  (page_frame ha (hkern.lt_of_user hm hu)).trans (mapped_of_present hu.1)

/-- Pages with an owner have frames of their own. -/
theorem Own.apart (h : Own P O v) (ha : O.roots a = some d) (hkern : Kern K v d) : Apart v d := by
  have hpage := fun m hm hu => Own.page_user (m := m) ha hkern hm hu
  refine ⟨fun m hm hu => (P.usable _ (h.pool_held _ _ (hpage m hm hu))).2,
    fun m hm n hn hu hu' he => ?_, fun m hm hu he => ?_, fun m hm hu i hi ht => ?_⟩
  · have := h.inj _ _ _ (hpage m hm hu) (he ▸ hpage n hn hu')
    simpa using this
  · exact (h.plain_frame (hpage m hm hu)).dir a (by rw [he]; exact ha)
  · exact (h.plain_frame (hpage m hm hu)).table a i ((page_table ha hi).trans ht)

end

/-- The user may write every byte of the `len` at `n`. -/
def UserRange (v : Mem) (d n len : ℕ) : Prop :=
  ∀ j < len, UserPte (v.pte d ((n + j) / PGSIZE))

/-- The first page of the range that the user may not write has a page table, if there is such a
page. -/
def Walkable (v : Mem) (d n len : ℕ) : Prop :=
  ∀ j < len, UserRange v d n j → v.table d (PDX ((n + j) / PGSIZE)) ≠ none

/-- The `len` bytes at `n` of the address space `d` are those of `data`, and nothing else has
changed. -/
structure Written (d n len : ℕ) (data : ℕ → UInt8) (v v' : Mem) : Prop where
  view : SameView v v' d
  inside : ∀ j < len, v'.userByte d (n + j) = data j
  outside : ∀ x o, (∀ j < len, x = frame (v.pte d ((n + j) / PGSIZE)) → o ≠ (n + j) % PGSIZE) →
    v'.byte x o = v.byte x o
  freelist : v'.freelist = v.freelist
  fails : v'.fails = v.fails

theorem Written.refl : Written d n 0 data v v :=
  ⟨SameView.refl v d, nofun, fun _ _ _ => rfl, rfl, rfl⟩

theorem Written.poke (len : ℕ) (data : ℕ → UInt8) (h : Apart v d) (hn : n < 2 ^ 32)
    (hu : UserPte (v.pte d (n / PGSIZE)))
    (hlen : n % PGSIZE + len ≤ PGSIZE) :
    Written d n len data v (v.fill (frame (v.pte d (n / PGSIZE)))
      (poke (v.word (frame (v.pte d (n / PGSIZE)))) (n % PGSIZE) len data)) := by
  have hpage : n / PGSIZE < NPAGES := div_lt_npages hn
  have hj : ∀ j < len, (n + j) / PGSIZE = n / PGSIZE ∧ (n + j) % PGSIZE = n % PGSIZE + j := by
    simp only [PGSIZE] at hlen ⊢
    omega
  have hview : SameView v (v.fill (frame (v.pte d (n / PGSIZE)))
      (Vm.poke (v.word (frame (v.pte d (n / PGSIZE)))) (n % PGSIZE) len data)) d :=
    SameView.of_word (fill_word_ne _ (h.dir _ hpage hu).symm)
      fun i hi t ht => fill_word_ne _ fun he => h.table _ hpage hu i hi (he ▸ ht)
  refine ⟨hview, fun j hlt => ?_, fun x o hx => ?_, rfl, rfl⟩
  · rw [Mem.userByte, (hj j hlt).1, (hj j hlt).2, hview.pte _ hpage, byte_fill_poke,
      if_pos ⟨rfl, by omega, by omega⟩, Nat.add_sub_cancel_left]
  · rw [byte_fill_poke, if_neg]
    rintro ⟨rfl, hle, hlt⟩
    refine hx (o - n % PGSIZE) (by omega) (by rw [(hj _ (by omega)).1]) ?_
    rw [(hj _ (by omega)).2]
    omega

theorem Written.userByte (hw : Written d n len data v v') (h : Apart v d)
    (hu : UserRange v d n len) (hn : n + len ≤ 2 ^ 32) (hm : m < 2 ^ 32)
    (hum : UserPte (v.pte d (m / PGSIZE))) (hout : m < n ∨ n + len ≤ m) :
    v'.userByte d m = v.userByte d m := by
  rw [Mem.userByte, Mem.userByte, hw.view.pte _ (div_lt_npages hm)]
  refine hw.outside _ _ fun j hj he => ?_
  have := h.inj _ (div_lt_npages hm) _ (div_lt_npages (by omega)) hum (hu j hj) he
  simp only [PGSIZE] at this ⊢
  omega

/-- Two writes in a row are one. -/
theorem Written.append {a b : ℕ} (h : Apart v d) (hn : n + (a + b) ≤ 2 ^ 32)
    (hu : UserRange v d n (a + b)) (h1 : Written d n a data v v')
    (h2 : Written d (n + a) b (fun j => data (a + j)) v' v'') : Written d n (a + b) data v v'' := by
  have hpage : ∀ j < a + b, (n + j) / PGSIZE < NPAGES := fun j hj => div_lt_npages (by omega)
  refine ⟨h1.view.trans h2.view, fun j hj => ?_, fun x o hx => ?_,
    h2.freelist.trans h1.freelist, h2.fails.trans h1.fails⟩
  · by_cases hja : j < a
    · rw [← h1.inside j hja]
      refine h2.userByte (h.sameView h1.view) (fun k hk => ?_) (by omega) (by omega) ?_
        (.inl (by omega))
      · rw [Nat.add_assoc, h1.view.pte _ (hpage (a + k) (by omega))]
        exact hu _ (by omega)
      · rw [h1.view.pte _ (hpage j hj)]
        exact hu j hj
    · have := h2.inside (j - a) (by omega)
      rw [show n + a + (j - a) = n + j by omega, show a + (j - a) = j by omega] at this
      exact this
  · rw [h2.outside x o, h1.outside x o fun j hj => hx j (by omega)]
    intro j hj he
    rw [Nat.add_assoc, h1.view.pte _ (hpage (a + j) (by omega))] at he
    rw [Nat.add_assoc]
    exact hx (a + j) (by omega) he

/-! ## `copyout` -/

theorem UserRange.append (h : UserRange v d n len) (h' : UserRange v d (n + len) m) :
    UserRange v d n (len + m) := by
  intro j hj
  by_cases hlt : j < len
  · exact h j hlt
  · have := h' (j - len) (by omega)
    rwa [show n + len + (j - len) = n + j by omega] at this

theorem UserRange.sameView (h : UserRange v d n len) (hview : SameView v v' d)
    (hn : n + len ≤ 2 ^ 32) : UserRange v' d n len := by
  intro j hj
  rw [hview.pte _ (div_lt_npages (by omega))]
  exact h j hj

theorem Walkable.tail (h : Walkable v d n (len + m)) (hu : UserRange v d n len) :
    Walkable v d (n + len) m := by
  intro j hj huj
  rw [Nat.add_assoc]
  exact h (len + j) (by omega) (hu.append huj)

theorem Walkable.sameView (h : Walkable v d n len) (hview : SameView v v' d)
    (hn : n + len ≤ 2 ^ 32) : Walkable v' d n len := by
  intro j hj hu
  have hpage : (n + j) / PGSIZE < NPAGES := div_lt_npages (by omega)
  rw [hview.table _ (PDX_lt hpage)]
  exact h j hj (hu.sameView hview.symm (by omega))

theorem table_of_userPte (h : UserPte (v.pte d n)) : v.table d (PDX n) ≠ none := by
  intro hn
  rw [pte_of_no_table hn] at h
  exact absurd h.1 (by decide)

/-- The bytes in front of the first page that the user may not write are written, and this page
has a table; `copyout` returns `r`. -/
def Stopped (d n len : ℕ) (data : ℕ → UInt8) (v : Mem) (r : Bool) (v' : Mem) : Prop :=
  v'.log = v.log ∧ ∃ k ≤ len, UserRange v d n k ∧ Written d n k data v v' ∧
    if r then k = len
    else k < len ∧ ¬UserPte (v.pte d ((n + k) / PGSIZE)) ∧
      v.table d (PDX ((n + k) / PGSIZE)) ≠ none

theorem Stopped.walkable {r : Bool} (h : Stopped d n len data v r v') : Walkable v d n len := by
  obtain ⟨-, k, hk, hu, -, hr⟩ := h
  intro j hj huj
  by_cases hjk : j < k
  · exact table_of_userPte (hu j hjk)
  · cases r with
    | true =>
      simp only [if_true] at hr
      omega
    | false =>
      obtain ⟨hlt, hn, ht⟩ := hr
      have hle : j ≤ k := by
        by_contra hc
        exact hn (huj k (by omega))
      obtain rfl : j = k := by omega
      exact ht

theorem Stopped.range {r : Bool} (h : Stopped d n len data v r v') :
    r = true ↔ UserRange v d n len := by
  obtain ⟨-, k, hk, hu, -, hr⟩ := h
  cases r with
  | true =>
    simp only [if_true] at hr
    exact ⟨fun _ => hr ▸ hu, fun _ => rfl⟩
  | false => exact ⟨nofun, fun h => absurd (h k hr.1) hr.2.1⟩

theorem Stopped.written (h : Stopped d n len data v true v') : Written d n len data v v' := by
  obtain ⟨-, k, hk, -, hw, hr⟩ := h
  simp only [if_true] at hr
  exact hr ▸ hw

/-- The bytes `a` of the first page are written, and then `copyout` goes on. -/
theorem Stopped.append {a b : ℕ} {r : Bool}
    (h' : Stopped d (n + a) b (fun j => data (a + j)) v' r v'') (h : Apart v d)
    (hn : n + (a + b) ≤ 2 ^ 32) (hu : UserRange v d n a) (hw : Written d n a data v v')
    (hlog : v'.log = v.log) : Stopped d n (a + b) data v r v'' := by
  obtain ⟨hlog', k, hk, huk, hwk, hr⟩ := h'
  have hrange := hu.append (huk.sameView hw.view.symm (by omega))
  refine ⟨hlog'.trans hlog, a + k, by omega, hrange, hw.append h (by omega) hrange hwk, ?_⟩
  cases r with
  | true =>
    simp only [if_true] at hr ⊢
    omega
  | false =>
    have hpage : k < b → (n + a + k) / PGSIZE < NPAGES := fun _ => div_lt_npages (by omega)
    obtain ⟨hlt, hnu, ht⟩ := hr
    rw [hw.view.pte _ (hpage hlt)] at hnu
    rw [hw.view.table _ (PDX_lt (hpage hlt))] at ht
    rw [Nat.add_assoc] at hnu ht
    exact ⟨by omega, hnu, ht⟩

/-- Only frames of pages that the user may write were written. -/
structure UserWrites (d : ℕ) (v v' : Mem) : Prop where
  view : SameView v v' d
  word : ∀ x, (∀ m < NPAGES, UserPte (v.pte d m) → frame (v.pte d m) ≠ x) → v'.word x = v.word x
  freelist : v'.freelist = v.freelist
  fails : v'.fails = v.fails

theorem UserWrites.refl : UserWrites d v v :=
  ⟨SameView.refl v d, fun _ _ => rfl, rfl, rfl⟩

theorem UserWrites.trans (h : UserWrites d v v') (h' : UserWrites d v' v'') :
    UserWrites d v v'' := by
  refine ⟨h.view.trans h'.view, fun x hx => ?_, h'.freelist.trans h.freelist,
    h'.fails.trans h.fails⟩
  rw [h'.word x, h.word x hx]
  intro m hm
  rw [h.view.pte m hm]
  exact hx m hm

theorem UserWrites.own {K : Link} {P : Pool K} {A B : Type} {O : Owners A B} {a : A}
    (hw : UserWrites d v v') (h : Own P O v) (ha : O.roots a = some d) (hkern : Kern K v d) :
    Own P O v' ∧ Kept O ∅ v v' := by
  have hplain := fun m hm hu => h.plain_frame (Own.page_user (m := m) ha hkern hm hu)
  have hview : ∀ a' d', O.roots a' = some d' → SameView v v' d' := by
    intro a' d' ha'
    refine SameView.of_word (hw.word d' fun m hm hu he => ?_) fun i hi t ht => hw.word t ?_
    · exact (hplain m hm hu).dir a' (by rw [he]; exact ha')
    · exact fun m hm hu he => (hplain m hm hu).table a' i (by rw [he, page_table ha' hi, ht])
  refine ⟨h.congr hw.freelist hview, fun a' d' _ => hview a' d', fun b x hb => hw.word x ?_⟩
  intro m hm hu he
  have := h.inj (.other b) _ x hb (he ▸ Own.page_user ha hkern hm hu)
  cases this

theorem Written.userWrites (hw : Written d n len data v v') (hu : UserRange v d n len)
    (hn : n + len ≤ 2 ^ 32) : UserWrites d v v' := by
  refine ⟨hw.view, fun x hx => word_eq_of_byte fun o => hw.outside x o fun j hj he => ?_,
    hw.freelist, hw.fails⟩
  exact absurd he.symm (hx _ (div_lt_npages (by omega)) (hu j hj))

theorem Stopped.userWrites {r : Bool} (h : Stopped d n len data v r v')
    (hn : n + len ≤ 2 ^ 32) : UserWrites d v v' := by
  obtain ⟨-, k, hk, hu, hw, -⟩ := h
  exact hw.userWrites hu (by omega)

/-- A null pointer was followed. -/
def Null (v v' : Mem) : Prop :=
  .null :: v.log <:+ v'.log

/-- `uva2ka` returns the frame of a page of the user only. -/
theorem uva2ka_spec (ht : v.table d (PDX n) ≠ none)
    (hlow : UserPte (v.pte d n) → frame (v.pte d n) < PHYSTOP) :
    wp (uva2ka cur d n) (fun r v' => v' = v ∧
      ((UserPte (v.pte d n) ∧ r = some (frame (v.pte d n))) ∨ (¬UserPte (v.pte d n) ∧ r = none)))
      (fun _ _ => False) v := by
  obtain ⟨t, ht⟩ := Option.ne_none_iff_exists'.1 ht
  have hpte := pte_of_table ht
  unfold uva2ka readPte
  simp only [wp_bind, wp_walkpgdir_false, ht, Option.map_some, wp_get, wp_pure]
  rw [← hpte]
  unfold UserPte at hlow ⊢
  split_ifs with hp hu h0
  · simp_all
  · simp_all
  · have := hlow ⟨by simpa using hp, by simpa using hu⟩
    simp only [PHYSTOP, KERNPAGE] at this h0
    omega
  · simp_all

theorem readPte_null (ht : v.table d (PDX n) = none) :
    wp (readPte cur d n) (fun _ v' => Null v v') (fun _ v' => Null v v') v := by
  unfold readPte derefNull
  simp only [wp_bind, wp_walkpgdir_false, ht, Option.map_none, wp_modify]
  cases h : Mem.table { v with log := .null :: v.log } cur (PDX 0) with
  | none => exact List.suffix_rfl
  | some t =>
    simp only [Option.map_some, wp_bind, wp_get]
    split_ifs <;> exact List.suffix_rfl

theorem Null.noted (h : Null v v') {N : Event → Prop} (h' : Noted N v' v'') : Null v v'' := by
  obtain ⟨l, hl, -⟩ := h'.log
  exact h.trans ⟨l, hl.symm⟩

theorem copyoutLoop_null (ht : v.table d (PDX (page va)) = none) (hlen : len ≠ 0) :
    wp (copyoutLoop cur d (fuel + 1) va len data) (fun _ v' => Null v v')
      (fun _ v' => Null v v') v := by
  unfold copyoutLoop
  rw [if_neg hlen]
  refine wp_seq (Q := fun _ v' => Null v v') ?_ fun r v' h => ?_
  · exact wp_seq (readPte_null ht) fun r v' h => by split_ifs <;> exact h
  · cases r with
    | none => exact h
    | some x =>
      dsimp only
      split_ifs
      · exact h
      refine wp_bind.2 ((wp_modify _).2 ?_)
      have hfill : ∀ c, Null v (v'.fill x c) := fun _ => h
      exact wp_of_always (noted_copyoutLoop _ _ _ _) (fun _ _ h' => (hfill _).noted h')
        fun _ _ h' => (hfill _).noted h'

theorem copyoutLoop_zero {Q : Bool → Mem → Prop} (h : Q true v) :
    wp (copyoutLoop cur d fuel va 0 data) Q E v := by
  cases fuel <;> exact h

/-- The loop of `copyout` stops where a page is refused or a table is missing. -/
theorem copyoutLoop_spec :
    ∀ (fuel : ℕ) (va : UInt32) (len : ℕ) (data : ℕ → UInt8) (v : Mem), len ≤ fuel →
      va.toNat + len ≤ 2 ^ 32 → Apart v d →
      wp (copyoutLoop cur d fuel va len data)
        (fun r v' => Stopped d va.toNat len data v r v' ∨
          (¬Walkable v d va.toNat len ∧ Null v v'))
        (fun _ v' => ¬Walkable v d va.toNat len ∧ Null v v') v
  | 0, va, len, data, v, hlen, hva, h => by
    obtain rfl : len = 0 := by omega
    exact .inl ⟨rfl, 0, le_rfl, nofun, Written.refl, rfl⟩
  | fuel + 1, va, len, data, v, hlen, hva, h => by
    by_cases hz : len = 0
    · subst hz
      exact copyoutLoop_zero (.inl ⟨rfl, 0, le_rfl, nofun, Written.refl, rfl⟩)
    have hlt := va.toNat_lt
    have hpage : page va = va.toNat / PGSIZE := rfl
    by_cases ht : v.table d (PDX (page va)) = none
    · have hw : ¬Walkable v d va.toNat len := fun hw => hw 0 (by omega) nofun ht
      exact wp_mono' (copyoutLoop_null ht hz) (fun _ _ h => .inr ⟨hw, h⟩) fun _ _ h => ⟨hw, h⟩
    unfold copyoutLoop
    rw [if_neg hz]
    have hlow := h.low (page va) (div_lt_npages hlt)
    refine wp_seq (wp_mono' (uva2ka_spec ht hlow) (fun _ _ h => h) fun _ _ => False.elim) ?_
    rintro r v1 ⟨rfl, ⟨hu, rfl⟩ | ⟨hu, rfl⟩⟩
    · have hoff : va.toNat % PGSIZE < PGSIZE := Nat.mod_lt _ (by decide)
      dsimp only
      rw [if_neg (Nat.not_le.2 (hlow hu))]
      obtain ⟨c, hc⟩ : ∃ c, c = min (PGSIZE - va.toNat % PGSIZE) len := ⟨_, rfl⟩
      rw [← hc]
      obtain ⟨b, rfl⟩ : ∃ b, len = c + b := ⟨len - c, by omega⟩
      have huc : UserRange v1 d va.toNat c := by
        intro j hj
        rwa [show (va.toNat + j) / PGSIZE = page va by
          rw [hpage]; simp only [PGSIZE] at hc hoff ⊢; omega]
      have hw := Written.poke c data h hlt hu (by omega)
      rw [← hpage] at hw
      refine wp_bind.2 ((wp_modify _).2 ?_)
      rw [Nat.add_sub_cancel_left]
      by_cases hb : b = 0
      · -- The address after the last page is not looked at.
        subst hb
        exact copyoutLoop_zero (.inl ⟨rfl, c, by omega, huc, hw, rfl⟩)
      · have hnext : (UInt32.ofNat ((page va + 1) * PGSIZE)).toNat = va.toNat + c := by
          rw [UInt32.toNat_ofNat', hpage]
          simp only [PGSIZE] at hc hoff ⊢
          omega
        have ih := copyoutLoop_spec fuel (UInt32.ofNat ((page va + 1) * PGSIZE)) b
          (fun j => data (c + j)) _ (by omega) (by omega) (h.sameView hw.view)
        rw [hnext] at ih
        have hnw : ¬Walkable (v1.fill (frame (v1.pte d (page va)))
            (poke (v1.word (frame (v1.pte d (page va)))) (va.toNat % PGSIZE) c data)) d
            (va.toNat + c) b → ¬Walkable v1 d va.toNat (c + b) :=
          mt fun hwalk => (hwalk.tail huc).sameView hw.view (by omega)
        refine wp_mono' ih ?_ fun _ _ h' => ⟨hnw h'.1, h'.2⟩
        rintro r v2 (hs | h')
        · exact .inl (hs.append h hva huc hw rfl)
        · exact .inr ⟨hnw h'.1, h'.2⟩
    · exact .inl ⟨rfl, 0, by omega, nofun, Written.refl, by omega, hu, ht⟩

theorem copyout_stopped {bytes : List UInt8} (h : Apart v d)
    (hva : va.toNat + bytes.length ≤ 2 ^ 32) (hw : Walkable v d va.toNat bytes.length) :
    wp (copyout cur d va bytes)
      (fun r v' => Stopped d va.toNat bytes.length (fun j => bytes.getD j 0) v r v')
      (fun _ _ => False) v :=
  wp_mono' (copyoutLoop_spec bytes.length va bytes.length (fun j => bytes.getD j 0) v le_rfl hva h)
    (fun _ _ h => h.resolve_right fun h => h.1 hw) fun _ _ h => h.1 hw

/-- `copyout` to a page that is refused fails. -/
theorem copyout_refused {bytes : List UInt8} (ht : v.table d (PDX (page va)) ≠ none)
    (hu : ¬UserPte (v.pte d (page va))) (hlen : bytes ≠ []) :
    wp (copyout cur d va bytes) (fun r v' => r = false ∧ v' = v) (fun _ _ => False) v := by
  obtain ⟨k, hk⟩ : ∃ k, bytes.length = k + 1 :=
    Nat.exists_eq_succ_of_ne_zero fun h => hlen (List.length_eq_zero_iff.1 h)
  unfold copyout
  rw [hk]
  refine wp_seq (uva2ka_spec ht fun h => absurd h hu) ?_
  rintro r v1 ⟨rfl, ⟨hu', -⟩ | ⟨-, rfl⟩⟩
  · exact absurd hu' hu
  · exact ⟨rfl, rfl⟩

/-- What `copyout` of `bytes` to `va` is to do : it returns 0 exactly if the user may write all of
the range, then only the range is written, and no null pointer is followed. -/
def CopiesOut (cur d : ℕ) (va : UInt32) (bytes : List UInt8) (v : Mem) : Prop :=
  ∃ r v', copyout cur d va bytes v = .ok r v' ∧
    (r = true ↔ UserRange v d va.toNat bytes.length) ∧
    (r = true → Written d va.toNat bytes.length (fun j => bytes.getD j 0) v v') ∧ v'.log = v.log

/-- `copyout` to an address space with frames below `PHYSTOP` does what it is to do exactly if the
first page that it may not write has a page table. -/
theorem copyout_exact_iff (cur d : ℕ) (va : UInt32) (bytes : List UInt8) (v : Mem)
    (h : Apart v d) (hva : va.toNat + bytes.length ≤ 2 ^ 32) :
    CopiesOut cur d va bytes v ↔ Walkable v d va.toNat bytes.length := by
  constructor
  · rintro ⟨r, v', hrun, -, -, hlog⟩
    rcases wp_ok (copyoutLoop_spec _ _ _ _ v le_rfl hva h) hrun with hs | ⟨-, hn⟩
    · exact hs.walkable
    · rw [Null, hlog] at hn
      exact absurd hn.length_le (by simp)
  · intro hw
    obtain ⟨r, v', hrun, hs⟩ := exists_ok_of_wp (m := copyout cur d va bytes)
      (copyout_stopped h hva hw)
    exact ⟨r, v', hrun, hs.range, fun hr => (hr ▸ hs).written, hs.1⟩

/-- Page 0 of the address space 1 is there and starts with an entry for a user page; the address
space 5 is empty. -/
def nullMem : Mem where
  word x i := if i = 0 then
      match x with
      | 1 => entry 2 (PTE_W ||| PTE_U)
      | 2 => entry 3 (PTE_W ||| PTE_U)
      | 3 => entry 4 (PTE_W ||| PTE_U)
      | _ => 0
    else 0
  freelist := []
  fails := []
  log := []

theorem nullMem_table (d i : ℕ) :
    nullMem.table d i = if i = 0 ∧ (d = 1 ∨ d = 2 ∨ d = 3) then some (d + 1) else none := by
  by_cases hi : i = 0
  · subst hi
    by_cases hd : d = 1 ∨ d = 2 ∨ d = 3
    · rw [if_pos ⟨rfl, hd⟩]
      rcases hd with rfl | rfl | rfl <;> rfl
    · have hw : nullMem.word d 0 = 0 := by
        simp only [nullMem, if_true]
        split <;> simp_all
      rw [if_neg fun h => hd h.2, Mem.table, hw]
      rfl
  · have hw : nullMem.word d i = 0 := if_neg hi
    rw [if_neg fun h => hi h.1, Mem.table, hw]
    rfl

theorem nullMem_pte_one (hu : UserPte (nullMem.pte 1 n)) : n = 0 := by
  have ht := table_of_userPte hu
  rw [nullMem_table] at ht
  have hi : PDX n = 0 := by
    by_contra hi
    exact ht (if_neg fun h => hi h.1)
  by_contra hn
  have hj : PTX n ≠ 0 := by
    simp only [PDX, PTX, NPTENTRIES] at hi ⊢
    omega
  rw [pte_of_table (t := 2) (by rw [nullMem_table, hi]; rfl)] at hu
  exact absurd (hu.1.symm.trans (congrArg present (if_neg hj))) (by decide)

/-- `copyout` to an empty address space returns 0, because it takes the word at address 0 for an
entry. -/
theorem copyout_follows_null : ¬CopiesOut 1 5 0 [1] nullMem := by
  have hrun : ∃ v', copyout 1 5 0 [1] nullMem = .ok true v' := ⟨_, rfl⟩
  rintro ⟨r, v1, h, hr, -, -⟩
  obtain ⟨v', hrun⟩ := hrun
  rw [hrun] at h
  obtain ⟨rfl, -⟩ := EStateM.Result.ok.inj h
  refine table_of_userPte (hr.1 rfl 0 (by decide)) ?_
  rw [nullMem_table]
  rfl

/-- The first two bytes of a page. -/
theorem copyout_exact_iff_page : Walkable nullMem 1 0 2 ∧ CopiesOut 1 1 0 [1, 2] nullMem := by
  have hw : Walkable nullMem 1 (0 : UInt32).toNat [(1 : UInt8), 2].length := by
    intro j hj _
    have hz : (UInt32.toNat 0 + j) / PGSIZE = 0 := by
      simp only [List.length_cons, List.length_nil] at hj
      simp only [UInt32.toNat_zero, PGSIZE]
      omega
    rw [hz, nullMem_table]
    simp [PDX]
  refine ⟨hw, (copyout_exact_iff 1 1 0 [1, 2] nullMem ⟨?_, ?_, ?_, ?_⟩ (by decide)).2 hw⟩
  · intro m _ hm
    rw [nullMem_pte_one hm]
    decide
  · intro m _ n _ hm hn _
    rw [nullMem_pte_one hm, nullMem_pte_one hn]
  · intro m _ hm
    rw [nullMem_pte_one hm]
    decide
  · intro m _ hm i _
    rw [nullMem_pte_one hm, nullMem_table]
    split_ifs <;> decide

end

end Xv6.Vm
