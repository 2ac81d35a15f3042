import Mathlib.Data.Multiset.Count
import Xv6.Content

/-!
# References to inodes

The operations on the inode cache, `iget`, `idup`, `ilock`, `iunlock`, `iput` and `ialloc`
of `fs.c`, over the store. `Inv R L B s` is the invariant a call keeps between them : `L`
is the multiset of all references, a slot with its inode, and `B` the set of locked slots. An
allocated inode without links is still referenced, by one of the references `R` at that, so that
the last `iput` finds it loaded and frees it. Within a call `R` may leave out references of the call
itself; putting one of those back frees nothing (`iput_keep`), and only a reference of `R` can be
the last one of an inode without links (`iput_drop`).

The files change only by the inode `iput` frees and the one `ialloc` makes (`Quiet`).
-/

open Function Prog Layout Finset

namespace Xv6

/-! ## Changing a slot -/

/-- Slot `k` of the cache is changed to `ip`. -/
def FS.setSlot (s : FS) (k : Iptr) (ip : Inode) : FS :=
  { s with icache := update s.icache k ip }

@[simp] theorem setSlot_self (s : FS) (k : Iptr) (ip : Inode) : (s.setSlot k ip).icache k = ip :=
  update_self _ _ _

theorem setSlot_of_ne {k l : Iptr} (s : FS) (ip : Inode) (h : l ≠ k) :
    (s.setSlot k ip).icache l = s.icache l :=
  update_of_ne h _ _

@[simp] theorem wp_modifyInode {s : FS} {k : Iptr} {Q : Unit → FS → Prop} {E : Stop → FS → Prop}
    (f : Inode → Inode) : wp (modifyInode k f) Q E s ↔ Q () (s.setSlot k (f (s.icache k))) :=
  Iff.rfl

/-- The bookkeeping of the cache changes, the inodes do not. -/
structure Quiet (s s' : FS) : Prop where
  env : s'.env = s.env
  disk : s'.disk = s.disk
  lh : s'.log.lh = s.log.lh
  cur_eq : cur s' = cur s

namespace Quiet

variable {s s' s'' : FS}

theorem refl (s : FS) : Quiet s s := ⟨rfl, rfl, rfl, rfl⟩

theorem trans (h : Quiet s s') (h' : Quiet s' s'') : Quiet s s'' :=
  ⟨h'.env.trans h.env, h'.disk.trans h.disk, h'.lh.trans h.lh, h'.cur_eq.trans h.cur_eq⟩

theorem view_eq (h : Quiet s s') : view s' = view s := by
  funext i
  rw [view, view, h.disk, h.cur_eq]

theorem eff (h : Quiet s s') : Eff ∅ 0 s s' :=
  ⟨h.env, fun _ _ => by rw [h.lh]; exact le_rfl⟩

end Quiet

/-- A slot is changed in a way that keeps the store and its inodes : the slot stands for an
inode no other slot has, its copy is kept, dropped, or read from the disk. -/
theorem Store.setSlot {s : FS} (h : Store none s) (k : Iptr) (ip : Inode)
    (hinum : 0 < ip.ref → ip.dev = ROOTDEV ∧ 1 ≤ ip.inum ∧ ip.inum < ninum s.sb ∧
      ∀ l ≠ k, 0 < (s.icache l).ref → (s.icache l).inum ≠ ip.inum)
    (hold : ∀ i, Loaded s k i → 0 < ip.ref →
      ip.valid = true ∧ ip.inum = i ∧ ip.din = (s.icache k).din)
    (hnew : 0 < ip.ref → ip.valid = true → Loaded s k ip.inum ∨
      ip.din = dinode s.disk s.sb ip.inum ∧ ip.din.type ≠ 0) :
    Store none (s.setSlot k ip) ∧ Quiet s (s.setSlot k ip) := by
  have hother : ∀ l ≠ k, ∀ i, Loaded (s.setSlot k ip) l i ↔ Loaded s l i := by
    intro l hl i
    rw [Loaded, setSlot_of_ne s ip hl, Loaded]
  have hself : ∀ i, Loaded (s.setSlot k ip) k i ↔ 0 < ip.ref ∧ ip.valid = true ∧ ip.inum = i := by
    intro i
    rw [Loaded, setSlot_self]
  have hd' : Distinct s.sb (s.setSlot k ip).icache := by
    have hcase : ∀ {P : Iptr → Inode → Prop}, (0 < ip.ref → P k ip) →
        (∀ l ≠ k, 0 < (s.icache l).ref → P l (s.icache l)) →
        ∀ l, 0 < ((s.setSlot k ip).icache l).ref → P l ((s.setSlot k ip).icache l) := by
      intro P hk hl l
      by_cases hlk : l = k
      · subst hlk
        rw [setSlot_self]
        exact hk
      · rw [setSlot_of_ne s ip hlk]
        exact hl l hlk
    refine ⟨hcase (P := fun _ jp => jp.dev = ROOTDEV) (fun hr => (hinum hr).1)
        fun l _ => h.distinct.dev l,
      hcase (P := fun _ jp => 1 ≤ jp.inum) (fun hr => (hinum hr).2.1) fun l _ => h.distinct.pos l,
      hcase (P := fun _ jp => jp.inum < ninum s.sb) (fun hr => (hinum hr).2.2.1)
        fun l _ => h.distinct.lt l, ?_⟩
    intro l m hl hm heq
    by_cases hlk : l = k <;> by_cases hmk : m = k
    · rw [hlk, hmk]
    · subst hlk
      rw [setSlot_self] at hl heq
      rw [setSlot_of_ne s ip hmk] at hm heq
      exact absurd heq.symm ((hinum hl).2.2.2 m hmk hm)
    · subst hmk
      rw [setSlot_self] at hm heq
      rw [setSlot_of_ne s ip hlk] at hl heq
      exact absurd heq ((hinum hm).2.2.2 l hlk hl)
    · rw [setSlot_of_ne s ip hlk] at hl heq
      rw [setSlot_of_ne s ip hmk] at hm heq
      exact h.distinct.unique l m hl hm heq
  -- the slot is loaded from the disk or was loaded before
  have hdin : ∀ l i, Loaded (s.setSlot k ip) l i →
      ((s.setSlot k ip).icache l).din = dinode s.disk s.sb i ∧
      ((s.setSlot k ip).icache l).din.type ≠ 0 := by
    intro l i hl
    by_cases hlk : l = k
    · subst hlk
      obtain ⟨hr, hv, rfl⟩ := (hself i).1 hl
      rw [setSlot_self]
      rcases hnew hr hv with hk | hread
      · obtain ⟨-, -, hd⟩ := hold _ hk hr
        rw [hd]
        exact ⟨h.clean _ _ hk (by simp), h.typed _ _ hk⟩
      · exact hread
    · have hl' := (hother l hlk i).1 hl
      rw [setSlot_of_ne s ip hlk]
      exact ⟨h.clean l i hl' (by simp), h.typed l i hl'⟩
  have hcur : cur (s.setSlot k ip) = cur s := by
    funext i
    rcases Nat.lt_or_ge i (ninum s.sb) with hi | hi
    · rw [← h.dinode_eq hi]
      by_cases hl : ∃ l, Loaded (s.setSlot k ip) l i
      · obtain ⟨l, hl⟩ := hl
        rw [cur_of_loaded hd' hl, (hdin l i hl).1]
      · exact cur_of_not_loaded (s := s.setSlot k ip) hi (not_exists.1 hl)
    · rw [cur_of_le hi, cur_of_le (s := s.setSlot k ip) hi]
  refine ⟨⟨h.geometry, h.super, hd', fun l i hl => (hdin l i hl).2,
    fun l i hl _ => (hdin l i hl).1, ?_⟩, ⟨rfl, rfl, rfl, hcur⟩⟩
  rw [hcur]
  exact h.owned

theorem Store.slot {s : FS} {k : Iptr} (h : Store none s) (hk : 0 < (s.icache k).ref) :
    (s.icache k).dev = ROOTDEV ∧ 1 ≤ (s.icache k).inum ∧ (s.icache k).inum < ninum s.sb ∧
      ∀ l ≠ k, 0 < (s.icache l).ref → (s.icache l).inum ≠ (s.icache k).inum :=
  ⟨h.distinct.dev k hk, h.distinct.pos k hk, h.distinct.lt k hk,
    fun l hl hr heq => hl (h.distinct.unique l k hr hk heq)⟩

/-- A slot in use keeps its copy. -/
theorem Store.hold {s : FS} {k : Iptr} (h : Store none s) (hk : 0 < (s.icache k).ref) (n : ℤ)
    (b : Bool) : Store none (s.setSlot k { s.icache k with ref := n, busy := b }) ∧
      Quiet s (s.setSlot k { s.icache k with ref := n, busy := b }) :=
  h.setSlot k _ (fun _ => h.slot hk) (fun _ hj _ => ⟨hj.2.1, hj.2.2, rfl⟩)
    fun _ hv => .inl ⟨hk, hv, rfl⟩

/-! ## The invariant of a call -/

/-- The references `L`, a slot and its inode each, and the locked slots `B`. Allocated
inodes without links are loaded in a slot that `R` refers to, those in `X` aside. -/
structure InvX (X : Finset ℕ) (R L : Multiset (Iptr × ℕ)) (B : Finset Iptr) (s : FS) : Prop where
  store : Store none s
  le : R ≤ L
  ref : ∀ k, (s.icache k).ref = ((L.map Prod.fst).count k : ℕ)
  inum : ∀ q ∈ L, (s.icache q.1).inum = q.2
  busy : ∀ k, (s.icache k).busy = true ↔ k ∈ B
  locked : ∀ k ∈ B, (s.icache k).valid = true ∧ ∃ i, (k, i) ∈ L
  anchored : ∀ i ∉ X, (view s i).type ≠ 0 → (view s i).nlink = 0 →
    ∃ k, (k, i) ∈ R ∧ Loaded s k i

/-- The invariant of a call. -/
abbrev Inv (R L : Multiset (Iptr × ℕ)) (B : Finset Iptr) (s : FS) : Prop :=
  InvX ∅ R L B s

namespace InvX

variable {X : Finset ℕ} {R L : Multiset (Iptr × ℕ)} {B : Finset Iptr}
  {s s' : FS} {k l : Iptr} {i : ℕ}

theorem ref_pos (h : InvX X R L B s) (hk : (k, i) ∈ L) : 0 < (s.icache k).ref := by
  rw [h.ref k, Int.natCast_pos, Multiset.count_pos]
  exact Multiset.mem_map_of_mem Prod.fst hk

theorem loaded (h : InvX X R L B s) (hk : (k, i) ∈ L) (hB : k ∈ B) : Loaded s k i :=
  ⟨h.ref_pos hk, (h.locked k hB).1, h.inum _ hk⟩

theorem bounds (h : InvX X R L B s) (hk : (k, i) ∈ L) : 1 ≤ i ∧ i < ninum s.sb := by
  have hpos := h.ref_pos hk
  have hinum : (s.icache k).inum = i := h.inum _ hk
  rw [← hinum]
  exact ⟨h.store.distinct.pos k hpos, h.store.distinct.lt k hpos⟩

theorem slot_unique (h : InvX X R L B s) (hk : (k, i) ∈ L) (hl : (l, i) ∈ L) : k = l :=
  h.store.distinct.unique k l (h.ref_pos hk) (h.ref_pos hl) ((h.inum _ hk).trans (h.inum _ hl).symm)

theorem inum_unique (h : InvX X R L B s) {j : ℕ} (hk : (k, i) ∈ L) (hl : (k, j) ∈ L) : i = j :=
  (h.inum _ hk).symm.trans (h.inum _ hl)

theorem step (h : InvX X R L B s) (hst : Store none s') (hsame : SameSlots s s')
    (hanch : ∀ i ∉ X, (view s' i).type ≠ 0 → (view s' i).nlink = 0 →
      (view s i).type ≠ 0 ∧ (view s i).nlink = 0 ∨ ∃ k, (k, i) ∈ R ∧ Loaded s k i) :
    InvX X R L B s' where
  store := hst
  le := h.le
  ref k := by rw [hsame.ref, h.ref]
  inum q hq := by rw [hsame.inum, h.inum q hq]
  busy k := by rw [hsame.busy, h.busy]
  locked k hk := by rw [hsame.valid]; exact h.locked k hk
  anchored i hX hi hn := by
    have hor : ∃ k, (k, i) ∈ R ∧ Loaded s k i := by
      rcases hanch i hX hi hn with ⟨hi, hn⟩ | hex
      · exact h.anchored i hX hi hn
      · exact hex
    obtain ⟨k, hk, hl⟩ := hor
    exact ⟨k, hk, hsame.loaded.2 hl⟩

theorem mono {R' : Multiset (Iptr × ℕ)} (h : InvX X R L B s) (hR : R ≤ R') (hL : R' ≤ L) :
    InvX X R' L B s :=
  { h with
    le := hL
    anchored := fun i hX hi hn => by
      obtain ⟨k, hk, hl⟩ := h.anchored i hX hi hn
      exact ⟨k, Multiset.mem_of_le hR hk, hl⟩ }

/-- A slot is changed as `Store.setSlot` allows, with the references and locks it then has. -/
theorem setSlot {R' L' : Multiset (Iptr × ℕ)} {B' : Finset Iptr} (h : InvX X R L B s) (ip : Inode)
    (hst : Store none (s.setSlot k ip)) (hq : Quiet s (s.setSlot k ip)) (hR : R' ≤ L')
    (href : ip.ref = ((L'.map Prod.fst).count k : ℕ))
    (href' : ∀ l ≠ k, (L'.map Prod.fst).count l = (L.map Prod.fst).count l)
    (hinum : ∀ q ∈ L', q.1 = k → ip.inum = q.2) (hinum' : ∀ q ∈ L', q.1 ≠ k → q ∈ L)
    (hbusy : ip.busy = true ↔ k ∈ B') (hbusy' : ∀ l ≠ k, l ∈ B' ↔ l ∈ B)
    (hvalid : k ∈ B' → ip.valid = true) (hmem : ∀ l ∈ B', ∃ i, (l, i) ∈ L')
    (hanch : ∀ l i, (l, i) ∈ R → Loaded s l i → (view s i).nlink = 0 →
      (l, i) ∈ R' ∧ (l = k → ip.valid = true)) :
    InvX X R' L' B' (s.setSlot k ip) where
  store := hst
  le := hR
  ref l := by
    by_cases hlk : l = k
    · rw [hlk, setSlot_self, href]
    · rw [setSlot_of_ne s ip hlk, h.ref, href' l hlk]
  inum q hqL := by
    by_cases hqk : q.1 = k
    · rw [hqk, setSlot_self]
      exact hinum q hqL hqk
    · rw [setSlot_of_ne s ip hqk]
      exact h.inum q (hinum' q hqL hqk)
  busy l := by
    by_cases hlk : l = k
    · rw [hlk, setSlot_self, hbusy]
    · rw [setSlot_of_ne s ip hlk, h.busy, hbusy' l hlk]
  locked l hl := by
    by_cases hlk : l = k
    · rw [hlk] at hl ⊢
      rw [setSlot_self]
      exact ⟨hvalid hl, hmem k hl⟩
    · rw [setSlot_of_ne s ip hlk]
      exact ⟨(h.locked l ((hbusy' l hlk).1 hl)).1, hmem l hl⟩
  anchored i hX hi hn := by
    rw [hq.view_eq] at hi hn
    obtain ⟨l, hl, hload⟩ := h.anchored i hX hi hn
    obtain ⟨hl', hv⟩ := hanch l i hl hload hn
    refine ⟨l, hl', ?_⟩
    by_cases hlk : l = k
    · subst hlk
      have hmem := Multiset.mem_of_le hR hl'
      refine ⟨?_, ?_, ?_⟩
      · rw [setSlot_self, href, Int.natCast_pos, Multiset.count_pos]
        exact Multiset.mem_map_of_mem Prod.fst hmem
      · rw [setSlot_self]
        exact hv rfl
      · rw [setSlot_self]
        exact hinum _ hmem rfl
    · rw [Loaded, setSlot_of_ne s ip hlk]
      exact hload

theorem count_cons_self (L : Multiset (Iptr × ℕ)) (k : Iptr) (i : ℕ) :
    (((k, i) ::ₘ L).map Prod.fst).count k = (L.map Prod.fst).count k + 1 := by
  rw [Multiset.map_cons, Multiset.count_cons_self]

theorem count_cons_of_ne {l : Iptr} (L : Multiset (Iptr × ℕ)) (k : Iptr) (i : ℕ) (h : l ≠ k) :
    (((k, i) ::ₘ L).map Prod.fst).count l = (L.map Prod.fst).count l := by
  rw [Multiset.map_cons, Multiset.count_cons_of_ne h]

theorem locked_cons {q : Iptr × ℕ} (h : InvX X R L B s) : ∀ l ∈ B, ∃ i, (l, i) ∈ q ::ₘ L := by
  intro l hl
  obtain ⟨i, hi⟩ := (h.locked l hl).2
  exact ⟨i, Multiset.mem_cons_of_mem hi⟩

/-! ## `iget` and `idup` -/

theorem dup (h : InvX X R L B s) (hk : 0 < (s.icache k).ref) (hi : (s.icache k).inum = i) :
    InvX X R ((k, i) ::ₘ L) B (s.setSlot k { s.icache k with ref := (s.icache k).ref + 1 }) ∧
      Quiet s (s.setSlot k { s.icache k with ref := (s.icache k).ref + 1 }) := by
  obtain ⟨hst, hq⟩ := h.store.hold hk ((s.icache k).ref + 1) (s.icache k).busy
  refine ⟨h.setSlot _ hst hq (h.le.trans (Multiset.le_cons_self L _)) ?_ ?_ ?_ ?_ (h.busy k)
    (fun _ _ => Iff.rfl) (fun hkB => (h.locked k hkB).1) h.locked_cons
    fun l j hl hload _ => ⟨hl, ?_⟩, hq⟩
  · show (s.icache k).ref + 1 = _
    rw [count_cons_self, h.ref k]
    exact (Int.natCast_succ _).symm
  · exact fun l hl => count_cons_of_ne L k i hl
  · rintro q hqL hqk
    rcases Multiset.mem_cons.1 hqL with rfl | hqL
    · exact hi
    · exact hqk ▸ h.inum q hqL
  · rintro q hqL hqk
    rcases Multiset.mem_cons.1 hqL with rfl | hqL
    · exact absurd rfl hqk
    · exact hqL
  · rintro rfl
    exact hload.2.1

theorem take (h : InvX X R L B s) (hk : (s.icache k).ref = 0) (hi : 1 ≤ i) (hi' : i < ninum s.sb)
    (hno : ∀ l, 0 < (s.icache l).ref → (s.icache l).inum ≠ i) :
    InvX X R ((k, i) ::ₘ L) B (s.setSlot k { s.icache k with
        dev := ROOTDEV, inum := i, ref := 1, busy := false, valid := false }) ∧
      Quiet s (s.setSlot k { s.icache k with
        dev := ROOTDEV, inum := i, ref := 1, busy := false, valid := false }) := by
  have hcount : (L.map Prod.fst).count k = 0 := by
    have := h.ref k
    omega
  have hnot : ∀ j, (k, j) ∉ L := fun j hj => by
    have := h.ref_pos hj
    omega
  have hkB : k ∉ B := fun hkB => by
    obtain ⟨j, hj⟩ := (h.locked k hkB).2
    exact hnot j hj
  obtain ⟨hst, hq⟩ := h.store.setSlot k { s.icache k with
        dev := ROOTDEV, inum := i, ref := 1, busy := false, valid := false }
    (fun _ => ⟨rfl, hi, hi', fun l _ hr => hno l hr⟩)
    (fun j hj _ => absurd hj.1 (by omega)) (fun _ hv => absurd hv (by simp))
  refine ⟨h.setSlot _ hst hq (h.le.trans (Multiset.le_cons_self L _)) ?_ ?_ ?_ ?_ ?_
    (fun _ _ => Iff.rfl) (fun h => absurd h hkB) h.locked_cons fun l j hl hload _ => ⟨hl, ?_⟩, hq⟩
  · show (1 : ℤ) = _
    rw [count_cons_self, hcount]
    rfl
  · exact fun l hl => count_cons_of_ne L k i hl
  · rintro q hqL hqk
    rcases Multiset.mem_cons.1 hqL with rfl | hqL
    · rfl
    · exact absurd hqL (by rw [show q = (k, q.2) from Prod.ext hqk rfl]; exact hnot _)
  · rintro q hqL hqk
    rcases Multiset.mem_cons.1 hqL with rfl | hqL
    · exact absurd rfl hqk
    · exact hqL
  · simp [hkB]
  · rintro rfl
    exact absurd hload.1 (by omega)

end InvX

variable {X : Finset ℕ} {R L : Multiset (Iptr × ℕ)} {B : Finset Iptr} {s : FS} {k : Iptr} {i : ℕ}

/-- `iget` of inode `i` returned slot `k` : a slot that has the inode already, or a free one. -/
def Got (s : FS) (i : ℕ) (k : Iptr) (s' : FS) : Prop :=
  (0 < (s.icache k).ref ∧ (s.icache k).dev = ROOTDEV ∧ (s.icache k).inum = i ∧
    s' = s.setSlot k { s.icache k with ref := (s.icache k).ref + 1 }) ∨
  ((s.icache k).ref = 0 ∧
    (∀ l, 0 < (s.icache l).ref → (s.icache l).dev = ROOTDEV → (s.icache l).inum ≠ i) ∧
    s' = s.setSlot k { s.icache k with
      dev := ROOTDEV, inum := i, ref := 1, busy := false, valid := false })

/-- Inode `i` is in no slot and no slot is free. -/
def NoSlot (s : FS) (i : ℕ) : Prop :=
  ∀ k, (s.icache k).ref ≠ 0 ∧
    (0 < (s.icache k).ref → (s.icache k).dev = ROOTDEV → (s.icache k).inum ≠ i)

/-- `iget` fails when the inode is in no slot and no slot is free. -/
theorem iget_got (s : FS) (i : ℕ) : wp (iget ROOTDEV i) (Got s i)
    (fun e _ => e = .panic "iget: no inodes" ∧ NoSlot s i) s := by
  unfold iget
  rw [force_eq, wp_bind, wp_get]
  cases hc : cachedSlot s.icache ROOTDEV i with
  | some k =>
    obtain ⟨hk, hdev, hinum⟩ := cachedSlot_eq_some hc
    simp only [wp_bind, wp_modifyInode, wp_pure]
    exact .inl ⟨hk, hdev, hinum, rfl⟩
  | none =>
    dsimp only
    cases he : emptySlot s.icache with
    | some k =>
      simp only [wp_bind, wp_modifyInode, wp_pure]
      exact .inr ⟨emptySlot_eq_some he, cachedSlot_eq_none hc, rfl⟩
    | none =>
      refine ⟨rfl, fun k => ⟨fun hk => ?_, cachedSlot_eq_none hc k⟩⟩
      have := List.find?_eq_none.1 he k (List.mem_finRange k)
      simp [hk] at this

theorem InvX.got {s' : FS} (h : InvX X R L B s) (hi : 1 ≤ i) (hi' : i < ninum s.sb)
    (hg : Got s i k s') : InvX X R ((k, i) ::ₘ L) B s' ∧ Quiet s s' := by
  rcases hg with ⟨hk, -, hinum, rfl⟩ | ⟨hk, hno, rfl⟩
  · exact h.dup hk hinum
  · exact h.take hk hi hi' fun l hl => hno l hl (h.store.distinct.dev l hl)

/-- `iget` returns a reference. -/
theorem iget_spec (h : InvX X R L B s) (hi : 1 ≤ i) (hi' : i < ninum s.sb) :
    wp (iget ROOTDEV i) (fun k s' => InvX X R ((k, i) ::ₘ L) B s' ∧ Quiet s s')
      (fun e _ => e = .panic "iget: no inodes" ∧ NoSlot s i) s :=
  wp_mono (iget_got s i) fun _ _ hg => h.got hi hi' hg

/-- `idup` returns one more. -/
theorem idup_spec (h : InvX X R L B s) (hk : (k, i) ∈ L) :
    wp (idup k) (fun l s' => l = k ∧ InvX X R ((k, i) ::ₘ L) B s' ∧ Quiet s s')
      (fun _ _ => False) s := by
  unfold idup
  rw [wp_bind, wp_modifyInode, wp_pure]
  exact ⟨rfl, h.dup (h.ref_pos hk) (h.inum _ hk)⟩

/-! ## `ilock` and `iunlock` -/

theorem setSlot_setSlot (s : FS) (k : Iptr) (ip jp : Inode) :
    (s.setSlot k ip).setSlot k jp = s.setSlot k jp := by
  simp only [FS.setSlot, update_idem]

theorem setSlot_eq_self (s : FS) (k : Iptr) : s.setSlot k (s.icache k) = s := by
  simp only [FS.setSlot, update_eq_self]

theorem InvX.lock (h : InvX X R L B s) (hk : (k, i) ∈ L) {d : Dinode}
    (hd : d = cur s i) (htype : d.type ≠ 0) :
    InvX X R L (insert k B)
      (s.setSlot k { s.icache k with busy := true, valid := true, din := d }) ∧
      Quiet s (s.setSlot k { s.icache k with busy := true, valid := true, din := d }) := by
  have hpos := h.ref_pos hk
  have hinum : (s.icache k).inum = i := h.inum _ hk
  have hread : d = dinode s.disk s.sb (s.icache k).inum := by
    rw [hd, hinum, h.store.dinode_eq (h.bounds hk).2]
  obtain ⟨hst, hq⟩ := h.store.setSlot k { s.icache k with busy := true, valid := true, din := d }
    (fun _ => h.store.slot hpos)
    (fun j hj _ => ⟨rfl, hj.2.2, by rw [h.store.clean k j hj (by simp), ← hj.2.2, hread]⟩)
    (fun _ _ => .inr ⟨hread, htype⟩)
  refine ⟨h.setSlot _ hst hq h.le (h.ref k) (fun _ _ => rfl) (fun q hqL hqk => ?_)
    (fun q hqL _ => hqL) (by simp) (fun l hl => by simp [hl]) (fun _ => rfl) (fun l hl => ?_)
    fun l j hl hload _ => ⟨hl, fun _ => rfl⟩, hq⟩
  · exact hqk ▸ h.inum q hqL
  · rcases mem_insert.1 hl with rfl | hl
    · exact ⟨i, hk⟩
    · exact (h.locked l hl).2

/-- `ilock` locks a slot and reads the inode if need be. It stops when the slot is locked
or the inode is free. -/
theorem ilock_spec (h : InvX X R L B s) (hk : (k, i) ∈ L) :
    wp (ilock k) (fun _ s' => k ∉ B ∧ (view s i).type ≠ 0 ∧ InvX X R L (insert k B) s' ∧ Quiet s s')
      (fun _ _ => k ∈ B ∨ (view s i).type = 0) s := by
  have hpos := h.ref_pos hk
  have hinum : (s.icache k).inum = i := h.inum _ hk
  unfold ilock
  rw [wp_bind, wp_get]
  dsimp only
  rw [if_neg (by omega)]
  by_cases hb : (s.icache k).busy = true
  · rw [if_pos hb]
    exact .inl ((h.busy k).1 hb)
  rw [if_neg hb, wp_bind, wp_modifyInode]
  have hkB : k ∉ B := mt (h.busy k).2 hb
  by_cases hv : (s.icache k).valid = true
  · have hl : Loaded s k i := ⟨hpos, hv, hinum⟩
    rw [if_pos hv, wp_pure]
    have hcur := h.store.cur_eq hl
    have htype := h.store.cur_type hl
    have hlock := h.lock hk rfl htype
    rw [hcur] at hlock
    have heq : ({ s.icache k with busy := true } : Inode) =
        { s.icache k with busy := true, valid := true, din := (s.icache k).din } := by rw [← hv]
    rw [heq]
    exact ⟨hkB, view_type s i ▸ htype, hlock⟩
  · rw [if_neg hv]
    simp only [wp_bind, wp_modifyInode]
    have hread : dinode s.disk s.sb (s.icache k).inum = cur s i := by
      rw [hinum, h.store.dinode_eq (h.bounds hk).2]
    rw [setSlot_self, setSlot_setSlot, hread]
    by_cases ht : (cur s i).type = 0
    · rw [if_pos ht]
      exact .inr ((view_type s i).trans ht)
    · rw [if_neg ht, wp_pure]
      exact ⟨hkB, view_type s i ▸ ht, h.lock hk rfl ht⟩

/-- `iunlock` of a locked slot. -/
theorem iunlock_spec (h : InvX X R L B s) (hk : k ∈ B) :
    wp (iunlock k) (fun _ s' => InvX X R L (B.erase k) s' ∧ Quiet s s') (fun _ _ => False) s := by
  obtain ⟨hv, i, hi⟩ := h.locked k hk
  have hpos := h.ref_pos hi
  unfold iunlock
  rw [wp_bind, wp_get, if_neg, wp_modifyInode]
  · obtain ⟨hst, hq⟩ := h.store.hold hpos (s.icache k).ref false
    refine ⟨h.setSlot _ hst hq h.le (h.ref k) (fun _ _ => rfl) (fun q hqL hqk => ?_)
      (fun q hqL _ => hqL) (by simp) (fun l hl => by simp [hl]) (fun _ => hv) (fun l hl => ?_)
      fun l j hl hload _ => ⟨hl, fun _ => hv⟩, hq⟩
    · exact hqk ▸ h.inum q hqL
    · exact (h.locked l (mem_of_mem_erase hl)).2
  · rw [(h.busy k).2 hk, not_or]
    exact ⟨by simp, by omega⟩

/-! ## `iput` -/

theorem InvX.put (h : InvX X R ((k, i) ::ₘ L) B s) (R' : Multiset (Iptr × ℕ)) (hB : k ∉ B)
    (hR : R' ≤ L) (hanch : ∀ l j, (l, j) ∈ R → Loaded s l j → (view s j).nlink = 0 → (l, j) ∈ R') :
    InvX X R' L B (s.setSlot k { s.icache k with ref := (s.icache k).ref - 1 }) ∧
      Quiet s (s.setSlot k { s.icache k with ref := (s.icache k).ref - 1 }) := by
  have hpos := h.ref_pos (Multiset.mem_cons_self _ _)
  have hcount : (s.icache k).ref - 1 = ((L.map Prod.fst).count k : ℕ) := by
    rw [h.ref k, InvX.count_cons_self, Int.natCast_succ, add_sub_cancel_right]
  obtain ⟨hst, hq⟩ := h.store.hold hpos ((s.icache k).ref - 1) (s.icache k).busy
  refine ⟨h.setSlot _ hst hq hR hcount (fun l hl => (InvX.count_cons_of_ne L k i hl).symm)
    (fun q hqL hqk => ?_) (fun q hqL _ => Multiset.mem_cons_of_mem hqL) (h.busy k)
    (fun _ _ => Iff.rfl) (fun hkB => absurd hkB hB) (fun l hl => ?_)
    fun l j hl hload hn => ⟨hanch l j hl hload hn, ?_⟩, hq⟩
  · exact hqk ▸ h.inum q (Multiset.mem_cons_of_mem hqL)
  · obtain ⟨j, hj⟩ := (h.locked l hl).2
    rcases Multiset.mem_cons.1 hj with heq | hj
    · obtain ⟨rfl, -⟩ := Prod.mk.inj heq
      exact absurd hl hB
    · exact ⟨j, hj⟩
  · rintro rfl
    exact hload.2.1

theorem InvX.last_iff (h : InvX X R ((k, i) ::ₘ L) B s) :
    (s.icache k).ref = 1 ↔ (k, i) ∉ L := by
  rw [h.ref k, InvX.count_cons_self]
  have hcount : (k, i) ∈ L ↔ 0 < (L.map Prod.fst).count k := by
    rw [Multiset.count_pos, Multiset.mem_map]
    constructor
    · exact fun hk => ⟨_, hk, rfl⟩
    · rintro ⟨⟨l, j⟩, hq, rfl⟩
      rwa [← h.inum_unique (Multiset.mem_cons_of_mem hq) (Multiset.mem_cons_self _ _)]
  rw [hcount]
  omega

theorem iput_keep (h : Inv R ((k, i) ::ₘ L) B s) (hB : k ∉ B) (hR : R ≤ L) :
    wp (iput k) (fun _ s' => Inv R L B s' ∧ Quiet s s') (fun _ _ => False) s := by
  unfold iput
  rw [wp_bind, wp_get]
  dsimp only
  rw [if_neg, wp_modifyInode]
  · exact h.put _ hB hR fun _ _ hl _ _ => hl
  · rintro ⟨href, hv, hn⟩
    have hl : Loaded s k i := ⟨by omega, hv, h.inum _ (Multiset.mem_cons_self _ _)⟩
    have htype : (view s i).type ≠ 0 := view_type s i ▸ h.store.cur_type hl
    obtain ⟨l, hlR, -⟩ := h.anchored i (notMem_empty i) htype
      ((h.store.nlink_eq hl).trans hn)
    have hlL := Multiset.mem_of_le hR hlR
    have hlk : l = k :=
      h.slot_unique (Multiset.mem_cons_of_mem hlL) (Multiset.mem_cons_self _ _)
    exact h.last_iff.1 href (hlk ▸ hlL)

/-- Slot `k`, not in use, is given other data. -/
def Recycled (s : FS) (k : Iptr) (s' : FS) : Prop :=
  s' = s ∨ ∃ ip : Inode, (s.icache k).ref = 0 ∧ ip.ref = 0 ∧ ip.busy = false ∧ s' = s.setSlot k ip

/-- `iput` of a reference `iget` just returned frees nothing. -/
theorem Got.put {s' : FS} (hg : Got s i k s') :
    wp (iput k) (fun _ s'' => Recycled s k s'') (fun _ _ => False) s' := by
  unfold iput
  rw [wp_bind, wp_get]
  dsimp only
  rcases hg with ⟨hk, -, -, rfl⟩ | ⟨hk, -, rfl⟩
  · rw [if_neg, wp_modifyInode, setSlot_self, setSlot_setSlot]
    · refine .inl ?_
      simp only [add_sub_cancel_right]
      exact setSlot_eq_self s k
    · rw [setSlot_self]
      rintro ⟨href, -⟩
      exact absurd href (by simp only; omega)
  · rw [if_neg, wp_modifyInode, setSlot_self, setSlot_setSlot]
    · exact .inr ⟨_, hk, rfl, rfl, rfl⟩
    · rw [setSlot_self]
      rintro ⟨-, hv, -⟩
      exact Bool.false_ne_true hv

theorem Store.recycled {s' : FS} (h : Store none s) (hr : Recycled s k s') :
    Store none s' ∧ Quiet s s' := by
  rcases hr with rfl | ⟨ip, hk, hip, -, rfl⟩
  · exact ⟨h, Quiet.refl s'⟩
  · exact h.setSlot k ip (fun hpos => absurd hpos (by omega)) (fun j hj _ => absurd hj.1 (by omega))
      fun hpos => absurd hpos (by omega)

theorem InvX.recycled {s' : FS} (h : InvX X R L B s) (hr : Recycled s k s') :
    InvX X R L B s' ∧ Quiet s s' := by
  obtain ⟨hst, hq⟩ := h.store.recycled hr
  refine ⟨?_, hq⟩
  rcases hr with rfl | ⟨ip, hk, hip, hbusy, rfl⟩
  · exact h
  have hnot : ∀ j, (k, j) ∉ L := fun j hj => absurd (h.ref_pos hj) (by omega)
  have hkB : k ∉ B := fun hkB => by
    obtain ⟨j, hj⟩ := (h.locked k hkB).2
    exact hnot j hj
  refine h.setSlot ip hst hq h.le ?_ (fun _ _ => rfl) (fun q hqL hqk => ?_) (fun q hqL _ => hqL)
    (by simp [hbusy, hkB]) (fun _ _ => Iff.rfl) (fun hk => absurd hk hkB)
    (fun l hl => (h.locked l hl).2) fun l j hl hload _ => ⟨hl, ?_⟩
  · rw [hip, ← hk, h.ref k]
  · exact absurd hqL (by rw [show q = (k, q.2) from Prod.ext hqk rfl]; exact hnot _)
  · rintro rfl
    exact absurd hload.1 (by omega)

/-- An inode without blocks is freed, with the slot that held it. -/
theorem Store.dealloc (h : Store none s) (hk : Loaded s k i) (hsize : (cur s i).size = 0)
    (haddr : ∀ j < NDIRECT + 1, (cur s i).addr j = 0) {ip : Inode} (href : ip.ref = 0) :
    Store none ((s.write (IBLOCK i s.sb) (putDinode s.disk s.sb i
        { (s.icache k).din with type := 0 })).setSlot k ip) ∧
      view ((s.write (IBLOCK i s.sb) (putDinode s.disk s.sb i
        { (s.icache k).din with type := 0 })).setSlot k ip) =
          update (view s) i Node.free := by
  have hi := h.lt hk
  have hcur := h.cur_eq hk
  set d : Dinode := { (s.icache k).din with type := 0 } with hd
  set s' := (s.write (IBLOCK i s.sb) (putDinode s.disk s.sb i d)).setSlot k ip with hs'
  have hself : s'.icache k = ip := setSlot_self _ _ _
  have hne : ∀ l ≠ k, s'.icache l = s.icache l := fun l hl => setSlot_of_ne _ _ hl
  have hload : ∀ l j, Loaded s' l j ↔ l ≠ k ∧ Loaded s l j := by
    intro l j
    by_cases hlk : l = k
    · rw [hlk, Loaded, hself, href]
      simp
    · rw [Loaded, hne l hlk, Loaded]
      simp [hlk]
  have hd' : Distinct s.sb s'.icache := by
    have hpos : ∀ l, 0 < (s'.icache l).ref → l ≠ k := by
      rintro l hl rfl
      rw [hself, href] at hl
      exact absurd hl (lt_irrefl 0)
    refine ⟨fun l hl => ?_, fun l hl => ?_, fun l hl => ?_, fun l m hl hm heq => ?_⟩
    · have := hpos l hl
      rw [hne l this] at hl ⊢
      exact h.distinct.dev l hl
    · have := hpos l hl
      rw [hne l this] at hl ⊢
      exact h.distinct.pos l hl
    · have := hpos l hl
      rw [hne l this] at hl ⊢
      exact h.distinct.lt l hl
    · have h1 := hpos l hl
      have h2 := hpos m hm
      rw [hne l h1] at hl heq
      rw [hne m h2] at hm heq
      exact h.distinct.unique l m hl hm heq
  have hput : ∀ j, dinode s'.disk s'.sb j = if j = i then d else dinode s.disk s.sb j :=
    fun j => dinode_put s.disk s.sb i j d
  have hcur' : cur s' = update (cur s) i d := by
    funext j
    by_cases hji : j = i
    · subst hji
      rw [update_self, cur_of_not_loaded (s := s') hi, hput, if_pos rfl]
      intro l hl
      obtain ⟨hlk, hl⟩ := (hload l j).1 hl
      exact hlk (h.distinct.unique l k hl.1 hk.1 (hl.2.2.trans hk.2.2.symm))
    · rw [update_of_ne hji]
      rcases Nat.lt_or_ge j (ninum s.sb) with hj | hj
      · by_cases hl : ∃ l, Loaded s' l j
        · obtain ⟨l, hl⟩ := hl
          obtain ⟨hlk, hl'⟩ := (hload l j).1 hl
          rw [cur_of_loaded hd' hl, h.cur_eq hl', hne l hlk]
        · rw [cur_of_not_loaded (s := s') hj (not_exists.1 hl), hput, if_neg hji, h.dinode_eq hj]
      · rw [cur_of_le hj, cur_of_le (s := s') hj]
  have hblk := h.geometry.inode_block hi
  have hdata : ∀ c, InData s.sb c → s'.disk c = s.disk c := fun c hc =>
    update_of_ne (h.geometry.data_ne_inode hc hi) _ _
  have hslot : ∀ (disk : ℕ → Block) j, slotAddr disk (cur s i) j = 0 := by
    intro disk j
    unfold slotAddr
    split_ifs with h1 h2
    · exact haddr j h1
    · rfl
    · exact absurd (haddr NDIRECT (Nat.lt_succ_self _)) h2
  refine ⟨⟨h.geometry, ?_, hd', fun l j hl => ?_, fun l j hl _ => ?_, ?_⟩,
    view_eq_update (fun l hl => ?_) ?_⟩
  · exact (readsb_congr (update_of_ne (by omega) _ _)).trans h.super
  · obtain ⟨hlk, hl⟩ := (hload l j).1 hl
    rw [hne l hlk]
    exact h.typed l j hl
  · obtain ⟨hlk, hl'⟩ := (hload l j).1 hl
    have hji : j ≠ i := by
      rintro rfl
      exact hlk (h.distinct.unique l k hl'.1 hk.1 (hl'.2.2.trans hk.2.2.symm))
    rw [hput, hne l hlk, if_neg hji]
    exact h.clean l j hl' (by simp)
  · have howned : Owned s.sb (update (cur s) i d) s.disk := by
      refine h.owned.set_empty (.inr fun j _ => hslot _ j) (fun j _ => ?_) ?_
      · rw [← hslot s.disk j, hcur]
        exact slotAddr_congr (fun _ _ => rfl) (fun _ => rfl) j
      · rw [← hsize, hcur]
    rw [hcur']
    refine howned.disk_congr hdata fun c hc => used_congr (update_of_ne ?_ _ _)
    exact h.geometry.bitmap_ne_inode hc hi
  · refine view_frame (by rw [hcur', update_of_ne hl]) fun c m hown => ?_
    exact hdata c (h.owned.exact.used_of_own _ _ hown).1
  · rw [view, hcur', update_self, node, if_pos rfl]

/-- The files after the reference `(k, i)` goes : file `i` is freed if it has no links and the
references `L` that are left do not refer to it. -/
def released (V : ℕ → Node) (L : Multiset (Iptr × ℕ)) (k : Iptr) (i : ℕ) : ℕ → Node :=
  if (k, i) ∉ L ∧ (V i).nlink = 0 then update V i Node.free else V

theorem view_of_type_eq_zero (h : (view s i).type = 0) : view s i = Node.free := by
  rw [view_type] at h
  rw [view, node, if_pos h]

/-- The last reference to an inode is gone, and so is the inode. -/
theorem Inv.freed {s' : FS} (h : Inv ((k, i) ::ₘ L) ((k, i) ::ₘ L) B s) (hB : k ∉ B)
    (hL : (k, i) ∉ L) (hst : Store none s')
    (hview : view s' = update (view s) i Node.free)
    (hother : ∀ l ≠ k, s'.icache l = { s.icache l with din := (s'.icache l).din })
    (href : (s'.icache k).ref = 0) (hbusy : (s'.icache k).busy = false) : Inv L L B s' := by
  have hnot : ∀ q ∈ L, q.1 ≠ k := by
    rintro ⟨l, j⟩ hq rfl
    exact hL (h.inum_unique (Multiset.mem_cons_of_mem hq) (Multiset.mem_cons_self _ _) ▸ hq)
  refine ⟨hst, le_rfl, fun l => ?_, fun q hq => ?_, fun l => ?_,
    fun l hl => ?_, fun j _ hj hn => ?_⟩
  · by_cases hlk : l = k
    · subst hlk
      have hcount : (L.map Prod.fst).count l = 0 := by
        rw [Multiset.count_eq_zero, Multiset.mem_map]
        rintro ⟨q, hq, hql⟩
        exact hnot q hq hql
      rw [href, hcount]
      rfl
    · rw [hother l hlk, h.ref l, InvX.count_cons_of_ne L k i hlk]
  · rw [hother _ (hnot q hq)]
    exact h.inum q (Multiset.mem_cons_of_mem hq)
  · by_cases hlk : l = k
    · rw [hlk, hbusy]
      simp [hB]
    · rw [hother l hlk]
      exact h.busy l
  · have hlk : l ≠ k := by
      rintro rfl
      exact hB hl
    obtain ⟨hv, j, hj⟩ := h.locked l hl
    rw [hother l hlk]
    refine ⟨hv, j, (Multiset.mem_cons.1 hj).resolve_left fun heq => hlk ?_⟩
    exact (Prod.mk.inj heq).1
  · have hji : j ≠ i := by
      rintro rfl
      rw [hview, update_self] at hj
      exact hj rfl
    rw [hview, update_of_ne hji] at hj hn
    obtain ⟨l, hl, hload⟩ := h.anchored j (notMem_empty j) hj hn
    have hl' := (Multiset.mem_cons.1 hl).resolve_left fun heq => hji (Prod.mk.inj heq).2
    refine ⟨l, hl', ?_⟩
    rw [Loaded, hother l (hnot _ hl')]
    exact hload

/-- The part of `iput` that frees the inode. -/
theorem iput_free (h : Inv ((k, i) ::ₘ L) ((k, i) ::ₘ L) B s) (hB : k ∉ B) (hL : (k, i) ∉ L)
    (hl : Loaded s k i) :
    wp (do
        itrunc k
        modifyDin k fun d => { d with type := 0 }
        iupdate k
        modifyInode k fun ip => { ip with busy := false, valid := false }
        modifyInode k fun ip => { ip with ref := ip.ref - 1 })
      (fun _ s' => Inv L L B s' ∧ view s' = update (view s) i Node.free ∧
        Eff (insert (IBLOCK i s.sb) (bitmapBlocks s.sb)) 0 s s')
      (fun _ _ => True) (s.setSlot k { s.icache k with busy := true }) := by
  have href : (s.icache k).ref = 1 := h.last_iff.2 hL
  obtain ⟨hst1, hq⟩ := h.store.hold hl.1 (s.icache k).ref true
  set s1 := s.setSlot k { s.icache k with busy := true } with hs1
  have hself1 : s1.icache k = { s.icache k with busy := true } := setSlot_self _ _ _
  have hl1 : Loaded s1 k i := by
    rw [Loaded, hself1]
    exact hl
  refine wp_seq (itrunc_spec hst1 hl1 (.inl rfl)) ?_
  rintro _ s2 ⟨hst2, hview2, ⟨hsize, haddr⟩, hstep⟩
  have hl2 : Loaded s2 k i := hstep.same.loaded.2 hl1
  have hsb : s2.sb = s.sb := FS.sb_of_env hstep.env
  rw [wp_bind, wp_modifyDin]
  unfold iupdate
  rw [wp_bind_eq, wp_bind_eq, wp_get]
  refine wp_mono' (logWrite_spec _ _ _) ?_ fun _ _ _ => trivial
  rintro _ s3 ⟨rfl, -⟩
  rw [wp_bind, wp_modifyInode, wp_modifyInode, setSlot_self, setSlot_setSlot]
  set d : Dinode := { (s2.icache k).din with type := 0 } with hd
  have hdin : (s2.setDin k d).icache k = { s2.icache k with din := d } := by simp [FS.setDin]
  have hgoal : ∀ jp : Inode, jp.ref = 0 → jp.busy = false →
      Inv L L B ((s2.write (IBLOCK i s2.sb) (putDinode s2.disk s2.sb i d)).setSlot k jp) ∧
      view ((s2.write (IBLOCK i s2.sb) (putDinode s2.disk s2.sb i d)).setSlot k jp) =
        update (view s) i Node.free ∧
      Eff (insert (IBLOCK i s.sb) (bitmapBlocks s.sb)) 0 s
        ((s2.write (IBLOCK i s2.sb) (putDinode s2.disk s2.sb i d)).setSlot k jp) := by
    intro jp hjref hjbusy
    obtain ⟨hst, hview⟩ := hst2.dealloc hl2 hsize haddr hjref
    rw [hview2, hq.view_eq, update_idem] at hview
    refine ⟨h.freed hB hL hst hview (fun l hlk => ?_) ?_ ?_, hview, ?_⟩
    · have hsame := hstep.same l
      rw [hs1, setSlot_of_ne s _ hlk] at hsame
      rw [setSlot_of_ne _ jp hlk]
      exact hsame
    · rw [setSlot_self, hjref]
    · rw [setSlot_self, hjbusy]
    · have heff := hstep.toEff.trans (Step.write s2 (IBLOCK i s2.sb)
        (putDinode s2.disk s2.sb i d)).toEff
      refine ⟨heff.env.trans hq.env, fun W hW => ?_⟩
      have hle := heff.loads W (union_subset hW (by
        rw [hsb, singleton_subset_iff]
        exact hW (mem_insert_self _ _)))
      rwa [hq.lh] at hle
  have heq : ∀ jp,
      ((s2.setDin k d).write (IBLOCK ((s2.setDin k d).icache k).inum (s2.setDin k d).sb)
      (putDinode (s2.setDin k d).disk (s2.setDin k d).sb ((s2.setDin k d).icache k).inum
        ((s2.setDin k d).icache k).din)).setSlot k jp =
      (s2.write (IBLOCK i s2.sb) (putDinode s2.disk s2.sb i d)).setSlot k jp := by
    intro jp
    rw [hdin]
    simp only [FS.setSlot, FS.write, FS.setDin, update_idem, hl2.2.2]
  rw [heq]
  refine hgoal _ ?_ rfl
  show ((s2.setDin k d).icache k).ref - 1 = 0
  rw [hdin]
  show (s2.icache k).ref - 1 = 0
  rw [hstep.same.ref, hself1]
  exact sub_eq_zero.2 href

/-- `iput` frees an inode without links when the reference is the last one. -/
theorem iput_drop (h : Inv ((k, i) ::ₘ L) ((k, i) ::ₘ L) B s) (hB : k ∉ B) :
    wp (iput k) (fun _ s' => Inv L L B s' ∧ view s' = released (view s) L k i ∧
        Eff (insert (IBLOCK i s.sb) (bitmapBlocks s.sb)) 0 s s')
      (fun _ _ => True) s := by
  have hmem : (k, i) ∈ (k, i) ::ₘ L := Multiset.mem_cons_self _ _
  have hpos := h.ref_pos hmem
  have hinum : (s.icache k).inum = i := h.inum _ hmem
  unfold iput
  rw [wp_bind, wp_get]
  dsimp only
  by_cases hlast : (s.icache k).ref = 1 ∧ (s.icache k).valid = true ∧ (s.icache k).din.nlink = 0
  · have hl : Loaded s k i := ⟨hpos, hlast.2.1, hinum⟩
    have hbusy : (s.icache k).busy = false := by
      rw [← Bool.not_eq_true, h.busy k]
      exact hB
    have hnot := h.last_iff.1 hlast.1
    have hn : (view s i).nlink = 0 := (h.store.nlink_eq hl).trans hlast.2.2
    rw [if_pos hlast, hbusy, if_neg (by simp), wp_bind, wp_modifyInode, released,
      if_pos ⟨hnot, hn⟩]
    exact iput_free h hB hnot hl
  · rw [if_neg hlast, wp_modifyInode]
    have hcase : (k, i) ∈ L ∨ (view s i).nlink ≠ 0 ∨ view s i = Node.free := by
      by_contra hno
      simp only [not_or, not_not] at hno
      obtain ⟨hL, hn, hfree⟩ := hno
      have htype : (view s i).type ≠ 0 := mt view_of_type_eq_zero hfree
      obtain ⟨l, hlR, hload⟩ := h.anchored i (notMem_empty i) htype hn
      obtain rfl := h.slot_unique hlR hmem
      exact hlast ⟨h.last_iff.2 hL, hload.2.1, (h.store.nlink_eq hload).symm.trans hn⟩
    obtain ⟨hinv, hq⟩ := h.put L hB le_rfl fun l j hlR hload hn => by
      rcases Multiset.mem_cons.1 hlR with heq | hlR
      · obtain ⟨rfl, rfl⟩ := Prod.mk.inj heq
        by_contra hL
        exact hlast ⟨h.last_iff.2 hL, hload.2.1, (h.store.nlink_eq hload).symm.trans hn⟩
      · exact hlR
    refine ⟨hinv, ?_, hq.eff.mono (empty_subset _) le_rfl⟩
    rw [hq.view_eq, released]
    split_ifs with hc
    · rcases hcase with hL | hn | hfree
      · exact absurd hL hc.1
      · exact absurd hc.2 hn
      · rw [← hfree, update_eq_self]
    · rfl

end Xv6
