import Xv6.Copyuvm
import Xv6.ExecLoads
import Xv6.Lib.Transition

/-!
# Pages over whole runs

Processes fork, execute files, grow and shrink, exit and are reaped, and pipes are made and closed,
in any order and with any calls of `kalloc` failing. Over such a run no page is in two places : it
is the directory, a table or a frame of at most one address space, or one kernel stack, or one pipe,
or it is free once, and none is used after it is freed (`boot_run_tidy`). A page may be in no place,
since a `fork` or an `sbrk` that fails can lose some. A file that is executed has to be sound, as
`exec` writes to the addresses that its program headers name.
-/

open Function Prog Ownership Transition Option List

namespace Xv6.Vm

open Ptable (Slot)

section

variable {K : Link} {P : Pool K} {A B : Type} {O : Owners A B} {v v' : Mem} {a b : A}
  {d d' x : ℕ} {sz : UInt32}

/-- The page of `b` is nobody's. -/
def Owners.dropOther [DecidableEq B] (O : Owners A B) (b : B) : Owners A B :=
  { O with others := update O.others b none }

theorem Own.release [DecidableEq B] {b : B} (h : Own P O v) (hb : O.others b = some x) :
    Own P (O.dropOther b) v ∧ Loose P (O.dropOther b) v x := by
  refine Exclusive.drop (.other b) h hb (update_self ..) fun r hr => ?_
  cases r with
  | other b' =>
    have hne : b' ≠ b := fun he => hr (congrArg Ref.other he)
    exact update_of_ne hne ..
  | dir | table | frame => rfl

/-- A directory that is added takes the place of that of `a`. -/
theorem among_setRoot [DecidableEq A] (O : Owners A B) (a : A) (d : ℕ) :
    Among { O with roots := update O.roots a (some d) }
      ((O.addRoot d).dropRoot (some a)) (fun a' => if a' = a then none else some a') id := by
  refine ⟨fun a' d' h => ?_, fun _ _ => id, fun a1 a2 _ _ _ he => ?_, fun _ _ _ _ _ => id⟩
  · by_cases ha : a' = a <;> simpa [Owners.dropRoot, Owners.addRoot, ha] using h
  · grind

/-- A page that is added takes the place of that of `b`. -/
theorem among_setOther [DecidableEq B] (O : Owners A B) (b : B) (x : ℕ) :
    Among { O with others := update O.others b (some x) } (O.hold x) id
      (fun b' => if b' = b then none else some b') := by
  refine ⟨fun _ _ => id, fun b' y h => ?_, fun _ _ _ _ _ => id, fun b1 b2 _ _ _ he => ?_⟩
  · by_cases hb : b' = b <;> simpa [Owners.hold, hb] using h
  · grind

theorem copyLoop_own (ha : O.roots a = some d') :
    ∀ (count n : ℕ) (v : Mem), Own P O v → n + count ≤ KERNPAGE →
      wp (copyLoop d d' count n) (fun _ v' => Own P O v') (fun _ _ => True) v
  | 0, _, _, h, _ => h
  | count + 1, n, v, h, hn => by
    unfold copyLoop
    rw [wp_bind, wp_walkpgdir_false]
    cases v.table d (PDX n) with
    | none => trivial
    | some t =>
      simp only [map_some, wp_bind, wp_get]
      split_ifs
      · trivial
      refine wp_seq (kalloc_spec h) ?_
      rintro r v1 ⟨-, hown, hr⟩
      cases r with
      | none => exact hown
      | some y =>
        simp only [wp_bind, wp_modify]
        refine wp_mono (mapUser_spec (hr.1.own_fill hown _) ha (by omega) (hr.1.fill _) (flags_lt _)
          (.inl fun _ => trivial)) ?_
        rintro ok v2 ⟨hedit, -⟩
        cases ok with
        | false => exact hedit.own
        | true => exact copyLoop_own ha count (n + 1) v2 hedit.own (by omega)

theorem copyuvm_own (h : Own P O v) (hsz : sz ≤ KERNBASE) :
    wp (copyuvm K d sz) (fun r v' => Own P O v' ∧ ∀ d', r = some d' → Own P (O.addRoot d') v')
      (fun _ _ => True) v := by
  unfold copyuvm
  refine wp_seq (setupkvm_spec h) ?_
  rintro r v1 ⟨hown, -, -, hr⟩
  cases r with
  | none => exact ⟨hown, nofun⟩
  | some d' =>
    have hN := pageUp_le hsz
    refine wp_seq (copyLoop_own (a := none) rfl (pageUp sz) 0 v1 hr.own (by omega)) ?_
    intro ok v2 hown2
    cases ok with
    | true => exact ⟨hown2.among (among_addRoot O d'), fun _ he => some.inj he ▸ hown2⟩
    | false => exact wp_seq (freevm_new hown2 (Kept.refl ..)) fun _ _ h3 => ⟨h3.1, nofun⟩

theorem forkPages_own (h : Own P O v) (hsz : sz ≤ KERNBASE) :
    wp (forkPages K d sz) (fun r v' =>
      match r with
      | none => Own P O v'
      | some (d', x) => Own P ((O.hold x).addRoot d') v') (fun _ _ => True) v := by
  classical
  unfold forkPages
  refine wp_seq (kalloc_spec h) ?_
  rintro r v1 ⟨-, hown, hr⟩
  cases r with
  | none => exact hown
  | some x =>
    refine wp_seq (copyuvm_own (hown.hold hr.1) hsz) ?_
    rintro r v2 ⟨hown2, hr2⟩
    cases r with
    | some d' => exact hr2 d' rfl
    | none =>
      obtain ⟨hown3, hx⟩ := hown2.release (b := none) rfl
      rw [wp_bind, wp_kfree (P.usable x hx.pool)]
      exact (hown3.put hx).among (f := id) (g := some) ⟨fun _ _ => id, fun _ _ => id,
        fun _ _ _ _ _ => id, fun _ _ _ _ _ => some.inj⟩

/-- The loop of `allocuvm` changes pages of its own tree only. -/
theorem allocLoop_own (ha : O.roots a = some d) {oldsz newsz : UInt32} (hnew : newsz ≤ KERNBASE)
    (hE : ∀ v', E (.panic "remap") v') : ∀ (count n : ℕ) (v : Mem), Own P O v →
      n + count ≤ KERNPAGE → wp (allocLoop K d oldsz newsz count n) (fun _ v' => Own P O v') E v
  | 0, _, _, h, _ => h
  | count + 1, n, v, h, hcount => by
    unfold allocLoop
    refine wp_seq (kalloc_spec h) ?_
    rintro r v1 ⟨-, hown, hr⟩
    cases r with
    | none =>
      refine wp_seq (deallocuvm_spec (U := UserPte) hown ha hnew) ?_
      rintro _ v' ⟨hedit, -⟩
      exact hedit.own
    | some x =>
      obtain ⟨hx, -⟩ := hr
      simp only [wp_bind, wp_modify]
      refine wp_mono (mapUser_spec (hx.own_fill hown fun _ => 0) ha (by omega) (hx.fill _)
        (show (PTE_W ||| PTE_U).toNat < PGSIZE by decide) (.inl hE)) ?_
      rintro _ v3 ⟨hedit3, -⟩
      exact allocLoop_own ha hnew hE count (n + 1) v3 hedit3.own (by omega)

theorem allocuvm_own (h : Own P O v) (ha : O.roots a = some d) {oldsz newsz : UInt32}
    (hE : ∀ v', E (.panic "remap") v') :
    wp (allocuvm K d oldsz newsz) (fun r v' => Own P O v' ∧
      (r ≠ 0 → newsz < KERNBASE ∧ (r = oldsz ∨ r = newsz))) E v := by
  unfold allocuvm
  split_ifs with hbig hless
  · exact ⟨h, fun h0 => absurd rfl h0⟩
  · exact ⟨h, fun _ => ⟨UInt32.not_le.1 hbig, .inl rfl⟩⟩
  · have hnew : newsz < KERNBASE := UInt32.not_le.1 hbig
    have hup : pageUp oldsz ≤ pageUp newsz := by
      have hle := UInt32.le_iff_toNat_le.1 (UInt32.not_lt.1 hless)
      exact Nat.div_le_div_right (by omega)
    have hKERN := pageUp_le (UInt32.le_of_lt hnew)
    refine wp_seq (allocLoop_own ha (UInt32.le_of_lt hnew) hE _ _ v h (by omega))
      fun r v' hown => ?_
    cases r with
    | true => exact ⟨hown, fun _ => ⟨hnew, .inr rfl⟩⟩
    | false => exact ⟨hown, fun h0 => absurd rfl h0⟩

theorem growproc_own (h : Own P O v) (ha : O.roots a = some d) (hsz : sz ≤ KERNBASE) (n : Int32) :
    wp (growproc K d sz n) (fun r v' => Own P O v' ∧ ∀ sz', r = some sz' → sz' ≤ KERNBASE)
      (fun _ _ => True) v := by
  unfold growproc
  split_ifs
  · refine wp_seq (allocuvm_own h ha fun _ => trivial) ?_
    rintro r v1 ⟨hown, hr⟩
    refine ⟨hown, fun sz' he => ?_⟩
    split_ifs at he with h0
    obtain ⟨hlt, rfl | rfl⟩ := hr h0 <;> cases he
    · exact hsz
    · exact UInt32.le_of_lt hlt
  · refine wp_seq (deallocuvm_spec (U := fun _ => True) h ha hsz) ?_
    rintro r v1 ⟨hedit, hr⟩
    refine ⟨hedit.own, fun sz' he => ?_⟩
    split_ifs at he
    cases he
    exact UInt32.le_trans hr hsz
  · exact ⟨h, fun _ he => some.inj he ▸ hsz⟩

theorem exec_own [DecidableEq A] {f : Image} {argv : List (List UInt8)} (h : Own P O v)
    (ha : O.roots a = some d) (hs : f.IsElf → ExecSound v f argv) :
    wp (exec K d f argv) (fun r v' =>
      match r with
      | none => Own P O v'
      | some (d', sz) => sz ≤ KERNBASE ∧ Own P ((O.addRoot d').dropRoot (some a)) v')
      (fun _ _ => True) v := by
  refine exec_rule h hs (fun _ => h) (fun _ _ hv _ _ => hv) (fun _ _ _ _ hv _ => hv)
    (fun _ _ d' sz v1 _ hlt hL => ?_) fun _ _ _ _ => trivial
  exact wp_mono (freevm_spec (a := some a) hL.guarded.own ha) fun _ _ hv =>
    ⟨UInt32.le_of_lt hlt, hv.1⟩

theorem waitPages_own [DecidableEq A] [DecidableEq B] {b : B} (h : Own P O v)
    (ha : O.roots a = some d) (hb : O.others b = some x) :
    wp (waitPages K d x) (fun _ v' => Own P ((O.dropOther b).dropRoot a) v') (fun _ _ => True)
      v := by
  obtain ⟨hown, hx⟩ := h.release hb
  unfold waitPages
  rw [wp_bind, wp_kfree (P.usable x hx.pool)]
  exact wp_mono (freevm_spec (hown.put hx) ha) fun _ _ hv => hv.1

end

/-! ## The system -/

/-- What owns the pages : the kernel's page directory and those of the processes, the kernel stacks
of the processes, the pipes, and the stacks of the other CPUs. -/
def State.owners (s : State) : Owners (Option Slot) (Slot ⊕ ℕ ⊕ ℕ) where
  roots a := a.elim (some s.kpgdir) fun p => (s.proc p).map Proc.pgdir
  others
    | .inl p => (s.proc p).map Proc.kstack
    | .inr (.inl i) => (s.pipe i).map Pipe.page
    | .inr (.inr j) => s.cpuStacks[j]?

/-- No page is in two places, and the memory of a process is below the kernel's. -/
structure Tidy {K : Link} (P : Pool K) (s : State) : Prop where
  own : Own P s.owners s.mem
  sz : ∀ p x, s.proc p = some x → x.sz ≤ KERNBASE

/-- A file that is executed is sound. -/
def Label.Sound (s : State) : Label → Prop
  | .exec _ f argv fails => f.IsElf → ExecSound { s.mem with fails := fails } f argv
  | _ => True

section

variable {K : Link} {P : Pool K} {s s' : State} {p q : Slot}

theorem setProc_owners (s : State) (q : Slot) (y : Option Proc) :
    (s.setProc q y).owners = ⟨update s.owners.roots (some q) (y.map Proc.pgdir),
      update s.owners.others (.inl q) (y.map Proc.kstack)⟩ := by
  simp only [State.owners, State.setProc, Owners.mk.injEq]
  refine ⟨funext fun a => ?_, funext fun b => ?_⟩
  · rcases a with _ | p
    · rfl
    · by_cases hp : p = q <;> simp [hp]
  · rcases b with p | i | j
    · by_cases hp : p = q <;> simp [hp]
    · rfl
    · rfl

theorem setPipe_owners (s : State) (i : ℕ) (y : Option Pipe) :
    (s.setPipe i y).owners = { s.owners with
      others := update s.owners.others (.inr (.inl i)) (y.map Pipe.page) } := by
  simp only [State.owners, State.setPipe, Owners.mk.injEq, true_and]
  refine funext fun b => ?_
  rcases b with p | j | j
  · rfl
  · by_cases hj : j = i <;> simp [hj]
  · rfl

/-- A call that returns ends as it is specified to. -/
theorem State.exec_some {α : Type} {fails : List Bool} {m : M α} {k : α → State → State}
    {Q : α → Mem → Prop} (h : s.exec fails m k = some s')
    (hm : wp m Q (fun _ _ => True) { s.mem with fails := fails }) :
    ∃ r v, Q r v ∧ s' = k r { s with mem := v } := by
  unfold State.exec at h
  cases hrun : m { s.mem with fails := fails } with
  | error e v =>
    rw [hrun] at h
    cases h
  | ok r v =>
    rw [hrun] at h
    exact ⟨r, v, wp_ok hm hrun, (some.inj h).symm⟩

theorem Tidy.failing (h : Tidy P s) (fails : List Bool) :
    Own P s.owners { s.mem with fails := fails } :=
  h.own

/-- The slot `q` is given to `y`. -/
theorem Tidy.setProc {v : Mem} {y : Option Proc} (h : Tidy P s)
    (hown : Own P (s.setProc q y).owners v) (hsz : ∀ x, y = some x → x.sz ≤ KERNBASE) :
    Tidy P ({ s with mem := v }.setProc q y) := by
  refine ⟨hown, fun p x hp => ?_⟩
  by_cases he : p = q
  · subst he
    exact hsz x (by simpa [State.setProc] using hp)
  · exact h.sz p x (by simpa [State.setProc, he] using hp)

/-- A process keeps its directory and its stack. -/
theorem setProc_owners_self {x y : Proc} (hp : s.proc p = some x) (hd : y.pgdir = x.pgdir)
    (hk : y.kstack = x.kstack) : (s.setProc p (some y)).owners = s.owners := by
  rw [setProc_owners, map_some, map_some, hd, hk]
  congr 1
  · refine update_eq_self_iff.2 ?_
    simp [State.owners, hp]
  · refine update_eq_self_iff.2 ?_
    simp [State.owners, hp]

/-- A new process in slot `q`. -/
theorem Tidy.start {v : Mem} {x : Proc} (h : Tidy P s) (hsz : x.sz ≤ KERNBASE)
    (hown : Own P ((s.owners.hold x.kstack).addRoot x.pgdir) v) :
    Tidy P ({ s with mem := v }.setProc q (some x)) := by
  refine h.setProc ?_ fun y hy => some.inj hy ▸ hsz
  rw [setProc_owners]
  have hroot := (hown.among (among_dropRoot _ (some (some q)))).among (among_setRoot _ (some q) _)
  exact hroot.among (among_setOther
    { s.owners with roots := update s.owners.roots (some q) _ } (.inl q) _)

theorem Tidy.exec {v : Mem} {d : ℕ} {sz : UInt32} {x : Proc} (h : Tidy P s)
    (hp : s.proc p = some x) (hsz : sz ≤ KERNBASE)
    (hown : Own P ((s.owners.addRoot d).dropRoot (some (some p))) v) :
    Tidy P ({ s with mem := v }.setProc p (some { x with pgdir := d, sz := sz })) := by
  refine h.setProc ?_ fun y hy => some.inj hy ▸ hsz
  have hk : update s.owners.others (.inl p) (some x.kstack) = s.owners.others :=
    update_eq_self_iff.2 (by simp [State.owners, hp])
  rw [setProc_owners, map_some, map_some, hk]
  exact hown.among (among_setRoot _ (some p) d)

/-- One call keeps the pages in order. -/
theorem Tidy.step {l : Label} (h : Tidy P s) (hl : l.Sound s) (hs : step K s l = some s') :
    Tidy P s' := by
  cases l <;> simp only [Vm.step] at hs
  case fork p q fails =>
    split at hs
    next x hp hq =>
      split_ifs at hs
      obtain ⟨r, v, hr, rfl⟩ := s.exec_some hs (forkPages_own (h.failing fails) (h.sz p x hp))
      rcases r with _ | ⟨d, k⟩
      · exact ⟨hr, h.sz⟩
      · exact h.start (x := ⟨d, k, x.sz, false⟩) (h.sz p x hp) hr
    · cases hs
  case exec p f argv fails =>
    split at hs
    next x hp =>
      split_ifs at hs
      have ha : s.owners.roots (some p) = some x.pgdir := by simp [State.owners, hp]
      obtain ⟨r, v, hr, rfl⟩ := s.exec_some hs (exec_own (h.failing fails) ha hl)
      rcases r with _ | ⟨d, sz⟩
      · exact ⟨hr, h.sz⟩
      · exact h.exec hp hr.1 hr.2
    · cases hs
  case sbrk p n fails =>
    split at hs
    next x hp =>
      split_ifs at hs
      have ha : s.owners.roots (some p) = some x.pgdir := by simp [State.owners, hp]
      obtain ⟨r, v, hr, rfl⟩ := s.exec_some hs (growproc_own (h.failing fails) ha (h.sz p x hp) n)
      cases r with
      | none => exact ⟨hr.1, h.sz⟩
      | some sz =>
        refine h.setProc ?_ fun y hy => some.inj hy ▸ hr.2 sz rfl
        rw [setProc_owners_self (y := { x with sz := sz }) hp rfl rfl]
        exact hr.1
    · cases hs
  case exit p =>
    split at hs
    next x hp =>
      split_ifs at hs
      cases hs
      refine h.setProc (v := s.mem) ?_ fun y hy => some.inj hy ▸ h.sz p x hp
      rw [setProc_owners_self (y := { x with zombie := true }) hp rfl rfl]
      exact h.own
    · cases hs
  case wait q =>
    split at hs
    next x hq =>
      split_ifs at hs
      have hk : s.owners.others (.inl q) = some x.kstack := by simp [State.owners, hq]
      have ha : s.owners.roots (some q) = some x.pgdir := by simp [State.owners, hq]
      obtain ⟨-, v, hv, rfl⟩ := s.exec_some hs (waitPages_own (h.failing []) ha hk)
      refine h.setProc ?_ (by simp)
      rw [setProc_owners]
      exact hv
    · cases hs
  case pipe i fails =>
    split at hs
    next hi =>
      obtain ⟨r, v, ⟨-, hown, hr⟩, rfl⟩ := s.exec_some hs (kalloc_spec (h.failing fails))
      cases r with
      | none => exact ⟨hown, h.sz⟩
      | some x =>
        refine ⟨?_, h.sz⟩
        rw [setPipe_owners]
        exact (hown.hold hr.1).among (among_setOther s.owners (.inr (.inl i)) x)
    · cases hs
  case close i writable =>
    split at hs
    next x hi =>
      have hpage : (x.close writable).page = x.page := by
        unfold Pipe.close
        split_ifs <;> rfl
      have hx : s.owners.others (.inr (.inl i)) = some x.page := by simp [State.owners, hi]
      simp only [hpage] at hs
      by_cases hopen : (if writable then x.writeopen else x.readopen) = false
      · rw [if_pos hopen] at hs
        cases hs
      rw [if_neg hopen] at hs
      split_ifs at hs
      · cases hs
        refine ⟨?_, h.sz⟩
        rw [setPipe_owners, map_some, hpage, update_eq_self_iff.2 hx.symm]
        exact h.own
      · obtain ⟨hown, hloose⟩ := (h.failing []).release hx
        have hfree : wp (kfree K x.page) (fun _ => Own P (s.owners.dropOther (.inr (.inl i))))
            (fun _ _ => True) { s.mem with fails := [] } :=
          (wp_kfree (P.usable _ hloose.pool)).2 (hown.put hloose)
        obtain ⟨-, v, hv, rfl⟩ := s.exec_some hs hfree
        refine ⟨?_, h.sz⟩
        rw [setPipe_owners]
        exact hv
    · cases hs

end

/-! ## Boot -/

/-- There are `n` free pages, and `kalloc` finds them. -/
def Room (n : ℕ) (v : Mem) : Prop :=
  v.fails = [] ∧ n ≤ v.freelist.length

/-- The system before there is a process. -/
def idle (v : Mem) (d : ℕ) (xs : List ℕ) : State :=
  ⟨v, d, xs, fun _ => none, fun _ => none⟩

section

variable {K : Link} {P : Pool K} {A B : Type} {O : Owners A B} {v : Mem} {a : A} {d n m : ℕ}
  {init : ℕ → UInt32} {E : Stop → Mem → Prop}

theorem kalloc_room (h : Own P O v) (hv : Room (n + 1) v) :
    wp kalloc (fun r v' => ∃ x, r = some x ∧ v'.word = v.word ∧ Own P O v' ∧ Loose P O v' x ∧
      Room n v') E v := by
  refine wp_mono (wp_always (kalloc_spec h) silent_kalloc) ?_
  rintro r v' ⟨⟨hw, hown, hr⟩, hsil⟩
  obtain ⟨hfails, hlen⟩ := hv
  cases r with
  | none => simp [hr.2 hfails] at hlen
  | some x =>
    rw [hr.2, length_cons] at hlen
    exact ⟨x, rfl, hw, hown, hr.1, hsil.fails hfails, by omega⟩

theorem setupkvm_room (h : Own P O v) (hv : Room (n + 65) v) :
    wp (setupkvm K) (fun r v' => ∃ d, r = some d ∧ SetUp P O d v v' ∧ Room n v') E v := by
  refine wp_mono (wp_always (setupkvm_spec h) silent_setupkvm) ?_
  rintro r v' ⟨⟨-, -, -, hr⟩, hsil⟩
  obtain ⟨hfails, hlen⟩ := hv
  cases r with
  | none => exact absurd (hr hfails).1 (by omega)
  | some d =>
    have := hr.length hfails
    exact ⟨d, rfl, hr, hsil.fails hfails, by omega⟩

theorem kfrees_own : ∀ (l : List ℕ) (v : Mem), Own P O v → l.Nodup → (∀ y ∈ l, Loose P O v y) →
    wp (forM l (kfree K)) (fun _ v' => Own P O v' ∧ v'.fails = v.fails ∧
      v'.freelist.length = v.freelist.length + l.length) E v
  | [], _, h, _, _ => ⟨h, rfl, rfl⟩
  | y :: l, v, h, hl, hy => by
    obtain ⟨hne, hl⟩ := nodup_cons.1 hl
    have hy0 := hy y mem_cons_self
    rw [forM_cons, wp_bind, wp_kfree (P.usable y hy0.pool)]
    refine wp_mono (kfrees_own l _ (h.put hy0) hl fun z hz => ?_) ?_
    · exact (hy z (mem_cons_of_mem y hz)).put hy0 (ne_of_mem_of_not_mem hz hne)
    · rintro _ v' ⟨hown, hf, hlen⟩
      refine ⟨hown, hf, ?_⟩
      rw [hlen, Mem.put, length_cons, length_cons]
      omega

theorem freerange_own {x y : ℕ} (h : Own P O v) (hl : ∀ z, x ≤ z → z < y → Loose P O v z) :
    wp (freerange K x y) (fun _ v' => Own P O v' ∧ v'.fails = v.fails ∧
      v'.freelist.length = v.freelist.length + (y - x)) E v := by
  have hrun := kfrees_own (E := E) (List.range' x (y - x)) v h nodup_range' fun z hz => by
    have := mem_range'_1.1 hz
    exact hl z this.1 (by omega)
  rwa [length_range'] at hrun

theorem inituvm_own (h : Own P O v) (ha : O.roots a = some d) (h0 : v.pte d 0 = 0)
    (hv : Room 1 v) : wp (inituvm d init) (fun _ v' => Own P O v') E v := by
  unfold inituvm
  refine wp_seq (kalloc_room h hv) ?_
  rintro _ v1 ⟨x, rfl, hw, hown, hx, -⟩
  have hp : present ((v1.fill x init).pte d 0) = false := by
    rw [((hx.kept_fill _).view a d id ha).pte 0 (by decide),
      (SameView.of_word_eq hw d).pte 0 (by decide), h0, present_zero]
  simp only [wp_bind, wp_modify]
  exact wp_mono (mapUser_spec (hx.own_fill hown _) ha (by decide) (hx.fill _) (by decide) (.inr hp))
    fun _ _ hr => hr.1.own

theorem userinit_own (h : Own P O v) (hv : Room 67 v) :
    wp (userinit K init) (fun x v' => x.sz ≤ KERNBASE ∧
      Own P ((O.hold x.kstack).addRoot x.pgdir) v') E v := by
  unfold userinit
  refine wp_seq (kalloc_room h hv) ?_
  rintro _ v1 ⟨k, rfl, -, hown, hk, hv1⟩
  refine wp_seq (setupkvm_room (n := 1) (hown.hold hk) hv1) ?_
  rintro _ v2 ⟨d, rfl, hset, hv2⟩
  have h0 : v2.pte d 0 = 0 := hset.user 0 (by decide)
  have hsz : UInt32.ofNat PGSIZE ≤ KERNBASE := by decide
  exact wp_seq (inituvm_own (a := none) hset.own rfl h0 hv2) fun _ _ h3 => ⟨hsz, h3⟩

theorem idle_owners_snoc (v : Mem) (d : ℕ) (xs : List ℕ) (x : ℕ) :
    (idle v d (xs ++ [x])).owners = { (idle v d xs).owners with
      others := update (idle v d xs).owners.others (.inr (.inr xs.length)) (some x) } := by
  simp only [State.owners, idle, Owners.mk.injEq, true_and]
  refine funext fun b => ?_
  rcases b with p | i | j
  · rfl
  · rfl
  · by_cases hj : j = xs.length
    · simp [hj]
    · have hne : (xs ++ [x])[j]? = xs[j]? := by grind
      simp [hj, hne]

theorem startothers_own : ∀ (m : ℕ) (v : Mem) (xs : List ℕ), Own P (idle v d xs).owners v →
    Room m v → wp (startothers m) (fun ys v' => Own P (idle v' d (xs ++ ys)).owners v' ∧
      v'.fails = []) E v
  | 0, v, xs, h, hv => by
    rw [← append_nil xs] at h
    exact ⟨h, hv.1⟩
  | m + 1, v, xs, h, hv => by
    unfold startothers
    refine wp_seq (kalloc_room h hv) ?_
    rintro _ v1 ⟨x, rfl, -, hown, hx, hv1⟩
    have hsnoc : Own P (idle v1 d (xs ++ [x])).owners v1 := by
      rw [idle_owners_snoc]
      exact (hown.hold hx).among (among_setOther (idle v d xs).owners (.inr (.inr xs.length)) x)
    refine wp_seq (startothers_own m v1 (xs ++ [x]) hsnoc hv1) fun ys v' h' => ?_
    rwa [append_assoc] at h'

theorem own_none (hnodup : v.freelist.Nodup) (hpool : ∀ x ∈ v.freelist, P.mem x) :
    Own P (⟨fun _ => none, fun _ => none⟩ : Owners A B) v := by
  have hpage : ∀ r, (⟨fun _ => none, fun _ => none⟩ : Owners A B).page v r = none := by
    rintro (b | a | ⟨a, i⟩ | ⟨a, n⟩) <;> simp [Owners.page]
  exact ⟨by simp [hpage], by simp [hpage], hnodup, hpool, by simp [hpage]⟩

/-- The first `freerange` gives `setupkvm` and `startothers` the pages below 4 MB. The second finds
the others in no place. -/
theorem main_tidy (hroom : K.kend + 65 + m ≤ 1024) (word : ℕ → ℕ → UInt32) :
    wp (main K m init) (fun r v' => Tidy (Pool.all K)
      ((idle v' r.1 r.2.1).setProc Ptable.initproc (some r.2.2))) E ⟨word, [], [], []⟩ := by
  let low : Pool K := ⟨fun x => K.kend ≤ x ∧ x < 1024, fun _ hx => ⟨hx.1, hx.2.trans (by decide)⟩⟩
  have h0 : Own low (⟨fun _ => none, fun _ => none⟩ : Owners (Option Slot) (Slot ⊕ ℕ ⊕ ℕ))
    ⟨word, [], [], []⟩ := own_none nodup_nil (by simp)
  unfold main
  refine wp_seq (freerange_own h0 fun z hz hz' => ?_) ?_
  · exact ⟨by simp, by rintro (b | a | ⟨a, i⟩ | ⟨a, n⟩) <;> simp [Owners.page], hz, hz'⟩
  rintro _ v1 ⟨h1, hf1, hlen1⟩
  rw [length_nil] at hlen1
  refine wp_seq (setupkvm_room (n := m) h1 ⟨hf1, by omega⟩) ?_
  rintro _ v2 ⟨d, rfl, hset, hv2⟩
  have h2 : Own low (idle v2 d []).owners v2 := by
    refine hset.own.among (f := fun _ => none) (g := id) ⟨fun a d' h => ?_, fun b x h => ?_,
      fun a a' d' h h' _ => ?_, fun _ _ _ _ _ => id⟩
    · cases a <;> simp_all [State.owners, idle, Owners.addRoot]
    · rcases b with p | i | j <;> simp [State.owners, idle] at h
    · cases a <;> cases a' <;> simp_all [State.owners, idle]
  refine wp_seq (startothers_own m v2 [] h2 hv2) ?_
  rintro xs v3 ⟨h3, hf3⟩
  have hown : Own (Pool.all K) (idle v3 d xs).owners v3 :=
    { h3 with
      pool_free := fun y hy => low.usable y (h3.pool_free y hy)
      pool_held := fun r y hr => low.usable y (h3.pool_held r y hr) }
  refine wp_seq (freerange_own hown fun z hz hz' => ⟨fun hf => ?_, fun r hr => ?_, ?_⟩) ?_
  · exact absurd (h3.pool_free z hf).2 (by omega)
  · exact absurd (h3.pool_held r z hr).2 (by omega)
  · exact ⟨by omega, hz'⟩
  rintro _ v4 ⟨h4, hf4, hlen4⟩
  have hv4 : Room 67 v4 := ⟨hf4.trans hf3, by rw [hlen4, PHYSTOP]; omega⟩
  refine wp_seq (userinit_own h4 hv4) fun x v5 h5 => ?_
  exact Tidy.start (s := idle v3 d xs) ⟨hown, by simp [idle]⟩ h5.1 h5.2

/-- From power-on with any contents of memory, however the calls are ordered and wherever `kalloc`
fails, no page gets to two places. -/
theorem boot_run_tidy (hroom : K.kend + 65 + m ≤ 1024) (word : ℕ → ℕ → UInt32) :
    ∃ s, start K m word init = some s ∧ ∀ ls s', Along (step K) Label.Sound s ls →
      run (step K) s ls = some s' → Tidy (Pool.all K) s' := by
  obtain ⟨⟨d, xs, x⟩, v, hrun, htidy⟩ :=
    exists_ok_of_wp (m := main K m init) (main_tidy hroom word)
  refine ⟨_, by rw [start, hrun], fun ls s' hls hs' => ?_⟩
  exact run_invariant (fun _ _ _ ht hl hs => ht.step hl hs) htidy hls hs'

end

/-- There is no pipe after the start. -/
theorem start_pipe {K : Link} {m : ℕ} {word : ℕ → ℕ → UInt32} {init : ℕ → UInt32} {s : State}
    (hs : start K m word init = some s) (i : ℕ) : s.pipe i = none := by
  unfold start at hs
  split at hs <;> cases hs
  rfl

/-- A call of `pipe` returns. -/
theorem step_pipe (K : Link) {s : State} {i : ℕ} (fails : List Bool) (hi : s.pipe i = none) :
    ∃ s', step K s (.pipe i fails) = some s' ∧ ∀ j ≠ i, s'.pipe j = s.pipe j := by
  obtain ⟨r, v, hrun, -⟩ := exists_ok_of_wp (kalloc_same (v := { s.mem with fails := fails }))
  simp only [step, hi, State.exec, hrun]
  cases r with
  | none => exact ⟨_, rfl, fun _ _ => rfl⟩
  | some x => exact ⟨_, rfl, fun j hj => update_of_ne hj ..⟩

/-- A kernel of 512 pages, with four CPUs. Two pipes are made after the start, with a page for the
first of them only. -/
theorem boot_run_tidy_pipes :
    ∃ s s', start smallKernel 3 (fun _ _ => 0) (fun _ => 0) = some s ∧
      run (step smallKernel) s [.pipe 0 [], .pipe 1 [true]] = some s' ∧
      Tidy (Pool.all smallKernel) s' := by
  obtain ⟨s, hs, htidy⟩ := @boot_run_tidy smallKernel 3 (fun _ => 0) (by decide) fun _ _ => 0
  have hpipe := start_pipe hs
  obtain ⟨s1, h1, hp1⟩ := step_pipe smallKernel [] (hpipe 0)
  obtain ⟨s2, h2, -⟩ := step_pipe smallKernel [true] ((hp1 1 (by decide)).trans (hpipe 1))
  have hrun : run (step smallKernel) s [.pipe 0 [], .pipe 1 [true]] = some s2 := by
    rw [run, h1, bind_some, run, h2]
    rfl
  have hsound : Along (step smallKernel) Label.Sound s [.pipe 0 [], .pipe 1 [true]] :=
    ⟨trivial, fun _ _ => ⟨trivial, fun _ _ => trivial⟩⟩
  exact ⟨s, s2, hs, hrun, htidy _ s2 hsound hrun⟩

end Xv6.Vm
