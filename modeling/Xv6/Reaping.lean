import Mathlib.Data.List.Nodup
import Xv6.Ptable

/-!
# Children are reaped

What `fork`, `exit` and `wait` keep of the process table (`Inv`) : a parent is alive, a
process asleep in `wait` has no zombie child, and a process in `fork` has its child for
itself. Beside it, of the history (`Hist`) : processes that are there have different
numbers, and the process a `wait` returned was the zombie child of its caller.
-/

open Transition List

namespace Xv6.Ptable

/-- The process can run, now or once it is woken. -/
def ProcState.Alive (st : ProcState) : Prop :=
  st = .sleeping ∨ st = .runnable ∨ st = .running

/-- What holds of the process table. -/
structure Inv (s : State) : Prop where
  init : (s.proc initproc).state.Alive
  init_parent : (s.proc initproc).parent = none
  parent_ne : ∀ p, (s.proc p).parent ≠ some p
  parent_alive : ∀ q p, (s.proc q).parent = some p → (s.proc p).state.Alive
  orphan : ∀ q, (s.proc q).parent = none →
    q = initproc ∨ (s.proc q).state = .unused ∨ (s.proc q).state = .embryo
  unused : ∀ q, (s.proc q).state = .unused → (s.proc q).parent = none
  pc_alive : ∀ p, (s.proc p).pc ≠ .user → (s.proc p).state.Alive
  forking : ∀ p np, (s.proc p).pc = .forking np → (s.proc p).state ≠ .sleeping ∧
    (s.proc np).state = .embryo ∧ (s.proc np).parent = none ∧ (s.proc np).creator = (s.proc p).uid
  forked : ∀ p np, (s.proc p).pc = .forked np → (s.proc p).state ≠ .sleeping ∧
    (s.proc np).state = .embryo ∧ (s.proc np).parent = some p
  forker : ∀ p q np, (s.proc p).pc = .forking np → (s.proc q).pc = .forking np → p = q
  sleeper : ∀ p, (s.proc p).state = .sleeping → (s.proc p).pc = .waiting →
    (s.proc p).chan = some (.proc p) ∧
      ∀ q, (s.proc q).parent = some p → (s.proc q).state ≠ .zombie

/-- What holds of the history. -/
structure Hist (s : State) : Prop where
  uid_init : (s.proc initproc).uid = 0
  uid_lt : ∀ p, (s.proc p).state ≠ .unused → (s.proc p).uid < s.births
  uid_inj : ∀ p q, (s.proc p).state ≠ .unused → (s.proc q).state ≠ .unused →
    (s.proc p).uid = (s.proc q).uid → p = q
  pid : ∀ p, (s.proc p).state ≠ .unused → (s.proc p).pid = Int32.ofNat ((s.proc p).uid + 1)
  nextpid : s.nextpid = Int32.ofNat (s.births + 1)
  creator : ∀ q p, (s.proc q).parent = some p → (s.proc q).creator = (s.proc p).uid ∨
    p = initproc ∧ (s.proc q).creator ∈ s.exited
  zombie : ∀ p, (s.proc p).state = .zombie → (s.proc p).uid ∈ s.exited
  reaped_lt : ∀ r ∈ s.reaped, r.uid < s.births
  reaped_gone : ∀ r ∈ s.reaped, ∀ p, (s.proc p).state ≠ .unused → (s.proc p).uid ≠ r.uid
  reaped_nodup : (s.reaped.map Reap.uid).Nodup
  reaped_pid : ∀ r ∈ s.reaped, r.pid = Int32.ofNat (r.uid + 1)
  reaped_exited : ∀ r ∈ s.reaped, r.uid ∈ s.exited
  reaped_by : ∀ r ∈ s.reaped, r.waiter = r.creator ∨ r.waiter = 0 ∧ r.creator ∈ s.exited

theorem start_inv : Inv start := by
  constructor <;> grind [ProcState.Alive, Proc.empty, start_init, start_of_ne]

theorem start_hist : Hist start where
  uid_init := rfl
  uid_lt p hp := by grind [Proc.empty, start, start_init, start_of_ne]
  uid_inj p q hp hq _ := by grind [Proc.empty, start_of_ne]
  pid p hp := by
    by_cases h : p = initproc
    · rw [h]
      rfl
    · exact absurd (congrArg Proc.state (start_of_ne h)) hp
  nextpid := rfl
  creator q p hp := by grind [Proc.empty, start_init, start_of_ne]
  zombie p hp := by grind [Proc.empty, start_init, start_of_ne]
  reaped_lt _ := nofun
  reaped_gone _ := nofun
  reaped_nodup := nodup_nil
  reaped_pid _ := nofun
  reaped_exited _ := nofun
  reaped_by _ := nofun

theorem Hist.keep {s s' : State} (h : Hist s)
    (hsame : ∀ q, (s'.proc q).uid = (s.proc q).uid ∧ (s'.proc q).pid = (s.proc q).pid ∧
      (s'.proc q).creator = (s.proc q).creator)
    (hnext : s'.nextpid = s.nextpid) (hbirths : s'.births = s.births)
    (hreaped : s'.reaped = s.reaped)
    (hexited : ∀ u ∈ s.exited, u ∈ s'.exited)
    (hused : ∀ q, (s'.proc q).state ≠ .unused → (s.proc q).state ≠ .unused)
    (hzombie : ∀ q, (s'.proc q).state = .zombie →
      (s.proc q).state = .zombie ∨ (s.proc q).uid ∈ s'.exited)
    (hparent : ∀ q p, (s'.proc q).parent = some p → (s.proc q).parent = some p ∨
      (s.proc q).creator = (s.proc p).uid ∨ p = initproc ∧ (s.proc q).creator ∈ s'.exited) :
    Hist s' := by
  obtain ⟨i1, i2, i3, i4, i5, i6, i7, i8, i9, i10, i11, i12, i13⟩ := h
  constructor
  all_goals simp only [hnext, hbirths, hreaped, hsame]; grind

/-! ## Steps that make and end no process -/

/-- A step that only runs, stops, wakes or kills processes. -/
structure Quiet (s s' : State) : Prop where
  same : ∀ q, s'.proc q = { s.proc q with
    state := (s'.proc q).state, chan := (s'.proc q).chan, killed := (s'.proc q).killed }
  state : ∀ q, (s'.proc q).state = (s.proc q).state ∨
    (s.proc q).state.Alive ∧ (s'.proc q).state.Alive
  asleep : ∀ q, (s'.proc q).state = .sleeping → (s.proc q).pc ≠ .user →
    (s.proc q).state = .sleeping ∧ (s'.proc q).chan = (s.proc q).chan
  history : s'.nextpid = s.nextpid ∧ s'.births = s.births ∧ s'.exited = s.exited ∧
    s'.reaped = s.reaped

section

variable {s s' : State}

theorem Quiet.inv (hq : Quiet s s') (h : Inv s) : Inv s' := by
  have hstate := hq.state
  have hasleep := hq.asleep
  have hpc : ∀ q, (s'.proc q).pc = (s.proc q).pc := fun q => by rw [hq.same q]
  have hpar : ∀ q, (s'.proc q).parent = (s.proc q).parent := fun q => by rw [hq.same q]
  have huid : ∀ q, (s'.proc q).uid = (s.proc q).uid := fun q => by rw [hq.same q]
  have hcr : ∀ q, (s'.proc q).creator = (s.proc q).creator := fun q => by rw [hq.same q]
  obtain ⟨hi, h1, h2, h3, h4, h5, h6, h7, h8, h9, h10⟩ := h
  constructor
  all_goals grind [ProcState.Alive]

theorem Quiet.hist (hq : Quiet s s') (h : Hist s) : Hist s' := by
  obtain ⟨hn, hb, he, hr⟩ := hq.history
  have hstate := hq.state
  refine h.keep (fun q => ?_) hn hb hr (fun u hu => he ▸ hu) (fun q hu => ?_) (fun q hz => ?_)
    fun q p hp => ?_
  · rw [hq.same q]
    exact ⟨rfl, rfl, rfl⟩
  · grind [ProcState.Alive]
  · grind [ProcState.Alive]
  · rw [hq.same q] at hp
    exact .inl hp

theorem quiet_modify {p : Slot} (f : Proc → Proc)
    (hf : f (s.proc p) = { s.proc p with
      state := (f (s.proc p)).state, chan := (f (s.proc p)).chan, killed := (f (s.proc p)).killed })
    (hstate : (f (s.proc p)).state = (s.proc p).state ∨
      (s.proc p).state.Alive ∧ (f (s.proc p)).state.Alive)
    (hasleep : (f (s.proc p)).state = .sleeping → (s.proc p).pc ≠ .user →
      (s.proc p).state = .sleeping ∧ (f (s.proc p)).chan = (s.proc p).chan) :
    Quiet s (s.modify p f) := by
  refine ⟨fun q => ?_, fun q => ?_, fun q => ?_, rfl, rfl, rfl, rfl⟩ <;> rw [modify_apply] <;>
    split_ifs with hq
  · subst hq
    exact hf
  · rfl
  · subst hq
    exact hstate
  · exact .inl rfl
  · subst hq
    exact hasleep
  · exact fun h _ => ⟨h, rfl⟩

theorem quiet_wakeup1 (s : State) (c : Option Chan) : Quiet s (wakeup1 s c) := by
  refine ⟨fun q => ?_, fun q => ?_, fun q => ?_, rfl, rfl, rfl, rfl⟩ <;> rw [wakeup1_proc]
  · grind [ProcState.Alive]
  · grind

theorem quiet_kill (s : State) (pid : Int32) : Quiet s (kill s pid) := by
  unfold kill
  cases killTarget s pid with
  | none => exact ⟨fun _ => rfl, fun _ => .inl rfl, fun _ h _ => ⟨h, rfl⟩, rfl, rfl, rfl, rfl⟩
  | some p =>
    refine quiet_modify _ rfl ?_ ?_
    · grind [ProcState.Alive]
    · grind

end

/-! ## `fork` -/

section

variable {s : State} {p np : Slot}

theorem unusedSlot_eq_some (h : unusedSlot s = some np) : (s.proc np).state = .unused := by
  simpa using find?_some h

theorem alloc_proc (s : State) (p np q : Slot) :
    ((alloc s p np).goto p (.forking np)).proc q =
      if q = p ∧ p ≠ np then { s.proc q with pc := .forking np }
      else if q = np then { s.proc q with
        state := .embryo, pid := s.nextpid, uid := s.births, creator := (s.proc p).uid
        pc := if q = p then .forking np else (s.proc q).pc }
      else s.proc q := by
  unfold alloc State.goto
  rw [modify_apply]
  simp only [modify_apply]
  grind

theorem Inv.alloc (h : Inv s) (hp : s.inUser p) (hnp : (s.proc np).state = .unused) :
    Inv ((alloc s p np).goto p (.forking np)) := by
  obtain ⟨hrun, hpc⟩ := hp
  have hne : p ≠ np := by
    rintro rfl
    simp [hrun] at hnp
  obtain ⟨hi, h1, h2, h3, h4, h5, h6, h7, h8, h9, h10⟩ := h
  constructor
  all_goals simp only [alloc_proc]; grind [ProcState.Alive]

theorem Hist.alloc (h : Hist s) (hi : Inv s) (hp : s.inUser p)
    (hnp : (s.proc np).state = .unused) : Hist ((alloc s p np).goto p (.forking np)) := by
  obtain ⟨hrun, hpc⟩ := hp
  have hne : p ≠ np := by
    rintro rfl
    simp [hrun] at hnp
  have hinit : np ≠ initproc := by
    rintro rfl
    have := hi.init
    simp [hnp, ProcState.Alive] at this
  have hunused := hi.unused
  have halive := hi.parent_alive
  have hhist : ((Ptable.alloc s p np).goto p (.forking np)).nextpid = s.nextpid + 1 ∧
      ((Ptable.alloc s p np).goto p (.forking np)).births = s.births + 1 ∧
      ((Ptable.alloc s p np).goto p (.forking np)).exited = s.exited ∧
      ((Ptable.alloc s p np).goto p (.forking np)).reaped = s.reaped := ⟨rfl, rfl, rfl, rfl⟩
  obtain ⟨i1, i2, i3, i4, i5, i6, i7, i8, i9, i10, i11, i12, i13⟩ := h
  constructor
  case nextpid => rw [hhist.1, hhist.2.1, i5, Int32.ofNat_add (s.births + 1) 1]; rfl
  all_goals simp only [hhist, alloc_proc]; grind [ProcState.Alive]

theorem goto_proc (s : State) (p np q : Slot) (f : Proc → Proc) (pc : Pc) (hne : p ≠ np) :
    ((s.modify np f).goto p pc).proc q =
      if q = p then { s.proc q with pc := pc } else if q = np then f (s.proc q) else s.proc q := by
  unfold State.goto
  rw [modify_apply]
  simp only [modify_apply]
  grind

theorem Inv.forking_ne (h : Inv s) (hrun : (s.proc p).state = .running)
    (hpc : (s.proc p).pc = .forking np) : p ≠ np := by
  rintro rfl
  have := (h.forking p p hpc).2.1
  simp [hrun] at this

theorem Inv.forked_ne (h : Inv s) (hrun : (s.proc p).state = .running)
    (hpc : (s.proc p).pc = .forked np) : p ≠ np := by
  rintro rfl
  have := (h.forked p p hpc).2.1
  simp [hrun] at this

theorem Inv.forkFail (h : Inv s) (hrun : (s.proc p).state = .running)
    (hpc : (s.proc p).pc = .forking np) :
    Inv ((s.modify np fun q => { q with state := .unused }).goto p .user) := by
  have hne := h.forking_ne hrun hpc
  obtain ⟨hi, h1, h2, h3, h4, h5, h6, h7, h8, h9, h10⟩ := h
  constructor
  all_goals simp only [goto_proc _ _ _ _ _ _ hne]; grind [ProcState.Alive]

theorem Hist.forkFail (h : Hist s) (hne : p ≠ np) :
    Hist ((s.modify np fun q => { q with state := .unused }).goto p .user) := by
  refine h.keep (fun q => ?_) rfl rfl rfl (fun _ => id) (fun q => ?_) (fun q => ?_) fun q r => ?_
  all_goals simp only [goto_proc _ _ _ _ _ _ hne]; grind

theorem Inv.forkParent (h : Inv s) (hrun : (s.proc p).state = .running)
    (hpc : (s.proc p).pc = .forking np) :
    Inv ((s.modify np fun q => { q with parent := some p }).goto p (.forked np)) := by
  have hne := h.forking_ne hrun hpc
  obtain ⟨hi, h1, h2, h3, h4, h5, h6, h7, h8, h9, h10⟩ := h
  constructor
  all_goals simp only [goto_proc _ _ _ _ _ _ hne]; grind [ProcState.Alive]

theorem Hist.forkParent (h : Hist s) (hi : Inv s) (hne : p ≠ np)
    (hpc : (s.proc p).pc = .forking np) :
    Hist ((s.modify np fun q => { q with parent := some p }).goto p (.forked np)) := by
  have hcreator := (hi.forking p np hpc).2.2.2
  refine h.keep (fun q => ?_) rfl rfl rfl (fun _ => id) (fun q => ?_) (fun q => ?_) fun q r => ?_
  all_goals simp only [goto_proc _ _ _ _ _ _ hne]; grind

theorem Inv.forkDone (h : Inv s) (hrun : (s.proc p).state = .running)
    (hpc : (s.proc p).pc = .forked np) :
    Inv ((s.modify np fun q => { q with state := .runnable }).goto p .user) := by
  have hne := h.forked_ne hrun hpc
  obtain ⟨hi, h1, h2, h3, h4, h5, h6, h7, h8, h9, h10⟩ := h
  constructor
  all_goals simp only [goto_proc _ _ _ _ _ _ hne]; grind [ProcState.Alive]

theorem Hist.forkDone (h : Hist s) (hi : Inv s) (hne : p ≠ np)
    (hpc : (s.proc p).pc = .forked np) :
    Hist ((s.modify np fun q => { q with state := .runnable }).goto p .user) := by
  have hembryo := (hi.forked p np hpc).2.1
  refine h.keep (fun q => ?_) rfl rfl rfl (fun _ => id) (fun q => ?_) (fun q => ?_) fun q r => ?_
  all_goals simp only [goto_proc _ _ _ _ _ _ hne]; grind

end

/-! ## `exit` -/

section

variable {s : State} {p : Slot}

/-- `exit` keeps the table in order. -/
theorem Inv.exit (h : Inv s) (hp : s.inUser p) (hne : p ≠ initproc) : Inv (exit s p) := by
  obtain ⟨hrun, hpc⟩ := hp
  have hparent : ∃ q, (s.proc p).parent = some q := by
    by_contra hno
    have := h.orphan p (by simpa [Option.eq_none_iff_forall_ne_some] using hno)
    simp [hrun, hne] at this
  obtain ⟨pp, hpp⟩ := hparent
  have hexit := exit_proc hne s
  rw [hpp] at hexit
  -- `p` has no child it is still making, since it is not in `fork`
  have hforked : ∀ r np, (s.proc r).pc = .forked np → (s.proc np).parent ≠ some p := by
    intro r np hr hnp
    have := (h.forked r np hr).2.2
    rw [hnp, Option.some.injEq] at this
    rw [this, hr] at hpc
    simp at hpc
  obtain ⟨hi, h1, h2, h3, h4, h5, h6, h7, h8, h9, h10⟩ := h
  constructor
  case sleeper =>
    intro q hq hw
    simp only [hexit] at hq hw ⊢
    grind
  all_goals simp only [hexit]; grind [ProcState.Alive]

theorem Hist.exit (h : Hist s) (hne : p ≠ initproc) (hrun : (s.proc p).state = .running) :
    Hist (exit s p) := by
  have hexit := exit_proc hne s
  have hhist := exit_history hne s
  have hexited : (Ptable.exit s p).exited = (s.proc p).uid :: s.exited := by rw [hhist]
  have hcreator := h.creator
  refine h.keep (fun q => ?_) (by rw [hhist]) (by rw [hhist]) (by rw [hhist]) (fun u hu => ?_)
    (fun q => ?_) (fun q => ?_) fun q r => ?_
  · rw [hexit]
    exact ⟨rfl, rfl, rfl⟩
  · rw [hexited]
    exact mem_cons_of_mem _ hu
  all_goals simp only [hexit, hexited]; grind

end

/-! ## `wait` -/

section

variable {s : State} {p q : Slot}

theorem scan_eq_zombie (h : scan s p = .zombie q) :
    (s.proc q).parent = some p ∧ (s.proc q).state = .zombie := by
  unfold scan at h
  split at h
  · rename_i r hr
    cases h
    simpa using find?_some hr
  · split_ifs at h

theorem scan_eq_fail (h : scan s p = .fail) :
    (∀ q, (s.proc q).parent ≠ some p) ∨ (s.proc p).killed = true := by
  unfold scan at h
  split at h
  · cases h
  · split_ifs at h with hc
    exact hc

theorem scan_eq_alive (h : scan s p = .alive) (q : Slot) (hq : (s.proc q).parent = some p) :
    (s.proc q).state ≠ .zombie := by
  unfold scan at h
  split at h
  · cases h
  · rename_i hnone
    have := find?_eq_none.1 hnone q (mem_finRange q)
    simpa [hq] using this

theorem reap_proc (s : State) (p q r : Slot) (hne : p ≠ q) :
    ((reap s p q).goto p .user).proc r =
      if r = p then { s.proc r with pc := .user }
      else if r = q then
        { s.proc r with state := .unused, pid := 0, parent := none, killed := false }
      else s.proc r := by
  unfold reap State.goto
  rw [modify_apply]
  simp only [modify_apply]
  grind

theorem Inv.reap (h : Inv s) (hrun : (s.proc p).state = .running)
    (hq : (s.proc q).state = .zombie) : Inv ((reap s p q).goto p .user) := by
  have hne : p ≠ q := by
    rintro rfl
    simp [hrun] at hq
  obtain ⟨hi, h1, h2, h3, h4, h5, h6, h7, h8, h9, h10⟩ := h
  constructor
  all_goals simp only [reap_proc _ _ _ _ hne]; grind [ProcState.Alive]

theorem Hist.reap (h : Hist s) (hi : Inv s) (hrun : (s.proc p).state = .running)
    (hpar : (s.proc q).parent = some p) (hq : (s.proc q).state = .zombie) :
    Hist ((reap s p q).goto p .user) := by
  have hne : p ≠ q := by
    rintro rfl
    simp [hrun] at hq
  have hinit : q ≠ initproc := by
    rintro rfl
    have := hi.init
    simp [hq, ProcState.Alive] at this
  have halive := hi.parent_alive
  have hby := h.creator q p hpar
  have hhist : ((Ptable.reap s p q).goto p .user).nextpid = s.nextpid ∧
      ((Ptable.reap s p q).goto p .user).births = s.births ∧
      ((Ptable.reap s p q).goto p .user).exited = s.exited ∧
      ((Ptable.reap s p q).goto p .user).reaped =
        ⟨(s.proc p).uid, (s.proc q).uid, (s.proc q).creator, (s.proc q).pid⟩ :: s.reaped :=
    ⟨rfl, rfl, rfl, rfl⟩
  obtain ⟨i1, i2, i3, i4, i5, i6, i7, i8, i9, i10, i11, i12, i13⟩ := h
  constructor
  case reaped_nodup =>
    rw [hhist.2.2.2, map_cons, nodup_cons]
    refine ⟨fun hmem => ?_, i10⟩
    obtain ⟨r, hr, hru⟩ := mem_map.1 hmem
    exact i9 r hr q (by simp [hq]) hru.symm
  all_goals simp only [hhist, reap_proc _ _ _ _ hne, mem_cons]; grind [ProcState.Alive]

/-- The caller sleeps, since no child is a zombie. -/
theorem Inv.sleep (h : Inv s) (hrun : (s.proc p).state = .running)
    (halive : ∀ q, (s.proc q).parent = some p → (s.proc q).state ≠ .zombie) :
    Inv (s.modify p fun q =>
      { q with state := .sleeping, chan := some (.proc p), pc := .waiting }) := by
  obtain ⟨hi, h1, h2, h3, h4, h5, h6, h7, h8, h9, h10⟩ := h
  constructor
  all_goals simp only [modify_apply]; grind [ProcState.Alive]

theorem Inv.leave (h : Inv s) (hrun : (s.proc p).state = .running) : Inv (s.goto p .user) := by
  obtain ⟨hi, h1, h2, h3, h4, h5, h6, h7, h8, h9, h10⟩ := h
  constructor
  all_goals simp only [State.goto, modify_apply]; grind [ProcState.Alive]

theorem Hist.caller (h : Hist s) {f : Proc → Proc} (hrun : (s.proc p).state = .running)
    (hf : f (s.proc p) = { s.proc p with
      state := (f (s.proc p)).state, chan := (f (s.proc p)).chan, pc := (f (s.proc p)).pc })
    (hstate : (f (s.proc p)).state ≠ .zombie) : Hist (s.modify p f) := by
  refine h.keep (fun q => ?_) rfl rfl rfl (fun _ => id) (fun q => ?_) (fun q => ?_) fun q r => ?_
  all_goals simp only [modify_apply]; grind

/-- `wait` keeps the table and the history in order. -/
theorem wait_inv (h : Inv s) (hh : Hist s) (hrun : (s.proc p).state = .running) :
    Inv (wait s p) ∧ Hist (wait s p) := by
  unfold wait
  split
  · rename_i q hq
    obtain ⟨hpar, hz⟩ := scan_eq_zombie hq
    exact ⟨h.reap hrun hz, hh.reap h hrun hpar hz⟩
  · exact ⟨h.leave hrun, hh.caller hrun rfl (by simp [hrun])⟩
  · rename_i hq
    exact ⟨h.sleep hrun (scan_eq_alive hq), hh.caller hrun rfl (by simp)⟩

end

/-! ## Runs -/

/-- Every step keeps them in order. -/
theorem step_inv {s s' : State} {a : Label} (h : Inv s ∧ Hist s) (hs : step s a = some s') :
    Inv s' ∧ Hist s' := by
  obtain ⟨h, hh⟩ := h
  have quiet : ∀ {t}, Quiet s t → Inv t ∧ Hist t := fun hq => ⟨hq.inv h, hq.hist hh⟩
  cases a with
  | dispatch | yield =>
    obtain ⟨hc, rfl⟩ := enabled hs
    exact quiet (quiet_modify _ rfl (.inr ⟨by simp [hc, ProcState.Alive],
      by simp [ProcState.Alive]⟩) (by simp))
  | fault p =>
    obtain ⟨hc, rfl⟩ := enabled hs
    exact quiet (quiet_modify _ rfl (.inl rfl) (by simp [hc.1]))
  | sleep p n =>
    obtain ⟨hc, rfl⟩ := enabled hs
    exact quiet (quiet_modify _ rfl (.inr ⟨by simp [hc.1, ProcState.Alive],
      by simp [ProcState.Alive]⟩) (by simp [hc.2]))
  | wakeup n =>
    cases hs
    exact quiet (quiet_wakeup1 s _)
  | kill p pid =>
    obtain ⟨-, rfl⟩ := enabled hs
    exact quiet (quiet_kill s pid)
  | fork p =>
    simp only [step, Option.ite_none_right_eq_some] at hs
    obtain ⟨hc, hs⟩ := hs
    split at hs
    · cases hs
      exact ⟨h, hh⟩
    · rename_i np hnp
      cases hs
      have hnp := unusedSlot_eq_some hnp
      exact ⟨h.alloc hc hnp, hh.alloc h hc hnp⟩
  | forkFail p =>
    simp only [step] at hs
    split at hs
    · rename_i np hrun hpc
      cases hs
      exact ⟨h.forkFail hrun hpc, hh.forkFail (h.forking_ne hrun hpc)⟩
    · cases hs
  | forkParent p =>
    simp only [step] at hs
    split at hs
    · rename_i np hrun hpc
      cases hs
      exact ⟨h.forkParent hrun hpc, hh.forkParent h (h.forking_ne hrun hpc) hpc⟩
    · cases hs
  | forkDone p =>
    simp only [step] at hs
    split at hs
    · rename_i np hrun hpc
      cases hs
      exact ⟨h.forkDone hrun hpc, hh.forkDone h (h.forked_ne hrun hpc) hpc⟩
    · cases hs
  | exit p =>
    obtain ⟨⟨hc, hne⟩, rfl⟩ := enabled hs
    exact ⟨h.exit hc hne, hh.exit hne hc.1⟩
  | wait p =>
    obtain ⟨hc, rfl⟩ := enabled hs
    exact wait_inv h hh hc.1

/-- They are in order in every run. -/
theorem run_inv {labels : List Label} {s : State} (h : run step start labels = some s) :
    Inv s ∧ Hist s :=
  run_invariant (C := fun _ _ => True) (fun _ _ _ hi _ hs => step_inv hi hs)
    ⟨start_inv, start_hist⟩ (along_true _ _) h

/-! ## The results -/

/-- Every exited child is reaped once, by its creator or by init. -/
structure ChildrenReaped (s : State) : Prop where
  /-- A process that is there has a parent that is alive. -/
  parent : ∀ p, p ≠ initproc → (s.proc p).state ≠ .unused → (s.proc p).state ≠ .embryo →
    ∃ q, (s.proc p).parent = some q ∧ (s.proc q).state ≠ .unused ∧ (s.proc q).state ≠ .zombie
  /-- What a `wait` would return now is a zombie child of the caller, which created it or is
  init after the creator exited. -/
  returns : ∀ p q, scan s p = .zombie q → (s.proc q).state = .zombie ∧
    (s.proc q).parent = some p ∧ ((s.proc q).creator = (s.proc p).uid ∨
      p = initproc ∧ (s.proc q).creator ∈ s.exited)
  /-- So were the processes returned so far, which had exited. -/
  returned : ∀ r ∈ s.reaped, r.uid ∈ s.exited ∧
    (r.waiter = r.creator ∨ r.waiter = (s.proc initproc).uid ∧ r.creator ∈ s.exited)
  /-- Each process was returned by one `wait`. -/
  once : (s.reaped.map Reap.uid).Nodup
  /-- So was each process ID, as long as no process ID was given out twice. -/
  once_pid : s.births ≤ 2 ^ 32 → (s.reaped.map Reap.pid).Nodup
  /-- Nobody sleeps in `wait` with a zombie child. -/
  asleep : ∀ p, (s.proc p).state = .sleeping → (s.proc p).pc = .waiting →
    ∀ q, (s.proc q).parent = some p → (s.proc q).state ≠ .zombie
  /-- `wait` fails only without children or when killed. -/
  fails : ∀ p, scan s p = .fail →
    (∀ q, (s.proc q).parent ≠ some p) ∨ (s.proc p).killed = true

theorem ofNat_succ_inj {m n : ℕ} (hm : m < 2 ^ 32) (hn : n < 2 ^ 32)
    (h : Int32.ofNat (m + 1) = Int32.ofNat (n + 1)) : m = n := by
  have h' := congrArg (fun i : Int32 => i.toBitVec.toNat) h
  simp only [Int32.ofNat, Int32.toBitVec, BitVec.toNat_ofNat] at h'
  omega

/-- In every run children are reaped once. -/
theorem children_reaped_once (labels : List Label) (s : State)
    (h : run step start labels = some s) : ChildrenReaped s := by
  obtain ⟨hi, hh⟩ := run_inv h
  refine ⟨fun p hp hu he => ?_, fun p q hq => ?_, fun r hr => ?_, hh.reaped_nodup, fun hb => ?_,
    fun p hs hw => (hi.sleeper p hs hw).2, fun p => scan_eq_fail⟩
  · cases hpar : (s.proc p).parent with
    | none =>
      rcases hi.orphan p hpar with h | h | h
      · exact absurd h hp
      · exact absurd h hu
      · exact absurd h he
    | some q =>
      have halive := hi.parent_alive p q hpar
      refine ⟨q, rfl, ?_, ?_⟩ <;> rcases halive with h | h | h <;> simp [h]
  · obtain ⟨hpar, hz⟩ := scan_eq_zombie hq
    exact ⟨hz, hpar, hh.creator q p hpar⟩
  · rw [hh.uid_init]
    exact ⟨hh.reaped_exited r hr, hh.reaped_by r hr⟩
  · have hpid : s.reaped.map Reap.pid =
        (s.reaped.map Reap.uid).map fun u => Int32.ofNat (u + 1) := by
      rw [map_map]
      exact map_congr_left hh.reaped_pid
    rw [hpid]
    refine (nodup_map_iff_inj_on hh.reaped_nodup).2 fun u hu v hv huv => ?_
    obtain ⟨r, hr, rfl⟩ := mem_map.1 hu
    obtain ⟨t, ht, rfl⟩ := mem_map.1 hv
    exact ofNat_succ_inj ((hh.reaped_lt r hr).trans_le hb) ((hh.reaped_lt t ht).trans_le hb) huv

/-- Init runs, its child `c` is in slot 1, and the other slots are empty. -/
def family (c : Proc) (init : Pc) (h : Int32 × ℕ × List ℕ × List Reap) : State where
  proc q := if q = initproc then ⟨.running, 1, none, none, false, init, 0, 0⟩
    else if q = 1 then c else Proc.empty
  nextpid := h.1
  births := h.2.1
  exited := h.2.2.1
  reaped := h.2.2.2

theorem family_modify (c : Proc) (init : Pc) (h : Int32 × ℕ × List ℕ × List Reap)
    (f : Proc → Proc) :
    (family c init h).modify 1 f = family (f c) init h := by
  simp only [family, State.modify]
  congr 1
  funext q
  by_cases hq : q = 1
  · subst hq
    simp [initproc]
  · simp [hq]

theorem family_goto (c : Proc) (init pc : Pc) (h : Int32 × ℕ × List ℕ × List Reap) :
    (family c init h).goto initproc pc = family c pc h := by
  simp only [family, State.goto, State.modify]
  congr 1
  funext q
  by_cases hq : q = initproc
  · subst hq
    simp
  · simp [hq]

theorem family_one (c : Proc) (init : Pc) (h : Int32 × ℕ × List ℕ × List Reap) :
    (family c init h).proc 1 = c := rfl

/-- Init forks a child, which exits and is reaped. -/
def cycle : List Label :=
  [.fork initproc, .forkParent initproc, .forkDone initproc, .dispatch 1, .exit 1, .wait initproc]

/-- A slot whose last process was number `u`. -/
def idle (u : ℕ) : Proc := { Proc.empty with uid := u }

theorem find_one (f : Slot → Bool) (h0 : f 0 = false) (h1 : f 1 = true) :
    (List.finRange NPROC).find? f = some 1 := by
  have : List.finRange NPROC = 0 :: 1 :: (List.finRange NPROC).drop 2 := rfl
  rw [this, find?_cons_of_neg (by simp [h0]), find?_cons_of_pos h1]

/-- Init forks a child. -/
def forkChild : List Label :=
  [.fork initproc, .forkParent initproc, .forkDone initproc]

theorem run_forkChild (u : ℕ) (n : Int32) (b : ℕ) (e : List ℕ) (r : List Reap) :
    run step (family (idle u) .user (n, b, e, r)) forkChild =
      some (family ⟨.runnable, n, some initproc, none, false, .user, b, 0⟩ .user
        (n + 1, b + 1, e, r)) := by
  have hfork : step (family (idle u) .user (n, b, e, r)) (.fork initproc) =
      some (family ⟨.embryo, n, none, none, false, .user, b, 0⟩ (.forking 1)
        (n + 1, b + 1, e, r)) := by
    have hslot : unusedSlot (family (idle u) .user (n, b, e, r)) = some 1 := find_one _ rfl rfl
    simp only [step, hslot]
    rw [if_pos ⟨rfl, rfl⟩]
    refine congrArg some ?_
    show ((alloc _ _ _).goto _ _) = _
    unfold alloc
    rw [family_modify]
    exact family_goto _ _ _ (n + 1, b + 1, e, r)
  have hparent : step (family ⟨.embryo, n, none, none, false, .user, b, 0⟩ (.forking 1)
      (n + 1, b + 1, e, r)) (.forkParent initproc) =
      some (family ⟨.embryo, n, some initproc, none, false, .user, b, 0⟩ (.forked 1)
        (n + 1, b + 1, e, r)) := by
    refine congrArg some ?_
    rw [family_modify]
    exact family_goto _ _ _ _
  have hdone : step (family ⟨.embryo, n, some initproc, none, false, .user, b, 0⟩ (.forked 1)
        (n + 1, b + 1, e, r)) (.forkDone initproc) =
      some (family ⟨.runnable, n, some initproc, none, false, .user, b, 0⟩ .user
        (n + 1, b + 1, e, r)) := by
    refine congrArg some ?_
    rw [family_modify]
    exact family_goto _ _ _ _
  simp only [forkChild, run, hfork, hparent, hdone, Option.bind_some]

theorem run_cycle (u : ℕ) (n : Int32) (b : ℕ) (e : List ℕ) (r : List Reap) :
    run step (family (idle u) .user (n, b, e, r)) cycle =
      some (family (idle b) .user (n + 1, b + 1, b :: e, ⟨0, b, 0, n⟩ :: r)) := by
  have hdisp : step (family ⟨.runnable, n, some initproc, none, false, .user, b, 0⟩ .user
        (n + 1, b + 1, e, r)) (.dispatch 1) =
      some (family ⟨.running, n, some initproc, none, false, .user, b, 0⟩ .user
        (n + 1, b + 1, e, r)) := by
    simp only [step]
    rw [family_one, if_pos rfl, family_modify]
  have hexit : step (family ⟨.running, n, some initproc, none, false, .user, b, 0⟩ .user
      (n + 1, b + 1, e, r)) (.exit 1) =
      some (family ⟨.zombie, n, some initproc, none, false, .user, b, 0⟩ .user
        (n + 1, b + 1, b :: e, r)) := by
    simp only [step]
    rw [if_pos ⟨⟨rfl, rfl⟩, by decide⟩, exit_history (by decide)]
    refine congrArg some ?_
    simp only [family]
    congr 1
    funext q
    rw [exit_proc (by decide)]
    by_cases hq : q = 1
    · subst hq
      simp [initproc]
    · by_cases hq0 : q = initproc
      · subst hq0
        simp [hq]
      · simp [hq, hq0, Proc.empty]
  have hwait : step (family ⟨.zombie, n, some initproc, none, false, .user, b, 0⟩ .user
        (n + 1, b + 1, b :: e, r)) (.wait initproc) =
      some (family (idle b) .user (n + 1, b + 1, b :: e, ⟨0, b, 0, n⟩ :: r)) := by
    have hscan : scan (family ⟨.zombie, n, some initproc, none, false, .user, b, 0⟩ .user
        (n + 1, b + 1, b :: e, r)) initproc = .zombie 1 := by
      unfold scan
      rw [find_one _ rfl rfl]
    simp only [step, wait, hscan]
    rw [if_pos ⟨rfl, .inl rfl⟩]
    refine congrArg some ?_
    unfold reap
    rw [family_modify]
    exact family_goto _ _ _ (n + 1, b + 1, b :: e, ⟨0, b, 0, n⟩ :: r)
  rw [show cycle = forkChild ++ [.dispatch 1, .exit 1, .wait initproc] from rfl, run_append,
    run_forkChild, Option.bind_some]
  simp only [run, hdisp, hexit, hwait, Option.bind_some]

theorem run_start (labels : List Label) : run step start (.dispatch initproc :: labels) =
    run step (family (idle 0) .user (2, 1, [], [])) labels := by
  have h : step start (.dispatch initproc) = some (family (idle 0) .user (2, 1, [], [])) := by
    simp only [step]
    rw [start_init, if_pos rfl]
    refine congrArg some ?_
    simp only [State.modify, family]
    congr 1
    funext q
    by_cases hq : q = initproc
    · subst hq
      simp [start_init, Proc.empty]
    · simp [hq, start_of_ne hq, idle, Proc.empty]
  simp only [run, h, Option.bind_some]

/-- A child made by init exits and is reaped. -/
theorem children_reaped_once_cycle :
    ∃ s, run step start (.dispatch initproc :: cycle) = some s ∧ s.reaped.map Reap.pid = [2] ∧
      ChildrenReaped s := by
  have h := (run_start cycle).trans (run_cycle 0 2 1 [] [])
  exact ⟨_, h, rfl, children_reaped_once _ _ h⟩

/-- After `k` more children the next ID is higher by `k`. -/
theorem run_cycles (k : ℕ) : ∀ (u : ℕ) (n : Int32) (b : ℕ) (e : List ℕ) (r : List Reap),
    ∃ u' b' e' r', run step (family (idle u) .user (n, b, e, r)) (List.replicate k cycle).flatten =
      some (family (idle u') .user (n + Int32.ofNat k, b', e', r')) ∧ r ⊆ r' := by
  induction k with
  | zero =>
    intro u n b e r
    refine ⟨u, b, e, r, ?_, List.Subset.refl r⟩
    rw [show Int32.ofNat 0 = 0 from rfl, Int32.add_zero]
    rfl
  | succ k ih =>
    intro u n b e r
    obtain ⟨u', b', e', r', hrun, hsub⟩ := ih b (n + 1) (b + 1) (b :: e) (⟨0, b, 0, n⟩ :: r)
    refine ⟨u', b', e', r', ?_, fun x hx => hsub (mem_cons_of_mem _ hx)⟩
    rw [replicate_succ, flatten_cons, run_append, run_cycle, Option.bind_some, hrun,
      Nat.add_comm k 1, Int32.ofNat_add, ← Int32.add_assoc]
    rfl

/-- `nextpid` wraps around : after `2 ^ 32` children `wait` returns a process ID again. -/
theorem pid_returned_twice :
    ∃ labels s, run step start labels = some s ∧ ¬ (s.reaped.map Reap.pid).Nodup := by
  obtain ⟨u, b, e, r, hrun, hsub⟩ := run_cycles (2 ^ 32 - 1) 1 3 2 [1] [⟨0, 1, 0, 2⟩]
  refine ⟨.dispatch initproc :: (cycle ++ ((List.replicate (2 ^ 32 - 1) cycle).flatten ++ cycle)),
    family (idle b) .user (3, b + 1, b :: e, ⟨0, b, 0, 2⟩ :: r), ?_, ?_⟩
  · rw [run_start, run_append, run_cycle, Option.bind_some, run_append]
    have hwrap : (3 : Int32) + Int32.ofNat (2 ^ 32 - 1) = 2 := by decide
    rw [hwrap] at hrun
    show (run step (family (idle 1) .user (3, 2, [1], [⟨0, 1, 0, 2⟩])) _).bind _ = _
    rw [hrun, Option.bind_some, run_cycle]
    rfl
  · intro hnodup
    have hmem : (⟨0, 1, 0, 2⟩ : Reap) ∈ r := hsub (mem_singleton_self _)
    have hnot : (2 : Int32) ∉ r.map Reap.pid := (nodup_cons.1 hnodup).1
    exact hnot (mem_map.2 ⟨_, hmem, rfl⟩)

end Xv6.Ptable
