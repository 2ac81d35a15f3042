import Xv6.Lib.Transition
import Xv6.SchedThread

/-!
# A process runs on at most one CPU

The steps of the scheduler keep the CPUs in order, so `Inv` holds in every run (`run_inv`).
`runs_on_one_cpu` is read off from it.
-/

open Option

namespace Xv6.Sched

open Ptable (Slot ProcState Chan)

open Transition

variable {C : Type*} [DecidableEq C]

/-! ## Steps of the scheduler -/

section

variable {strict : Prop} {s s' : State C} {c : C} {p q : Slot} {H : Finset Lock}

theorem SchedPc.card_held_le (pc : SchedPc) : pc.held.card ≤ pc.ncli := by
  cases pc <;> simp [SchedPc.held, SchedPc.ncli]

/-- What the scheduler of CPU `c` holds. -/
theorem CpuOk.sched (hc : CpuOk strict s c H) (hon : (s.cpu c).on = none)
    (hcode : (s.cpu c).code = []) :
    (s.cpu c).ncli = (s.cpu c).pc.ncli ∧ H = (s.cpu c).pc.held ∧ Serves s c (s.cpu c).pc := by
  have hcheck := hc.check
  have hseat := hc.seat
  rw [code_off hon, hcode, ctx_off hon] at hcheck
  simp only [Seat, hon] at hseat
  simp only [Check, State.fin, hon] at hcheck
  exact ⟨hcheck.2.1, hcheck.2.2, hseat.2⟩

/-- CPU `c` in its scheduler, at `pc`, is in order. -/
theorem CpuOk.of_sched (hon : (s.cpu c).on = none) (hcode : (s.cpu c).code = [])
    (hholds : ∀ l, l ∈ (s.cpu c).pc.held ↔ s.holder l = some c)
    (hcli : (s.cpu c).interrupts = true → (s.cpu c).ncli = 0)
    (hn : (s.cpu c).ncli = (s.cpu c).pc.ncli) (hserves : Serves s c (s.cpu c).pc) :
    CpuOk strict s c (s.cpu c).pc.held := by
  refine ⟨hholds, hcli, ?_, ?_, ?_⟩
  · simp only [Seat, hon, hcode]
    exact ⟨fun hne => absurd rfl hne, hserves⟩
  · rw [ctx_off hon, hn]
    exact ⟨SchedPc.card_held_le _, .inl ⟨rfl, rfl⟩⟩
  · rw [ctx_off hon, code_off hon, hcode]
    exact ⟨rfl, by simp [State.fin, hon, hn]⟩

/-- A step of the scheduler of CPU `c` to `y` that changes neither its current process nor a
slot. -/
theorem Inv.sched_move (h : Inv strict s) (hon : (s.cpu c).on = none) {y : Cpu}
    (hcpu : s'.cpu = Function.update s.cpu c y) (hproc : s'.proc = s.proc)
    (hlock : ∀ l c', c' ≠ c → (s'.holder l = some c' ↔ s.holder l = some c'))
    (hy : y.proc = (s.cpu c).proc ∧ y.on = none ∧ y.code = [])
    (hholds : ∀ l, l ∈ y.pc.held ↔ s'.holder l = some c)
    (hcli : y.interrupts = true → y.ncli = 0) (hn : y.ncli = y.pc.ncli)
    (hserves : Serves s' c y.pc) : Inv strict s' := by
  have hself : s'.cpu c = y := by simp [hcpu]
  have hsame : ∀ q, Same s s' q := fun q => by simp [Same, hproc]
  refine h.act c (fun c' hc' => by simp [hcpu, hc']) hlock ⟨y.pc.held, ?_⟩ (by rw [hself, hy.1])
    (fun q _ => .inl (hsame q)) (fun p hp =>
      .inr ((h.parked p (h.off_cpu_of_sched hon hp)).frame (hsame p)))
    (h.forks.frame (by simp [hproc]) (by simp [hproc]) fun q _ => hsame q)
  · have hok : CpuOk strict s' c (s'.cpu c).pc.held :=
      CpuOk.of_sched (by rw [hself, hy.2.1]) (by rw [hself, hy.2.2]) (by rwa [hself])
        (by rwa [hself]) (by rwa [hself]) (by rwa [hself])
    rwa [hself] at hok

/-- The scheduler of CPU `c` changes its current process. -/
theorem Inv.sched_seat (h : Inv strict s) (hon : (s.cpu c).on = none) {y : Cpu}
    (hcpu : s'.cpu = Function.update s.cpu c y) (hproc : s'.proc = s.proc)
    (hholder : s'.holder = s.holder) (hy : y.on = none ∧ y.code = [])
    (hold : ∀ p, (s.cpu c).proc = some p → (s.proc p).state ≠ .running)
    (hnew : ∀ p, y.proc = some p → ∀ c', c' ≠ c → (s.cpu c').proc ≠ some p)
    (hholds : ∀ l, l ∈ y.pc.held ↔ s'.holder l = some c)
    (hcli : y.interrupts = true → y.ncli = 0) (hn : y.ncli = y.pc.ncli)
    (hserves : Serves s' c y.pc) : Inv strict s' := by
  have hself : s'.cpu c = y := by simp [hcpu]
  have hother : ∀ c', c' ≠ c → s'.cpu c' = s.cpu c' := fun c' hc' => by simp [hcpu, hc']
  have hsame : ∀ q, Same s s' q := fun q => by simp [Same, hproc]
  refine ⟨fun c' => ?_, fun c1 c2 p h1 h2 => ?_, fun p hp => ?_, fun p hp => ?_,
    h.forks.frame (by simp [hproc]) (by simp [hproc]) fun q _ => hsame q⟩
  · by_cases hc : c' = c
    · subst hc
      exact ⟨_, CpuOk.of_sched (by rw [hself, hy.1]) (by rw [hself, hy.2]) (by rwa [hself])
        (by rwa [hself]) (by rwa [hself]) (by rwa [hself])⟩
    · obtain ⟨H, hH⟩ := h.cpu c'
      exact ⟨H, hH.frame (hother c' hc) (by simp [hholder]) fun q _ => hsame q⟩
  · by_cases hc1 : c1 = c <;> by_cases hc2 : c2 = c
    · rw [hc1, hc2]
    · rw [hc1, hself] at h1
      exact absurd (hother c2 hc2 ▸ h2) (hnew p h1 c2 hc2)
    · rw [hc2, hself] at h2
      exact absurd (hother c1 hc1 ▸ h1) (hnew p h2 c1 hc1)
    · exact h.inj c1 c2 p (hother c1 hc1 ▸ h1) (hother c2 hc2 ▸ h2)
  · rw [hproc] at hp
    obtain ⟨c', hc'⟩ := h.running p hp
    have hne : c' ≠ c := by
      rintro rfl
      exact hold p hc' hp
    exact ⟨c', by rw [hother c' hne, hc']⟩
  · refine (h.parked p fun c' hc' => ?_).frame (hsame p)
    have hne : c' ≠ c := by
      rintro rfl
      simp [hon] at hc'
    exact hp c' (by rw [hother c' hne, hc'])

/-- The scheduler marks the process it has picked as running. -/
theorem Inv.sched_run (h : Inv strict s) (hon : (s.cpu c).on = none)
    (hcode : (s.cpu c).code = []) (hpc : (s.cpu c).pc = .run p) :
    Inv strict ((s.modProc p fun x => { x with state := .running }).modCpu c fun x =>
      { x with pc := .save p }) := by
  obtain ⟨H, hc⟩ := h.cpu c
  obtain ⟨hn, hH, hproc, hst⟩ := hpc ▸ hc.sched hon hcode
  have hpark := h.parked p (h.off_cpu_of_sched hon hproc)
  refine h.current hproc rfl rfl rfl hproc rfl id (by simp [hst])
    ⟨_, CpuOk.of_sched (by simpa using hon) (by simpa using hcode) ?_ (by simpa using hc.cli)
      (by simpa [SchedPc.ncli] using hn) ?_⟩
    (.inr ⟨fun _ => hpark.1 (.inl hst), fun hz => by cases hz⟩)
  · simpa [hH, SchedPc.held] using hc.holds
  · simpa [Serves] using hproc

/-- The scheduler switches to the process it has picked. -/
theorem Inv.sched_load (h : Inv strict s) (hon : (s.cpu c).on = none)
    (hcode : (s.cpu c).code = []) (hpc : (s.cpu c).pc = .load p) :
    Inv strict ((s.modProc p fun x => { x with saved := false }).modCpu c fun x =>
      { x with on := some p, pc := .back }) := by
  obtain ⟨H, hc⟩ := h.cpu c
  obtain ⟨hn, hH, hproc, hst⟩ := hpc ▸ hc.sched hon hcode
  have hpark := h.parked p (h.off_cpu_of_sched hon hproc)
  obtain ⟨-, hcheck⟩ := hpark.1 (.inr (.inr hst))
  refine h.current hproc rfl rfl rfl hproc rfl id (by simp [hst]) ⟨{.ptable}, ?_⟩ (.inl rfl)
  refine ⟨by simpa [hH, SchedPc.held] using hc.holds, by simpa using hc.cli, ?_, ?_, ?_⟩
  · simpa [Seat] using ⟨hproc, hcode⟩
  · simp only [State.ctx, modCpu_self, modProc_cpu, modCpu_proc, modProc_self, hn, hst]
    exact ⟨le_rfl, .inl ⟨rfl, rfl⟩⟩
  · rw [fin_on (p := p) (by simp), ctx_on (p := p) (by simp), code_on (p := p) (by simp)]
    simpa [hn, hst, SchedPc.ncli, Ctx.resumed] using hcheck

theorem Inv.schedStep (h : Inv strict s) (hon : (s.cpu c).on = none)
    (hcode : (s.cpu c).code = []) (hs : schedStep s c = some s') : Inv strict s' := by
  obtain ⟨H, hc⟩ := h.cpu c
  obtain ⟨hn, rfl, hserves⟩ := hc.sched hon hcode
  have hholds := hc.holds
  have hcli := hc.cli
  unfold Sched.schedStep at hs
  generalize hpc : (s.cpu c).pc = pc at hs hn hserves hholds
  cases pc with
  | top =>
    cases hs
    exact h.sched_move hon rfl rfl (fun _ _ _ => Iff.rfl) ⟨rfl, hon, hcode⟩ hholds
      (fun _ => hn) hn (by simpa [Serves] using hserves)
  | pushcli | uvm =>
    cases hs
    exact h.sched_move hon rfl rfl (fun _ _ _ => Iff.rfl) ⟨rfl, hon, hcode⟩ hholds
      (fun hi => by cases hi) (congrArg (· + 1) hn) (by simpa [Serves, Cpu.pushcli] using hserves)
  | lock =>
    obtain ⟨s1, hs1, rfl⟩ := map_eq_some_iff.1 hs
    obtain ⟨hfree, rfl⟩ := enabled hs1
    refine h.sched_move hon rfl rfl (fun l c' hc' => ?_) ⟨rfl, hon, hcode⟩ (fun l => ?_) hcli hn
      (by simpa [Serves] using hserves)
    · by_cases hl : l = .ptable <;> simp [State.modCpu, hl, hfree, Ne.symm hc']
    · rcases eq_or_ne l .ptable with rfl | hl
      · simp [State.modCpu, SchedPc.held]
      · simpa [State.modCpu, SchedPc.held, hl] using hholds l
  | loop | save =>
    cases hs
    exact h.sched_move hon rfl rfl (fun _ _ _ => Iff.rfl) ⟨rfl, hon, hcode⟩ hholds hcli hn
      (by simpa [Serves] using hserves)
  | uvmPop p =>
    obtain ⟨y, hy, rfl⟩ := map_eq_some_iff.1 hs
    obtain ⟨h0, rfl⟩ := popcli_eq_some hy
    refine h.sched_move hon rfl rfl (fun _ _ _ => Iff.rfl) ⟨rfl, hon, hcode⟩ hholds
      (fun hi => ?_) (congrArg (· - 1) hn) (by simpa [Serves] using hserves)
    simp [hn, SchedPc.ncli] at hi
  | run p =>
    cases hs
    exact h.sched_run hon hcode hpc
  | load p =>
    cases hs
    exact h.sched_load hon hcode hpc
  | back =>
    cases hs
    obtain ⟨p, hp, hl⟩ := hserves
    refine h.sched_seat hon rfl rfl rfl ⟨hon, hcode⟩ (fun p' hp' => ?_) (fun p' hp' => by cases hp')
      hholds hcli hn (by simp [Serves])
    obtain rfl := some.inj (hp.symm.trans hp')
    exact hl.ne_running
  | unlock =>
    obtain ⟨s1, hs1, rfl⟩ := map_eq_some_iff.1 hs
    obtain ⟨hheld, rfl⟩ := enabled hs1
    refine h.sched_move hon rfl rfl (fun l c' hc' => ?_) ⟨rfl, hon, hcode⟩ (fun l => ?_) hcli hn
      (by simpa [Serves] using hserves)
    · by_cases hl : l = .ptable <;> simp [State.modCpu, hl, hheld, Ne.symm hc']
    · rcases eq_or_ne l .ptable with rfl | hl
      · simp [State.modCpu, SchedPc.held]
      · simpa [State.modCpu, SchedPc.held, hl] using hholds l
  | popcli =>
    obtain ⟨y, hy, rfl⟩ := map_eq_some_iff.1 hs
    obtain ⟨h0, rfl⟩ := popcli_eq_some hy
    exact h.sched_move hon rfl rfl (fun _ _ _ => Iff.rfl) ⟨rfl, hon, hcode⟩ hholds
      (fun _ => congrArg (· - 1) hn) (congrArg (· - 1) hn) (by simpa [Serves] using hserves)

theorem Inv.pick (h : Inv strict s) (hon : (s.cpu c).on = none) (hcode : (s.cpu c).code = [])
    (hpc : (s.cpu c).pc = .loop) (hp : (s.proc p).state = .runnable) :
    (∀ c', (s.cpu c').proc ≠ some p) ∧
      Inv strict (s.modCpu c fun x => { x with proc := some p, pc := .uvm p }) := by
  obtain ⟨H, hc⟩ := h.cpu c
  obtain ⟨hn, rfl, hserves⟩ := hc.sched hon hcode
  have hholds := hc.holds
  rw [hpc] at hn hserves hholds
  have hno := h.not_current ((hholds .ptable).1 (by simp [SchedPc.held])) (p := p)
    (by simp [show (s.cpu c).proc = none from hserves]) (by simp [hp])
  refine ⟨hno, h.sched_seat hon rfl rfl rfl ⟨hon, hcode⟩ (fun p' hp' => ?_) (fun p' hp' => ?_)
    hholds hc.cli hn (by simpa [Serves] using hp)⟩
  · simp [Serves.eq_def, hp'] at hserves
  · obtain rfl := some.inj hp'
    exact fun c' _ => hno c'

end

/-! ## Runs -/

section

variable {strict : Prop} {s s' : State C}

/-- A caller of `sleep` holds no lock but the one it passes. -/
def HoldsOnlyLk (s : State C) : Label C → Prop
  | .call c (.sleep _ n) => ∀ l, s.holder l = some c → l = .other n
  | _ => True

theorem start_inv : Inv strict (start C) := by
  have hempty : ∀ p, p ≠ Ptable.initproc → (start C).proc p = Proc.empty := fun p hp => by
    simp [start, hp]
  have hcpu : ∀ c, CpuOk strict (start C) c ((start C).cpu c).pc.held := fun c =>
    CpuOk.of_sched rfl rfl (by simp [start, SchedPc.held]) (by simp [start]) rfl rfl
  refine ⟨fun c => ⟨_, hcpu c⟩, fun c c' p hc => by simp [start] at hc, fun p hp => ?_,
    fun p _ => ?_, ?_⟩
  · by_cases h : p = Ptable.initproc
    · simp [start, h] at hp
    · simp [hempty p h, Proc.empty] at hp
  · by_cases h : p = Ptable.initproc
    · simp only [start, h, if_true, Parked]
      exact ⟨fun _ => ⟨trivial, check_forkret⟩, fun _ => trivial⟩
    · simp [hempty p h, Proc.empty, Parked]
  · have hnp : ∀ p, ((start C).proc p).np = none := fun p => by
      by_cases h : p = Ptable.initproc <;> simp [start, h, Proc.empty]
    exact ⟨by simp [hnp], by simp [hnp], by simp [hnp]⟩

/-- Every step keeps the CPUs in order. -/
theorem Inv.step (h : Inv strict s) {a : Label C} (ha : strict → HoldsOnlyLk s a)
    (hs : step s a = some s') : Inv strict s' := by
  cases a with
  | exec c choice =>
    simp only [Sched.step] at hs
    split at hs
    · cases hs
    · next hcode => exact h.exec hcode hs
  | call c f =>
    simp only [Sched.step] at hs
    split at hs
    · next p hon =>
      obtain ⟨⟨hcode, hf⟩, rfl⟩ := enabled hs
      refine h.call hon hcode hf fun hst ch n hfn => ?_
      subst hfn
      exact ha hst
    · cases hs
  | interrupt c lk wakes timer =>
    obtain ⟨hi, rfl⟩ := enabled hs
    exact h.interrupt hi lk wakes timer
  | sched c =>
    simp only [Sched.step, ite_none_right_eq_some] at hs
    exact h.schedStep hs.1.1 hs.1.2 hs.2
  | pick c p =>
    obtain ⟨⟨⟨hon, hcode⟩, hpc, hp⟩, rfl⟩ := enabled hs
    exact (h.pick hon hcode hpc hp).2

/-- They are in order in every run. -/
theorem run_inv {labels : List (Label C)} (hs : run step (start C) labels = some s)
    (ha : strict → Along step HoldsOnlyLk (start C) labels) : Inv strict s := by
  have hC : Along step (fun s a => strict → HoldsOnlyLk s a) (start C) labels := by
    by_cases h : strict
    · exact (ha h).mono fun _ _ ha _ => ha
    · exact (along_true _ _).mono fun _ _ _ h' => absurd h' h
  exact run_invariant (fun _ _ _ h ha hs => h.step ha hs) start_inv hC hs

/-- In every run a running process is the current process of exactly one CPU; no two CPUs are on the
stack of the same process; a process that the scheduler picks or switches to, or that `wait` reaps,
has its context saved and no CPU on its stack; and if callers of `sleep` hold no lock but the one
they pass, `sched` is entered with `ptable.lock` the only lock held and `ncli` one. -/
theorem runs_on_one_cpu (labels : List (Label C)) (hs : run step (start C) labels = some s) :
    (∀ p, (s.proc p).state = .running → ∃! c, (s.cpu c).proc = some p) ∧
    (∀ c c' p, (s.cpu c).on = some p → (s.cpu c').on = some p → c = c') ∧
    (∀ c p s', step s (.pick c p) = some s' →
      (s.proc p).saved = true ∧ ∀ c', (s.cpu c').on ≠ some p) ∧
    (∀ c p, (s.cpu c).on = none → (s.cpu c).pc = .load p →
      (s.proc p).saved = true ∧ ∀ c', (s.cpu c').on ≠ some p) ∧
    (∀ c k q s', s.code c = .scan :: k → step s (.exec c (.slot q)) = some s' →
      (s.proc q).saved = true ∧ ∀ c', (s.cpu c').on ≠ some q) ∧
    (Along step HoldsOnlyLk (start C) labels → ∀ c k, s.code c = .check :: k →
      (s.cpu c).ncli = 1 ∧ ∀ l, s.holder l = some c ↔ l = .ptable) := by
  have h : Inv False s := run_inv hs False.elim
  have hsaved : ∀ p, (∀ c, (s.cpu c).on ≠ some p) →
      (s.proc p).state = .runnable ∨ (s.proc p).state = .running ∨ (s.proc p).state = .zombie →
      (s.proc p).saved = true := by
    intro p hp hst
    obtain ⟨h1, h2⟩ := h.parked p hp
    rcases hst with hst | hst | hst
    · exact (h1 (.inl hst)).1
    · exact (h1 (.inr (.inr hst))).1
    · exact h2 hst
  refine ⟨fun p hp => ?_, fun c c' p hc hc' => h.on_inj hc hc', fun c p s' hs' => ?_,
    fun c p hon hpc => ?_, fun c k q s' hcode hs' => ?_, fun ha c k hcode => ?_⟩
  · obtain ⟨c, hc⟩ := h.running p hp
    exact ⟨c, hc, fun c' hc' => h.inj c' c p hc' hc⟩
  · simp only [step, ite_none_right_eq_some] at hs'
    obtain ⟨⟨⟨hon, hcode⟩, hpc, hp⟩, -⟩ := hs'
    have hoff := h.off_cpu (h.pick hon hcode hpc hp).1
    exact ⟨hsaved p hoff (.inl hp), hoff⟩
  · obtain ⟨H, hc⟩ := h.cpu c
    have hseat := hc.seat
    simp only [Seat, hon, hpc, Serves] at hseat
    have hoff := h.off_cpu_of_sched hon hseat.2.1
    exact ⟨hsaved p hoff (.inr (.inl hseat.2.2)), hoff⟩
  · obtain ⟨H, hc⟩ := h.cpu c
    simp only [step, hcode, exec] at hs'
    split at hs'
    · next p hon =>
      simp only [execProc, ite_none_right_eq_some] at hs'
      obtain ⟨-, ⟨-, hh, hr⟩, -⟩ := hc.check_on hon (code_on hon ▸ hcode)
      dsimp only at hh hr
      have hno : ∀ c', (s.cpu c').proc ≠ some q := by
        refine h.not_current ((hc.holds .ptable).1 (by simp [hh])) (fun hq => ?_) (by simp [hs'.1])
        obtain rfl := some.inj ((hc.seat.proc hon).symm.trans hq)
        simp [hr] at hs'
      exact ⟨hsaved q (h.off_cpu hno) (.inr (.inr hs'.1)), h.off_cpu hno⟩
    · cases hs'
  · have h' : Inv True s := run_inv hs fun _ => ha
    obtain ⟨H, hc⟩ := h'.cpu c
    have hcheck := hcode ▸ hc.check
    obtain ⟨hn, hh, -⟩ := hcheck.1 trivial
    rw [ctx_ncli] at hn
    rw [ctx_held] at hh
    exact ⟨hn, fun l => by rw [← hc.holds l, hh, Finset.mem_singleton]⟩

/-- One CPU runs init, which forks; the other CPU runs the child. -/
theorem runs_on_one_cpu_child :
    let turns : List (ℕ × Label Bool) :=
      [(3, .sched false), (1, .pick false 0), (5, .sched false), (3, .exec false .none),
        (1, .call false .fork), (11, .exec false (.slot 1)),
        (3, .sched true), (1, .pick true 1), (5, .sched true)]
    let labels := turns.flatMap fun a => List.replicate a.1 a.2
    (run step (start Bool) labels).map
        (fun s => ((s.proc 0).state, (s.proc 1).state, (s.cpu false).on, (s.cpu true).on)) =
        some (.running, .running, some 0, some 1) ∧
      ∀ s, run step (start Bool) labels = some s →
        (∃! c, (s.cpu c).proc = some 0) ∧ ∃! c, (s.cpu c).proc = some 1 := by
  refine ⟨by decide +kernel, fun s h => ?_⟩
  have hstate : (s.proc 0).state = .running ∧ (s.proc 1).state = .running := by
    cases h
    decide +kernel
  exact ⟨(runs_on_one_cpu _ h).1 0 hstate.1, (runs_on_one_cpu _ h).1 1 hstate.2⟩

/-- The searches of the table, and the changes of processes other than an embryo. -/
def Instr.onTable : Instr → Prop
  | .setChan _ | .setState _ | .wake _ _ | .kill _ | .alloc | .ready | .scan => True
  | _ => False

/-- In every run a CPU that holds a lock takes no interrupts, no `popcli` is one too many, that of
the scheduler included, the table of processes is used with `ptable.lock` held, and a trap returns
with no more `pushcli` than locks held. -/
theorem locks_guard (labels : List (Label C)) (hs : run step (start C) labels = some s) (c : C) :
    (∀ l, s.holder l = some c → (s.cpu c).interrupts = false) ∧
    (∀ k, s.code c = .popcli :: k → 0 < (s.cpu c).ncli) ∧
    ((s.cpu c).on = none → s.code c = [] →
      ((s.cpu c).pc = .popcli ∨ ∃ p, (s.cpu c).pc = .uvmPop p) → 0 < (s.cpu c).ncli) ∧
    (∀ i k, s.code c = i :: k → i.onTable → s.holder .ptable = some c) ∧
    (∀ p, (s.cpu c).on = none → s.code c = [] → (s.cpu c).pc = .run p →
      s.holder .ptable = some c) ∧
    ∀ k, s.code c = .iret :: k → ∃ H : Finset Lock, (∀ l, l ∈ H ↔ s.holder l = some c) ∧
      (s.cpu c).ncli = H.card := by
  have hinv : Inv False s := run_inv hs False.elim
  obtain ⟨H, hc⟩ := hinv.cpu c
  have hcheck := hc.check
  have hptable : .ptable ∈ (s.ctx c H).held → s.holder .ptable = some c := by
    rw [ctx_held]
    exact (hc.holds .ptable).1
  refine ⟨fun l hl => ?_, fun k hcode => ?_, fun hon hcode hpc => ?_, fun i k hcode hi => ?_,
    fun p hon hcode hpc => ?_, fun k hcode => ⟨H, hc.holds, ?_⟩⟩
  · have hcard := hc.ok.card_le
    rw [ctx_held, ctx_ncli] at hcard
    have hpos := Finset.card_pos.2 ⟨l, (hc.holds l).2 hl⟩
    refine Bool.eq_false_iff.2 fun hon => ?_
    have hzero := hc.cli hon
    omega
  · rw [hcode] at hcheck
    have hlt := hcheck.1
    rw [ctx_held, ctx_ncli] at hlt
    exact Nat.zero_lt_of_lt hlt
  · rw [(hc.sched hon (code_off hon ▸ hcode)).1]
    rcases hpc with hpc | ⟨p, hpc⟩
    · rw [hpc]
      exact Nat.one_pos
    · rw [hpc]
      exact Nat.two_pos
  · rw [hcode] at hcheck
    cases i with
    | setChan | setState | wake | kill => exact hptable hcheck.1.1
    | alloc | ready => exact hptable hcheck.1
    | scan => exact hptable (hcheck.1.2.1 ▸ Finset.mem_singleton_self _)
    | _ => exact hi.elim
  · obtain ⟨-, rfl, -⟩ := hc.sched hon (code_off hon ▸ hcode)
    refine (hc.holds .ptable).1 ?_
    rw [hpc]
    exact Finset.mem_singleton_self _
  · rw [hcode] at hcheck
    have hncli := hcheck.1
    rwa [ctx_held, ctx_ncli] at hncli

/-- The scheduler of a CPU has taken `ptable.lock`. -/
theorem locks_guard_scheduler :
    (run step (start Bool) (List.replicate 3 (.sched false))).map (fun s => s.holder .ptable) =
        some (some false) ∧
      ∀ s, run step (start Bool) (List.replicate 3 (.sched false)) = some s →
        ∀ l, s.holder l = some false → (s.cpu false).interrupts = false :=
  ⟨by decide +kernel, fun _ hs => (locks_guard _ hs false).1⟩

end

end Xv6.Sched
