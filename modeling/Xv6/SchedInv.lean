import Xv6.SchedCheck

/-!
# CPUs and processes in order

`Inv` says that every thread on a CPU passes the check from what the CPU holds, every process
off the CPUs that will run again passes it from what the scheduler will hand over, and no
two CPUs have the same process. A step of one CPU keeps it if that CPU is in order after the
step and only slots that are current on no other CPU have changed (`Inv.act`); a thread that
changes only itself keeps it if it still passes the check (`Inv.advance`).
-/

set_option linter.unusedSectionVars false

namespace Xv6.Sched

open Ptable (Slot ProcState Chan)

variable {C : Type*} [DecidableEq C]

/-! ## The invariant -/

/-- The depth of `pushcli` nesting in the scheduler. -/
def SchedPc.ncli : SchedPc → ℕ
  | .top | .pushcli => 0
  | .uvmPop _ => 2
  | _ => 1

/-- The locks held by the scheduler. -/
def SchedPc.held : SchedPc → Finset Lock
  | .top | .pushcli | .lock | .popcli => ∅
  | _ => {.ptable}

/-- What the thread on CPU `c` holds, where the CPU holds the locks `H`. -/
def State.ctx (s : State C) (c : C) (H : Finset Lock) : Ctx :=
  match (s.cpu c).on with
  | some p => ⟨(s.cpu c).ncli, H, (s.proc p).state, (s.proc p).saved⟩
  | none => ⟨(s.cpu c).ncli, H, .running, false⟩

/-- What the thread on CPU `c` is to hold after its instructions. -/
def State.fin (s : State C) (c : C) (x : Ctx) : Prop :=
  match (s.cpu c).on with
  | some _ => settled x
  | none => x.ncli = (s.cpu c).pc.ncli ∧ x.held = (s.cpu c).pc.held

/-- The process the scheduler of CPU `c` deals with. -/
def Serves (s : State C) (c : C) : SchedPc → Prop
  | .uvm p | .uvmPop p | .run p => (s.cpu c).proc = some p ∧ (s.proc p).state = .runnable
  | .save p | .load p => (s.cpu c).proc = some p ∧ (s.proc p).state = .running
  | .back => ∃ p, (s.cpu c).proc = some p ∧ Left (s.proc p).state
  | _ => (s.cpu c).proc = none

/-- The current process of CPU `c`, on its stack or on that of the scheduler. -/
def Seat (s : State C) (c : C) : Prop :=
  match (s.cpu c).on with
  | some p => (s.cpu c).proc = some p ∧ (s.cpu c).pc = .back ∧ (s.cpu c).code = []
  | none => ((s.cpu c).code ≠ [] → (s.cpu c).proc = none) ∧ Serves s c (s.cpu c).pc

/-- What holds of CPU `c`, which holds the locks `H`. -/
structure CpuOk (strict : Prop) (s : State C) (c : C) (H : Finset Lock) : Prop where
  holds : ∀ l, l ∈ H ↔ s.holder l = some c
  cli : (s.cpu c).interrupts = true → (s.cpu c).ncli = 0
  seat : Seat s c
  ok : (s.ctx c H).Ok
  check : Check strict (s.fin c) (s.ctx c H) (s.code c)

/-- What holds of slot `p` off the CPUs : the context is saved, and a process that will run
goes on safely from `swtch` in the scheduler. -/
def Parked (strict : Prop) (x : Proc) : Prop :=
  (x.state = .runnable ∨ x.state = .sleeping ∨ x.state = .running →
    x.saved = true ∧ Check strict settled .resumed x.code) ∧
  (x.state = .zombie → x.saved = true)

/-- What holds of the processes being made : each has one parent, and once it is set up it
starts at `forkret`. -/
structure Forks (s : State C) : Prop where
  embryo : ∀ p q, (s.proc p).np = some q → (s.proc q).state = .embryo
  forkret : ∀ p q, (s.proc p).np = some q → .setup ∉ (s.proc p).code →
    (s.proc q).saved = true ∧ (s.proc q).code = forkret
  inj : ∀ p p' q, (s.proc p).np = some q → (s.proc p').np = some q → p = p'

/-- What holds in every state of a run. -/
structure Inv (strict : Prop) (s : State C) : Prop where
  cpu : ∀ c, ∃ H, CpuOk strict s c H
  inj : ∀ c c' p, (s.cpu c).proc = some p → (s.cpu c').proc = some p → c = c'
  running : ∀ p, (s.proc p).state = .running → ∃ c, (s.cpu c).proc = some p
  parked : ∀ p, (∀ c, (s.cpu c).on ≠ some p) → Parked strict (s.proc p)
  forks : Forks s

/-- Slot `q` is as it was, as far as the invariant goes. -/
def Same (s s' : State C) (q : Slot) : Prop :=
  (s'.proc q).state = (s.proc q).state ∧ (s'.proc q).code = (s.proc q).code ∧
    (s'.proc q).saved = (s.proc q).saved

variable {strict : Prop} {s s' : State C} {c : C} {p q : Slot} {H : Finset Lock}

theorem ctx_on (h : (s.cpu c).on = some p) :
    s.ctx c H = ⟨(s.cpu c).ncli, H, (s.proc p).state, (s.proc p).saved⟩ := by
  simp [State.ctx, h]

theorem ctx_off (h : (s.cpu c).on = none) :
    s.ctx c H = ⟨(s.cpu c).ncli, H, .running, false⟩ := by
  simp [State.ctx, h]

@[simp] theorem ctx_held : (s.ctx c H).held = H := by
  unfold State.ctx
  split <;> rfl

@[simp] theorem ctx_ncli : (s.ctx c H).ncli = (s.cpu c).ncli := by
  unfold State.ctx
  split <;> rfl

@[simp] theorem ctx_eta :
    Ctx.mk (s.cpu c).ncli H (s.ctx c H).state (s.ctx c H).saved = s.ctx c H := by
  unfold State.ctx
  split <;> rfl

theorem fin_on (h : (s.cpu c).on = some p) : s.fin c = settled := by
  funext x
  simp [State.fin, h]

theorem Seat.proc (h : Seat s c) (hon : (s.cpu c).on = some p) : (s.cpu c).proc = some p := by
  simp only [Seat, hon] at h
  exact h.1

/-- The current process is running, or it has left `RUNNING` and the CPU holds
`ptable.lock`. -/
theorem CpuOk.current (h : CpuOk strict s c H) (hp : (s.cpu c).proc = some p) :
    (s.proc p).state = .running ∨
      (s.proc p).state ≠ .running ∧ Left (s.proc p).state ∧ s.holder .ptable = some c := by
  have hseat := h.seat
  have hok := h.ok.state
  have hcheck := h.check
  have hholds := h.holds .ptable
  cases hon : (s.cpu c).on with
  | some q =>
    obtain rfl : q = p := Option.some.inj ((hseat.proc hon).symm.trans hp)
    rw [ctx_on hon] at hok
    rcases hok with hok | hok
    · exact .inl hok.1
    · exact .inr ⟨hok.1.ne_running, hok.1, hholds.1 hok.2⟩
  | none =>
    simp only [Seat, hon] at hseat
    have hcode : (s.cpu c).code = [] := by
      by_contra hne
      simp [hseat.1 hne] at hp
    simp only [code_off hon, hcode, Check, State.fin, hon, ctx_off hon] at hcheck
    have hserves := hseat.2
    cases hpc : (s.cpu c).pc <;> simp only [hpc, Serves, hp] at hserves <;>
      simp only [hpc, SchedPc.held] at hcheck <;> simp_all [Left]
    rcases hserves with h | h | h <;> simp [h]

/-- A process is on one CPU at most. -/
theorem Inv.on_inj (h : Inv strict s) {c' : C} (hc : (s.cpu c).on = some p)
    (hc' : (s.cpu c').on = some p) : c = c' := by
  obtain ⟨H, hH⟩ := h.cpu c
  obtain ⟨H', hH'⟩ := h.cpu c'
  exact h.inj c c' p (hH.seat.proc hc) (hH'.seat.proc hc')

theorem Inv.not_current (h : Inv strict s) (hc : s.holder .ptable = some c)
    (hp : (s.cpu c).proc ≠ some p) (hst : (s.proc p).state ≠ .running) (c' : C) :
    (s.cpu c').proc ≠ some p := by
  intro hc'
  obtain ⟨H, hH⟩ := h.cpu c'
  rcases hH.current hc' with hr | ⟨-, -, hl⟩
  · exact hst hr
  · obtain rfl : c = c' := Option.some.inj (hc.symm.trans hl)
    exact hp hc'

theorem Inv.off_cpu (h : Inv strict s) (hp : ∀ c', (s.cpu c').proc ≠ some p) (c' : C) :
    (s.cpu c').on ≠ some p := by
  intro hon
  obtain ⟨H, hH⟩ := h.cpu c'
  exact hp c' (hH.seat.proc hon)

theorem Inv.off_cpu_of_sched (h : Inv strict s) (hon : (s.cpu c).on = none)
    (hp : (s.cpu c).proc = some p) (c' : C) : (s.cpu c').on ≠ some p := by
  intro hc'
  obtain ⟨H, hH⟩ := h.cpu c'
  obtain rfl := h.inj c c' p hp (hH.seat.proc hc')
  simp [hon] at hc'

theorem Inv.not_current_of_state (h : Inv strict s)
    (hst : (s.proc p).state = .embryo ∨ (s.proc p).state = .unused) (c' : C) :
    (s.cpu c').proc ≠ some p := by
  intro hc'
  obtain ⟨H, hH⟩ := h.cpu c'
  rcases hH.current hc' with hr | ⟨-, hl, -⟩
  · simp [hr] at hst
  · rcases hl with hl | hl | hl <;> simp [hl] at hst

theorem Serves.frame {pc : SchedPc} (h : Serves s c pc) (hcpu : s'.cpu c = s.cpu c)
    (hslot : ∀ q, (s.cpu c).proc = some q → Same s s' q) : Serves s' c pc := by
  cases pc <;> simp only [Serves, hcpu] at h ⊢ <;> first
    | exact h
    | exact ⟨h.1, ((hslot _ h.1).1).trans h.2⟩
    | (obtain ⟨p, hp, hl⟩ := h; exact ⟨p, hp, (hslot p hp).1 ▸ hl⟩)

/-- A step elsewhere keeps this. -/
theorem CpuOk.frame (h : CpuOk strict s c H) (hcpu : s'.cpu c = s.cpu c)
    (hlock : ∀ l, s'.holder l = some c ↔ s.holder l = some c)
    (hslot : ∀ q, (s.cpu c).proc = some q → Same s s' q) : CpuOk strict s' c H := by
  have hseat : Seat s' c := by
    have hs := h.seat
    cases hon : (s.cpu c).on with
    | some q => simpa [Seat, hcpu, hon] using hs
    | none =>
      simp only [Seat, hcpu, hon] at hs ⊢
      exact ⟨hs.1, hs.2.frame hcpu hslot⟩
  have hctx : s'.ctx c H = s.ctx c H := by
    cases hon : (s.cpu c).on with
    | some q =>
      obtain ⟨h1, -, h3⟩ := hslot q (h.seat.proc hon)
      simp [State.ctx, hcpu, hon, h1, h3]
    | none => simp [State.ctx, hcpu, hon]
  have hcode : s'.code c = s.code c := by
    cases hon : (s.cpu c).on with
    | some q => simp [State.code, hcpu, hon, (hslot q (h.seat.proc hon)).2.1]
    | none => simp [State.code, hcpu, hon]
  have hfin : s'.fin c = s.fin c := by
    funext x
    simp [State.fin, hcpu]
  exact ⟨fun l => (h.holds l).trans (hlock l).symm, by simpa [hcpu] using h.cli, hseat,
    by simpa [hctx] using h.ok, by simpa [hctx, hcode, hfin] using h.check⟩

theorem Parked.frame (h : Parked strict (s.proc q)) (hq : Same s s' q) :
    Parked strict (s'.proc q) := by
  obtain ⟨h1, h2, h3⟩ := hq
  simpa [Parked, h1, h2, h3] using h

/-- A step of CPU `c` keeps the invariant if it leaves the other CPUs as they are, the CPU
itself is in order after it, and it changes only slots that are current on no other CPU. -/
theorem Inv.act (h : Inv strict s) (c : C) (hcpu : ∀ c', c' ≠ c → s'.cpu c' = s.cpu c')
    (hlock : ∀ l c', c' ≠ c → (s'.holder l = some c' ↔ s.holder l = some c'))
    (hself : ∃ H, CpuOk strict s' c H) (hproc : (s'.cpu c).proc = (s.cpu c).proc)
    (hslot : ∀ q, (s.cpu c).proc ≠ some q → Same s s' q ∨
      (∀ c', (s.cpu c').proc ≠ some q) ∧ (s'.proc q).state ≠ .running ∧
        Parked strict (s'.proc q))
    (hown : ∀ p, (s.cpu c).proc = some p →
      (s'.cpu c).on = some p ∨ Parked strict (s'.proc p))
    (hforks : Forks s') : Inv strict s' := by
  have hprocs : ∀ c', (s'.cpu c').proc = (s.cpu c').proc := by
    intro c'
    by_cases hc : c' = c
    · rw [hc, hproc]
    · rw [hcpu c' hc]
  refine ⟨fun c' => ?_, fun c1 c2 p h1 h2 => ?_, fun p hp => ?_, fun p hp => ?_, hforks⟩
  · by_cases hc : c' = c
    · exact hc ▸ hself
    obtain ⟨H, hH⟩ := h.cpu c'
    refine ⟨H, hH.frame (hcpu c' hc) (fun l => hlock l c' hc) fun q hq => ?_⟩
    have hne : (s.cpu c).proc ≠ some q := fun hq' => hc (h.inj c' c q hq hq')
    exact (hslot q hne).resolve_right fun hno => hno.1 c' hq
  · exact h.inj c1 c2 p (hprocs c1 ▸ h1) (hprocs c2 ▸ h2)
  · by_cases hc : (s.cpu c).proc = some p
    · exact ⟨c, (hprocs c).trans hc⟩
    rcases hslot p hc with hs | hs
    · obtain ⟨c', hc'⟩ := h.running p (hs.1 ▸ hp)
      exact ⟨c', (hprocs c').trans hc'⟩
    · exact absurd hp hs.2.1
  · by_cases hc : (s.cpu c).proc = some p
    · exact (hown p hc).resolve_left (hp c)
    rcases hslot p hc with hs | hs
    · refine (h.parked p fun c' hon => ?_).frame hs
      have hc' : c' ≠ c := by
        rintro rfl
        obtain ⟨H, hH⟩ := h.cpu c'
        exact hc (hH.seat.proc hon)
      exact hp c' (hcpu c' hc' ▸ hon)
    · exact hs.2.2

theorem Forks.frame (h : Forks s) (hnp : ∀ p, (s'.proc p).np = (s.proc p).np)
    (hcode : ∀ p, .setup ∈ (s.proc p).code → .setup ∈ (s'.proc p).code)
    (hslot : ∀ q, (s.proc q).state = .embryo → Same s s' q) : Forks s' := by
  refine ⟨fun p q hq => ?_, fun p q hq hset => ?_, fun p p' q hp hp' => ?_⟩
  · have he := h.embryo p q (hnp p ▸ hq)
    exact (hslot q he).1.trans he
  · obtain ⟨-, hc, hs⟩ := hslot q (h.embryo p q (hnp p ▸ hq))
    rw [hs, hc]
    exact h.forkret p q (hnp p ▸ hq) fun hmem => hset (hcode p hmem)
  · exact h.inj p p' q (hnp p ▸ hp) (hnp p' ▸ hp')

/-- A step of CPU `c` that changes its record to `y` and the slot `p` of its current process to
`x`. -/
theorem Inv.current (h : Inv strict s) (hproc : (s.cpu c).proc = some p) {x : Proc} {y : Cpu}
    (hcpu : s'.cpu = Function.update s.cpu c y) (hprocs : s'.proc = Function.update s.proc p x)
    (hholder : s'.holder = s.holder) (hy : y.proc = some p) (hnp : x.np = (s.proc p).np)
    (hset : .setup ∈ (s.proc p).code → .setup ∈ x.code) (hp : (s.proc p).state ≠ .embryo)
    (hself : ∃ H, CpuOk strict s' c H) (hown : y.on = some p ∨ Parked strict x) :
    Inv strict s' := by
  have hsame : ∀ q, q ≠ p → Same s s' q := fun q hq => by simp [Same, hprocs, hq]
  refine h.act c (fun c' hc' => by simp [hcpu, hc']) (fun _ _ _ => by rw [hholder]) hself
    (by simp [hcpu, hy, hproc]) (fun q hq => .inl (hsame q fun he => hq (he ▸ hproc)))
    (fun p' hp' => ?_) (h.forks.frame (fun q => ?_) (fun q => ?_) fun q hq => hsame q ?_)
  · obtain rfl : p = p' := Option.some.inj (hproc.symm.trans hp')
    simpa [hcpu, hprocs] using hown
  · by_cases he : q = p
    · simp [he, hprocs, hnp]
    · simp [he, hprocs]
  · by_cases he : q = p
    · simpa [he, hprocs] using hset
    · simp [he, hprocs]
  · rintro rfl
    exact hp hq

/-- A step changes nothing but the thread on CPU `c` and the locks of the CPU. -/
structure Own (s s' : State C) (c : C) : Prop where
  cpu : ∀ c', c' ≠ c → s'.cpu c' = s.cpu c'
  proc : (s'.cpu c).proc = (s.cpu c).proc
  on : (s'.cpu c).on = (s.cpu c).on
  pc : (s'.cpu c).pc = (s.cpu c).pc
  code : (s.cpu c).on ≠ none → (s'.cpu c).code = (s.cpu c).code
  lock : ∀ l c', c' ≠ c → (s'.holder l = some c' ↔ s.holder l = some c')
  slot : ∀ q, (s.cpu c).on ≠ some q → Same s s' q
  np : ∀ q, (s'.proc q).np = (s.proc q).np

theorem Own.trans {s1 s2 s3 : State C} (h : Own s1 s2 c) (h' : Own s2 s3 c) : Own s1 s3 c where
  cpu c' hc := (h'.cpu c' hc).trans (h.cpu c' hc)
  proc := h'.proc.trans h.proc
  on := h'.on.trans h.on
  pc := h'.pc.trans h.pc
  code hon := (h'.code (h.on ▸ hon)).trans (h.code hon)
  lock l c' hc := (h'.lock l c' hc).trans (h.lock l c' hc)
  slot q hq := by
    obtain ⟨h1, h2, h3⟩ := h.slot q hq
    obtain ⟨h1', h2', h3'⟩ := h'.slot q (h.on ▸ hq)
    exact ⟨h1'.trans h1, h2'.trans h2, h3'.trans h3⟩
  np q := (h'.np q).trans (h.np q)

theorem Own.setCode (k : List Instr) : Own s (s.setCode c k) c where
  cpu c' hc := by grind [setCode_cpu (s := s) (c := c) (k := k) c']
  proc := by grind [setCode_cpu (s := s) (c := c) (k := k) c]
  on := by grind [setCode_cpu (s := s) (c := c) (k := k) c]
  pc := by grind [setCode_cpu (s := s) (c := c) (k := k) c]
  code hon := by grind [setCode_cpu (s := s) (c := c) (k := k) c]
  lock l c' _ := by simp
  slot q hq := by
    rcases setCode_proc (s := s) (c := c) (k := k) q with h | h
    · simp [Same, h.1]
    · exact absurd h.1 hq
  np q := by
    rcases setCode_proc (s := s) (c := c) (k := k) q with h | h <;> simp [h]

theorem Own.modCpu {f : Cpu → Cpu} (hf : (f (s.cpu c)).proc = (s.cpu c).proc ∧
      (f (s.cpu c)).on = (s.cpu c).on ∧ (f (s.cpu c)).pc = (s.cpu c).pc ∧
      (f (s.cpu c)).code = (s.cpu c).code) : Own s (s.modCpu c f) c where
  cpu c' hc := modCpu_of_ne hc
  proc := by simp [hf]
  on := by simp [hf]
  pc := by simp [hf]
  code _ := by simp [hf]
  lock l c' _ := by simp
  slot q _ := by simp [Same]
  np q := by simp

/-- A step of the thread on CPU `c` that changes nothing else, and goes on with what passes
the check. -/
theorem Inv.advance (h : Inv strict s) (hc : CpuOk strict s c H)
    (hcode : (s.cpu c).on ≠ none ∨ (s.cpu c).proc = none) (hown : Own s s' c)
    (hset : .setup ∈ s.code c → .setup ∈ s'.code c) (H' : Finset Lock)
    (hholds : ∀ l, l ∈ H' ↔ s'.holder l = some c)
    (hcli : (s'.cpu c).interrupts = true → (s'.cpu c).ncli = 0) (hok : (s'.ctx c H').Ok)
    (hcheck : Check strict (s.fin c) (s'.ctx c H') (s'.code c)) : Inv strict s' := by
  have hfin : s'.fin c = s.fin c := by
    funext x
    simp [State.fin, hown.on, hown.pc]
  refine h.act c hown.cpu hown.lock ⟨H', hholds, hcli, ?_, hok, hfin ▸ hcheck⟩ hown.proc
    (fun q hq => ?_) (fun p hp => ?_)
    (h.forks.frame hown.np (fun p hp => ?_) fun q hq => hown.slot q ?_)
  · have hseat := hc.seat
    cases ho : (s.cpu c).on with
    | some q =>
      have hcd := hown.code (by simp [ho])
      simpa [Seat, hown.on, ho, hown.proc, hown.pc, hcd] using hseat
    | none =>
      have hno := hcode.resolve_left (by simp [ho])
      simp only [Seat, hown.on, ho, hown.proc, hown.pc] at hseat ⊢
      refine ⟨fun _ => hno, ?_⟩
      have hserves := hseat.2
      have hproc := hown.proc
      cases hq : (s.cpu c).pc <;> simp_all [Serves]
  · exact .inl (hown.slot q fun hq' => hq (hc.seat.proc hq'))
  · cases ho : (s.cpu c).on with
    | some q =>
      refine .inl (hown.on.trans (ho.trans ?_))
      exact (hc.seat.proc ho).symm.trans hp
    | none =>
      rw [hcode.resolve_left (by simp [ho])] at hp
      cases hp
  · by_cases ho : (s.cpu c).on = some p
    · rw [code_on ho, code_on (hown.on.trans ho)] at hset
      exact hset hp
    · rw [(hown.slot p ho).2.1]
      exact hp
  · exact fun ho => h.not_current_of_state (.inl hq) c (hc.seat.proc ho)

theorem CpuOk.busy (hc : CpuOk strict s c H) (hcode : s.code c ≠ []) :
    (s.cpu c).on ≠ none ∨ (s.cpu c).proc = none := by
  cases hon : (s.cpu c).on with
  | some p => simp
  | none =>
    have hseat := hc.seat
    simp only [Seat, hon] at hseat
    exact .inr (hseat.1 (code_off hon ▸ hcode))

theorem setCode_state (k : List Instr) (q : Slot) :
    ((s.setCode c k).proc q).state = (s.proc q).state ∧
      ((s.setCode c k).proc q).saved = (s.proc q).saved := by
  rcases setCode_proc (s := s) (c := c) (k := k) q with h | h <;> simp [h]

/-- A step of the thread on CPU `c` that may change the locks, and not the state of a
process. -/
theorem Inv.advance_locks (h : Inv strict s) (hc : CpuOk strict s c H) {i : Instr}
    {k : List Instr} (hcode : s.code c = i :: k) (hi : i ≠ .setup) (hown : Own s s' c)
    (hst : ∀ p, (s'.proc p).state = (s.proc p).state ∧ (s'.proc p).saved = (s.proc p).saved)
    (hset : .setup ∈ k → .setup ∈ s'.code c) (H' : Finset Lock)
    (hholds : ∀ l, l ∈ H' ↔ s'.holder l = some c)
    (hcli : (s'.cpu c).interrupts = true → (s'.cpu c).ncli = 0)
    (hcard : H'.card ≤ (s'.cpu c).ncli)
    (hheld : .ptable ∈ H → .ptable ∈ H' ∨ (s.ctx c H).state = .running)
    (hcheck : Check strict (s.fin c)
      ⟨(s'.cpu c).ncli, H', (s.ctx c H).state, (s.ctx c H).saved⟩ (s'.code c)) :
    Inv strict s' := by
  have hctx : s'.ctx c H' =
      ⟨(s'.cpu c).ncli, H', (s.ctx c H).state, (s.ctx c H).saved⟩ := by
    cases hon : (s.cpu c).on with
    | some p => rw [ctx_on hon, ctx_on (hown.on.trans hon), (hst p).1, (hst p).2]
    | none => rw [ctx_off hon, ctx_off (hown.on.trans hon)]
  refine h.advance hc (hc.busy (by simp [hcode])) hown (fun hm => hset ?_) H' hholds hcli ?_
    (hctx ▸ hcheck)
  · rw [hcode] at hm
    exact (List.mem_cons.1 hm).resolve_left fun he => hi he.symm
  · rw [hctx]
    refine ⟨hcard, ?_⟩
    rcases hc.ok.state with hr | ⟨hl, hp⟩
    · exact .inl hr
    · exact .inr ⟨hl, (hheld (by simpa using hp)).resolve_right hl.ne_running⟩

end Xv6.Sched
