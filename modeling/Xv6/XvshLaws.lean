import Mathlib.Data.Set.Subsingleton
import Xv6.Xvsh

/-!
# What `xvsh` does about its children

A child whose `exec` fails goes on as a shell (`failed_child_reads`); while no `exec` fails,
the shell that was started is the only one in the loop of `main` (`only_shell_reads`).

`wait` returns any zombie child. A foreground command is waited for while no other child is
left when it is started (`foreground_reaped`), and need not be otherwise
(`background_reaped_instead`). Before `exit` the shell waits once, so the children are all
reaped exactly if at most one was left (`exit_reaps_all_iff`, `exit_leaves_child`).
-/

open Transition Option

namespace Xv6.Xvsh

variable {s s' : State} {p q c : ℕ} {x y : Proc} {pc k : Pc} {code : Code} {a : Label}

/-! ## Equations -/

theorem modify_same (f : Proc → Proc) : (s.modify p f).proc p = (s.proc p).map f := by
  simp [State.modify]

theorem modify_ne (f : Proc → Proc) (h : q ≠ p) : (s.modify p f).proc q = s.proc q := by
  simp [State.modify, h]

/-- A process is in `xvsh.c` when it is alive and runs that code. -/
theorem pc_eq_some : s.pc p = some pc ↔
    ∃ x, s.proc p = some x ∧ x.status = .alive ∧ x.code = .xvsh pc := by
  unfold State.pc
  cases s.proc p with
  | none => simp
  | some x => cases x with | mk _ _ status code => cases status <;> cases code <;> simp

theorem inProgram_iff : s.inProgram p = true ↔
    ∃ x, s.proc p = some x ∧ x.status = .alive ∧ x.code = .program := by
  unfold State.inProgram
  cases s.proc p with
  | none => simp
  | some x => cases x with | mk _ _ status code => cases status <;> cases code <;> simp

theorem pc_of_inProgram (h : s.inProgram p = true) : s.pc p = none := by
  rw [eq_none_iff_forall_ne_some]
  intro pc hpc
  obtain ⟨x, hx, -, hc⟩ := inProgram_iff.1 h
  obtain ⟨y, hy, -, hc'⟩ := pc_eq_some.1 hpc
  obtain rfl := some.inj (hx.symm.trans hy)
  rw [hc] at hc'
  cases hc'

theorem pc_congr (h : s'.proc q = s.proc q) : s'.pc q = s.pc q := by
  rw [State.pc, State.pc, h]

theorem pc_goto (h : s.pc p = some pc) : (s.goto p k).pc p = some k := by
  obtain ⟨x, hx, hs, -⟩ := pc_eq_some.1 h
  refine pc_eq_some.2 ⟨{ x with code := .xvsh k }, ?_, hs, rfl⟩
  rw [State.goto, modify_same, hx]
  rfl

theorem pc_goto_ne (h : q ≠ p) : (s.goto p k).pc q = s.pc q :=
  pc_congr (modify_ne _ h)

theorem pc_program : (s.modify p fun x => { x with code := .program }).pc p = none := by
  rw [State.pc, modify_same]
  cases s.proc p with
  | none => rfl
  | some x => cases x with | mk _ _ status _ => cases status <;> rfl

theorem fork_proc_ne (h : q ≠ s.births) : (s.fork p code).proc q = s.proc q := by
  simp [State.fork, h]

theorem fork_proc_new :
    (s.fork p code).proc s.births = some ⟨some p, p, .alive, code⟩ := by
  simp [State.fork]

theorem exit_proc : (s.exit p).proc q = (s.proc q).map fun x =>
    { x with
      parent := if x.parent = some p then some init else x.parent
      status := if q = p then .zombie else x.status } :=
  rfl

theorem pc_exit : (s.exit p).pc q = if q = p then none else s.pc q := by
  rw [State.pc, State.pc, exit_proc]
  cases s.proc q with
  | none => simp
  | some x =>
    by_cases h : q = p
    · simp [h]
    · cases x with | mk _ _ status code => cases status <;> cases code <;> simp [h]

theorem zombieOf_iff : s.zombieOf p q = true ↔
    ∃ x, s.proc q = some x ∧ x.parent = some p ∧ x.status = .zombie := by
  unfold State.zombieOf
  cases s.proc q <;> simp

theorem pc_reap (h : s.zombieOf p q = true) (r : ℕ) : (s.reap q).pc r = s.pc r := by
  by_cases hr : r = q
  · subst hr
    obtain ⟨x, hx, -, hz⟩ := zombieOf_iff.1 h
    rw [State.pc, State.pc, State.reap, modify_same, hx]
    cases x with | mk _ _ status _ => cases hz; rfl
  · exact pc_congr (modify_ne _ hr)

/-! ## The table -/

/-- What holds of the table in every run. -/
structure Wf (s : State) : Prop where
  born : ∀ q x, s.proc q = some x → q < s.births
  init_alive : ∃ x, s.proc init = some x ∧ x.status = .alive ∧ x.code = .program ∧
    x.creator = init
  creator_lt : ∀ q x, s.proc q = some x → x.creator < s.births
  parent : ∀ q x p, s.proc q = some x → x.parent = some p → p ≠ init → x.creator = p
  child : ∀ q x p y, q ≠ init → s.proc q = some x → x.creator = p → x.status ≠ .reaped →
    s.proc p = some y → y.status = .alive → x.parent = some p
  reaped : ∀ q x, s.proc q = some x → x.status = .reaped → x.parent = none

/-- The table is well formed at the start. -/
theorem wf_start : Wf start where
  born q x h := by
    simp only [start] at h
    split_ifs at h with h0 h1
    · simp [h0, start]
    · simp [h1, start]
  init_alive := ⟨_, rfl, rfl, rfl, rfl⟩
  creator_lt q x h := by
    simp only [start] at h
    split_ifs at h <;> cases h <;> simp [start]
  parent q x p h hp hne := by
    simp only [start] at h
    split_ifs at h <;> cases h
    · cases hp
    · exact absurd (some.inj hp).symm hne
  child q x p y hq h hc _ hp _ := by
    simp only [start] at h
    split_ifs at h with h0 h1
    · exact absurd h0 hq
    · cases h
      exact congrArg some hc
  reaped q x h hr := by
    simp only [start] at h
    split_ifs at h <;> cases h <;> cases hr

/-- A table keeps well formed if only the entry of `r` is new in it. -/
theorem Wf.put {r : ℕ} (h : Wf s) (hb : s.births ≤ s'.births) (hr : r < s'.births)
    (hi : r ≠ init) (hkeep : ∀ q, q ≠ r → s'.proc q = s.proc q) (hx : s'.proc r = some x)
    (hc : x.creator < s'.births) (hpar : ∀ p, x.parent = some p → p ≠ init → x.creator = p)
    (hchild : ∀ w, x.status ≠ .reaped → s'.proc x.creator = some w → w.status = .alive →
      x.parent = some x.creator)
    (hreap : x.status = .reaped → x.parent = none)
    (hal : x.status = .alive → (∃ y, s.proc r = some y ∧ y.status = .alive) ∨
      ∀ q y, s.proc q = some y → y.creator ≠ r) : Wf s' := by
  have hcases : ∀ {q z}, s'.proc q = some z → q = r ∧ z = x ∨ s.proc q = some z := by
    intro q z hz
    by_cases hq : q = r
    · subst hq
      exact .inl ⟨rfl, some.inj (hz.symm.trans hx)⟩
    · exact .inr (hkeep q hq ▸ hz)
  refine ⟨fun q z hz => ?_, hkeep _ hi.symm ▸ h.init_alive, fun q z hz => ?_,
    fun q z p hz => ?_, fun q z p w hq hz hp hs hw hws => ?_, fun q z hz => ?_⟩
  · rcases hcases hz with ⟨rfl, -⟩ | hz
    · exact hr
    · exact (h.born q z hz).trans_le hb
  · rcases hcases hz with ⟨-, rfl⟩ | hz
    · exact hc
    · exact (h.creator_lt q z hz).trans_le hb
  · rcases hcases hz with ⟨-, rfl⟩ | hz
    · exact hpar p
    · exact h.parent q z p hz
  · subst hp
    rcases hcases hz with ⟨-, rfl⟩ | hz
    · exact hchild w hs hw hws
    · rcases hcases hw with ⟨hp, rfl⟩ | hw
      · rcases hal hws with ⟨y, hy, hys⟩ | hno
        · exact h.child q z _ y hq hz rfl hs (hp ▸ hy) hys
        · exact absurd hp (hno q z hz)
      · exact h.child q z _ w hq hz rfl hs hw hws
  · rcases hcases hz with ⟨-, rfl⟩ | hz
    · exact hreap
    · exact h.reaped q z hz

/-- Init does not run the shell. -/
theorem Wf.ne_init (h : Wf s) (hp : s.pc p = some pc) : p ≠ init := by
  rintro rfl
  obtain ⟨x, hx, -, hc, -⟩ := h.init_alive
  obtain ⟨y, hy, -, hc'⟩ := pc_eq_some.1 hp
  obtain rfl := some.inj (hx.symm.trans hy)
  rw [hc] at hc'
  cases hc'

theorem Wf.modify (h : Wf s) (hp : s.pc p = some pc) (code : Code) :
    Wf (s.modify p fun x => { x with code := code }) := by
  obtain ⟨y, hy, hal, -⟩ := pc_eq_some.1 hp
  refine h.put (x := { y with code := code }) le_rfl (h.born p y hy) (h.ne_init hp)
    (fun q => modify_ne _)
    (by rw [modify_same, hy]; rfl) (h.creator_lt p y hy) (fun q => h.parent p y q hy)
    (fun w hs hw ha => ?_) (h.reaped p y hy) fun _ => .inl ⟨y, hy, hal⟩
  by_cases hc : y.creator = p
  · exact h.child p y _ y (h.ne_init hp) hy rfl hs (hc.symm ▸ hy) hal
  · exact h.child p y _ w (h.ne_init hp) hy rfl hs (modify_ne _ hc ▸ hw) ha

theorem Wf.goto (h : Wf s) (hp : s.pc p = some pc) (k : Pc) : Wf (s.goto p k) :=
  h.modify hp _

/-- `fork` keeps the table well formed. -/
theorem Wf.fork (h : Wf s) (hp : s.proc p = some y) (code : Code) : Wf (s.fork p code) := by
  obtain ⟨z, hz, -⟩ := h.init_alive
  exact h.put (Nat.le_succ _) (Nat.lt_succ_self _) (h.born init z hz).ne'
    (fun q => fork_proc_ne) fork_proc_new ((h.born p y hp).trans (Nat.lt_succ_self _))
    (fun q hq _ => some.inj hq) (fun _ _ _ _ => rfl) nofun
    fun _ => .inr fun q w hw => (h.creator_lt q w hw).ne

/-- `exit` keeps the table well formed. -/
theorem Wf.exit (h : Wf s) (hp : p ≠ init) (hy : s.proc p = some y) (ha : y.status = .alive) :
    Wf (s.exit p) := by
  have hcases : ∀ {q x}, (s.exit p).proc q = some x → ∃ z, s.proc q = some z ∧
      x.parent = (if z.parent = some p then some init else z.parent) ∧ x.creator = z.creator ∧
      x.status = (if q = p then .zombie else z.status) := by
    intro q x hx
    rw [exit_proc] at hx
    obtain ⟨z, hz, rfl⟩ := map_eq_some_iff.1 hx
    exact ⟨z, hz, rfl, rfl, rfl⟩
  obtain ⟨z, hz, hzs, hzc⟩ := h.init_alive
  have hi : (s.exit p).proc init = some { z with
      parent := if z.parent = some p then some init else z.parent
      status := if init = p then .zombie else z.status } := by
    rw [exit_proc, hz]
    rfl
  refine ⟨fun q x hx => ?_, ⟨_, hi, by simp [hp.symm, hzs], hzc⟩, fun q x hx => ?_,
    fun q x r hx hr hne => ?_, fun q x r w hq hx hc hs hw hws => ?_, fun q x hx hs => ?_⟩
  · obtain ⟨z, hz, -⟩ := hcases hx
    exact h.born q z hz
  · obtain ⟨z, hz, -, hc, -⟩ := hcases hx
    exact hc ▸ h.creator_lt q z hz
  · obtain ⟨z, hz, hpar, hc, -⟩ := hcases hx
    rw [hpar] at hr
    split_ifs at hr with hzp
    · exact absurd (some.inj hr).symm hne
    · exact hc ▸ h.parent q z r hz hr hne
  · obtain ⟨z, hz, hpar, hc', hs'⟩ := hcases hx
    obtain ⟨u, hu, -, -, hus⟩ := hcases hw
    have hrp : r ≠ p := by
      rintro rfl
      rw [if_pos rfl] at hus
      rw [hus] at hws
      cases hws
    rw [if_neg hrp] at hus
    have hzs : z.status ≠ .reaped := by
      intro hz'
      split_ifs at hs' with hqp
      · subst hqp
        rw [hy] at hz
        obtain rfl := some.inj hz
        rw [ha] at hz'
        cases hz'
      · exact hs (hs'.trans hz')
    have := h.child q z r u hq hz (hc' ▸ hc) hzs hu (hus ▸ hws)
    rw [hpar, this, if_neg (by simpa using hrp)]
  · obtain ⟨z, hz, hpar, -, hs'⟩ := hcases hx
    split_ifs at hs' with hqp
    · rw [hs'] at hs
      cases hs
    · have := h.reaped q z hz (hs' ▸ hs)
      rw [hpar, this, if_neg (by simp)]

/-- A child that is reaped keeps the table well formed. -/
theorem Wf.reap (h : Wf s) (hz : s.zombieOf p q = true) : Wf (s.reap q) := by
  obtain ⟨z, hz, -, hzs⟩ := zombieOf_iff.1 hz
  have hqi : q ≠ init := by
    rintro rfl
    obtain ⟨y, hy, hys, -⟩ := h.init_alive
    obtain rfl := some.inj (hy.symm.trans hz)
    rw [hys] at hzs
    cases hzs
  exact h.put (x := { z with parent := none, status := .reaped }) le_rfl (h.born q z hz) hqi
    (fun r => modify_ne _) (by rw [State.reap, modify_same, hz]; rfl) (h.creator_lt q z hz) nofun
    (fun _ hs => absurd rfl hs) (fun _ => rfl) nofun

theorem waited_eq_some (h : s.waited p = some s') :
    s.inProgram p = true ∧ s' = s ∨
      ∃ pc k, s.pc p = some pc ∧ afterWait pc = some k ∧ s' = s.goto p k := by
  unfold State.waited at h
  split_ifs at h with hp
  · exact .inl ⟨hp, (some.inj h).symm⟩
  · obtain ⟨k, hk, rfl⟩ := map_eq_some_iff.1 h
    obtain ⟨pc, hpc, hk⟩ := bind_eq_some_iff.1 hk
    exact .inr ⟨pc, k, hpc, hk, rfl⟩

/-! ## What a step can do -/

/-- How a process moves in `xvsh.c` without a change to the table. -/
inductive Moves : Pc → Pc → Prop where
  | print : Moves .prompt .read
  | printed : Moves .failed (.back none)
  | read (line : Line) : Moves .read (afterRead line)
  | eof : Moves .read .quit
  | parse (line : Line) : Moves (.malloc line) (afterParse (parse line))
  | noMemory (line : Line) : Moves (.malloc line) .quit
  | noFork (c : Cmd) : Moves (.fork c) (.back none)
  | noExec (c : Cmd) : Moves (.exec c) .failed
  | free (child : Option ℕ) : Moves (.back child) .prompt

/-- The process that takes a step. -/
def Label.actor : Label → ℕ
  | .print p => p
  | .read p _ => p
  | .eof p => p
  | .malloc p _ => p
  | .fork p _ => p
  | .exec p _ => p
  | .wait p _ => p
  | .waitFail p => p
  | .free p => p
  | .exit p => p

/-- A step, by what it does to the table. -/
inductive Does (s : State) : Label → State → Prop where
  | move {a : Label} {p : ℕ} {pc k : Pc} (ha : a.actor = p) (hp : s.pc p = some pc)
      (hk : Moves pc k) (hexec : ∀ c, pc = .exec c → a = .exec p false) : Does s a (s.goto p k)
  | exec {p : ℕ} {c : Cmd} (hp : s.pc p = some (.exec c)) :
      Does s (.exec p true) (s.modify p fun x => { x with code := .program })
  | fork {p : ℕ} {c : Cmd} (hp : s.pc p = some (.fork c)) :
      Does s (.fork p true)
        ((s.fork p (.xvsh (.exec c))).goto p (afterFork c (some s.births)))
  | progFork {p : ℕ} (hp : s.inProgram p = true) : Does s (.fork p true) (s.fork p .program)
  | exit {p : ℕ} {x : Proc} (hx : s.proc p = some x) (ha : x.status = .alive) (hp : p ≠ init)
      (hpc : ∀ pc, s.pc p = some pc → pc = .exitCmd ∨ pc = .quit) :
      Does s (.exit p) (s.exit p)
  | wait {p q : ℕ} {s' : State} (hq : s.zombieOf p q = true) (h : (s.reap q).waited p = some s') :
      Does s (.wait p q) s'
  | waitFail {p : ℕ} {s' : State} (hp : s.childless p = true) (h : s.waited p = some s') :
      Does s (.waitFail p) s'

/-- Every step is one of `Does`. -/
theorem step_does (hw : Wf s) (h : step s a = some s') : Does s a s' := by
  cases a <;> simp only [step] at h
  case print p =>
    split at h
    · next hp => cases h; exact .move rfl hp .print nofun
    · next hp => cases h; exact .move rfl hp .printed nofun
    · cases h
  case read p line =>
    split at h
    · next hp => cases h; exact .move rfl hp (.read line) nofun
    · cases h
  case eof p =>
    split at h
    · next hp => cases h; exact .move rfl hp .eof nofun
    · cases h
  case malloc p ok =>
    split at h
    · next line hp =>
      cases h
      cases ok with
      | true => exact .move rfl hp (.parse line) nofun
      | false => exact .move rfl hp (.noMemory line) nofun
    · cases h
  case fork p ok =>
    split at h
    · next c hp =>
      cases ok with
      | true => cases h; exact .fork hp
      | false => cases h; exact .move rfl hp (.noFork c) nofun
    · split_ifs at h with hp
      cases h
      obtain ⟨hp, rfl⟩ := hp
      exact .progFork hp
  case exec p ok =>
    split at h
    · next c hp =>
      cases ok with
      | true => cases h; exact .exec hp
      | false => cases h; exact .move rfl hp (.noExec c) fun _ _ => rfl
    · cases h
  case wait p q =>
    split_ifs at h with hq
    exact .wait hq h
  case waitFail p =>
    split_ifs at h with hp
    exact .waitFail hp h
  case free p =>
    split at h
    · next hp => cases h; exact .move rfl hp (.free _) nofun
    · cases h
  case exit p =>
    split at h
    · next hp =>
      cases h
      obtain ⟨x, hx, ha, -⟩ := pc_eq_some.1 hp
      exact .exit hx ha (hw.ne_init hp) fun pc hpc => .inl (some.inj (hpc.symm.trans hp))
    · next hp =>
      cases h
      obtain ⟨x, hx, ha, -⟩ := pc_eq_some.1 hp
      exact .exit hx ha (hw.ne_init hp) fun pc hpc => .inr (some.inj (hpc.symm.trans hp))
    · split_ifs at h with hp
      cases h
      obtain ⟨x, hx, ha, -⟩ := inProgram_iff.1 hp.1
      exact .exit hx ha hp.2 fun pc hpc => nomatch (pc_of_inProgram hp.1).symm.trans hpc

theorem Wf.waited (h : Wf s) (hs : s.waited p = some s') : Wf s' := by
  rcases waited_eq_some hs with ⟨-, rfl⟩ | ⟨pc, k, hp, -, rfl⟩
  · exact h
  · exact h.goto hp k

theorem Wf.lt_births (hw : Wf s) (hp : s.pc p = some pc) : p < s.births := by
  obtain ⟨x, hx, -⟩ := pc_eq_some.1 hp
  exact hw.born p x hx

theorem Wf.pc_births (hw : Wf s) : s.pc s.births = none :=
  eq_none_iff_forall_ne_some.2 fun _ hp => lt_irrefl _ (hw.lt_births hp)

theorem Wf.pc_fork (h : Wf s) (hp : s.pc p = some pc) : (s.fork q code).pc p = some pc := by
  rw [pc_congr (fork_proc_ne (h.lt_births hp).ne), hp]

/-- A step keeps the table well formed. -/
theorem Wf.step (h : Wf s) (hs : step s a = some s') : Wf s' := by
  cases step_does h hs with
  | move _ hp => exact h.goto hp _
  | exec hp => exact h.modify hp _
  | @fork p c hp =>
    obtain ⟨x, hx, -⟩ := pc_eq_some.1 hp
    exact (h.fork hx _).goto (h.pc_fork hp) _
  | progFork hp =>
    obtain ⟨x, hx, -⟩ := inProgram_iff.1 hp
    exact h.fork hx _
  | exit hx ha hp => exact h.exit hp hx ha
  | wait hq hs => exact (h.reap hq).waited hs
  | waitFail _ hs => exact h.waited hs

/-- The table is well formed in every run. -/
theorem run_wf {labels : List Label} (h : run step start labels = some s) : Wf s :=
  run_invariant (fun _ _ _ h _ hs => Wf.step h hs) wf_start (along_true _ _) h

theorem pc_waited_ne (h : s.waited p = some s') (hq : q ≠ p) : s'.pc q = s.pc q := by
  rcases waited_eq_some h with ⟨-, rfl⟩ | ⟨pc, k, -, -, rfl⟩
  · rfl
  · exact pc_goto_ne hq

/-- A step moves no process but its own and a new one. -/
theorem pc_frame (hw : Wf s) (hs : step s a = some s') (hp : p ≠ a.actor) (hb : p ≠ s.births) :
    s'.pc p = s.pc p := by
  cases step_does hw hs with
  | move ha => exact pc_goto_ne (ha ▸ hp)
  | exec _ => exact pc_congr (modify_ne _ hp)
  | fork _ => exact (pc_goto_ne hp).trans (pc_congr (fork_proc_ne hb))
  | progFork _ => exact pc_congr (fork_proc_ne hb)
  | exit _ _ _ _ =>
    rw [pc_exit]
    exact if_neg hp
  | wait hq h => exact (pc_waited_ne h hp).trans (pc_reap hq p)
  | waitFail _ h => exact pc_waited_ne h hp

/-! ## Who reads -/

/-- In the loop of `main`, and not in the child's part of `process_normal`. -/
def Pc.inLoop : Pc → Bool
  | .exec _ => false
  | .failed => false
  | _ => true

/-- Process `p` executes the loop of `main`. -/
def State.inLoop (s : State) (p : ℕ) : Prop :=
  ∃ pc, s.pc p = some pc ∧ pc.inLoop = true

/-- A process in the loop stays in it. -/
theorem Moves.inLoop (h : Moves pc k) (hpc : pc.inLoop = true) : k.inLoop = true := by
  cases h with
  | printed => cases hpc
  | noExec c => cases hpc
  | read line =>
    unfold afterRead
    split_ifs <;> rfl
  | parse line =>
    unfold afterParse
    split_ifs <;> rfl
  | print => rfl
  | eof => rfl
  | noMemory line => rfl
  | noFork c => rfl
  | free child => rfl

theorem inLoop_afterFork (c : Cmd) (x : Option ℕ) : (afterFork c x).inLoop = true := by
  cases x with
  | none => rfl
  | some q =>
    simp only [afterFork]
    split_ifs <;> rfl

theorem inLoop_afterWait (h : afterWait pc = some k) : k.inLoop = true := by
  cases pc <;> cases h <;> rfl

/-- Only the shell that was started is in the loop, and it is nowhere else. -/
structure Solo (s : State) : Prop where
  shell : ∀ pc, s.pc sh = some pc → pc.inLoop = true
  child : ∀ p pc, p ≠ sh → s.pc p = some pc → ∃ c, pc = .exec c
  born : sh < s.births

theorem solo_start : Solo start := by
  refine ⟨fun pc h => ?_, fun p pc hp h => ?_, by decide⟩
  · cases h
    rfl
  · obtain ⟨x, hx, -, hc⟩ := pc_eq_some.1 h
    simp only [start] at hx
    split_ifs at hx
    cases hx
    cases hc

theorem Solo.goto (h : Solo s) (hsh : p = sh → k.inLoop = true)
    (hchild : p ≠ sh → ∃ c, k = .exec c) (hp : s.pc p = some pc) : Solo (s.goto p k) := by
  refine ⟨fun pc' h' => ?_, fun q pc' hq h' => ?_, h.born⟩
  · by_cases he : sh = p
    · rw [he, pc_goto hp] at h'
      exact some.inj h' ▸ hsh he.symm
    · rw [pc_goto_ne he] at h'
      exact h.shell pc' h'
  · by_cases he : q = p
    · subst he
      rw [pc_goto hp] at h'
      exact some.inj h' ▸ hchild hq
    · rw [pc_goto_ne he] at h'
      exact h.child q pc' hq h'

theorem Solo.of_pc (h : Solo s) (hb : s'.births = s.births)
    (hpc : ∀ q pc, s'.pc q = some pc → s.pc q = some pc) : Solo s' :=
  ⟨fun pc hp => h.shell pc (hpc sh pc hp), fun q pc hq hp => h.child q pc hq (hpc q pc hp),
    hb ▸ h.born⟩

theorem Solo.waited (h : Solo s) (hs : s.waited p = some s') : Solo s' := by
  rcases waited_eq_some hs with ⟨-, rfl⟩ | ⟨pc, k, hp, hk, rfl⟩
  · exact h
  · refine h.goto (fun _ => inLoop_afterWait hk) (fun hne => ?_) hp
    obtain ⟨c, rfl⟩ := h.child p pc hne hp
    cases hk

theorem pc_fork_new : (s.fork p code).pc s.births =
    match code with
    | .xvsh pc => some pc
    | .program => none := by
  rw [State.pc, fork_proc_new]
  cases code <;> rfl

theorem Solo.fork (h : Solo s) (hcode : ∀ pc, code = .xvsh pc → ∃ c, pc = .exec c) :
    Solo (s.fork p code) := by
  refine ⟨fun pc' h' => ?_, fun q pc' hq h' => ?_, h.born.trans (Nat.lt_succ_self _)⟩
  · rw [pc_congr (fork_proc_ne h.born.ne)] at h'
    exact h.shell pc' h'
  · by_cases he : q = s.births
    · rw [he, pc_fork_new] at h'
      cases code with
      | program => cases h'
      | xvsh pc => exact some.inj h' ▸ hcode pc rfl
    · rw [pc_congr (fork_proc_ne he)] at h'
      exact h.child q pc' hq h'

/-- A step puts no other process in the loop, unless `exec` fails. -/
theorem Solo.step (hw : Wf s) (h : Solo s) (ha : ∀ p, a ≠ .exec p false)
    (hs : step s a = some s') : Solo s' := by
  cases step_does hw hs with
  | @move _ p pc k _ hp hk hexec =>
    refine h.goto (fun he => hk.inLoop (h.shell pc (he ▸ hp))) (fun hne => ?_) hp
    obtain ⟨c, rfl⟩ := h.child p pc hne hp
    exact absurd (hexec c rfl) (ha p)
  | @exec p c hp =>
    refine h.of_pc rfl fun q pc' h' => ?_
    by_cases he : q = p
    · rw [he, pc_program] at h'
      cases h'
    · exact pc_congr (modify_ne _ he) ▸ h'
  | @fork p c hp =>
    have hp' : p = sh := by
      by_contra hne
      obtain ⟨c', hc⟩ := h.child p _ hne hp
      cases hc
    have hf : Solo (s.fork p (.xvsh (.exec c))) :=
      h.fork fun pc hpc => ⟨c, (Code.xvsh.inj hpc).symm⟩
    exact hf.goto (fun _ => inLoop_afterFork c _) (fun hne => absurd hp' hne) (hw.pc_fork hp)
  | progFork hp => exact h.fork nofun
  | @exit p x hx hal hp hpc =>
    refine h.of_pc rfl fun q pc' h' => ?_
    rw [pc_exit] at h'
    split_ifs at h'
    exact h'
  | wait hq hs =>
    have hr : Solo (s.reap _) := h.of_pc rfl fun r _ h' => pc_reap hq r ▸ h'
    exact hr.waited hs
  | waitFail _ hs => exact h.waited hs

/-- The shell runs on until it exits. -/
theorem shell_stays (hw : Wf s) (h : Solo s) (ha : a ≠ .exit sh) (hs : step s a = some s')
    (hpc : ∃ pc, s.pc sh = some pc) : ∃ pc, s'.pc sh = some pc := by
  obtain ⟨pc0, h0⟩ := hpc
  by_cases he : sh = a.actor
  swap
  · exact ⟨pc0, (pc_frame hw hs he (hw.lt_births h0).ne).trans h0⟩
  have hwaited : ∀ {s1 : State}, s1.pc sh = some pc0 → s1.waited sh = some s' →
      ∃ pc, s'.pc sh = some pc := by
    intro s1 h1 hs
    rcases waited_eq_some hs with ⟨-, rfl⟩ | ⟨pc, k, hp, -, rfl⟩
    · exact ⟨pc0, h1⟩
    · exact ⟨k, pc_goto hp⟩
  cases step_does hw hs with
  | move hact hp =>
    obtain rfl := he.trans hact
    exact ⟨_, pc_goto hp⟩
  | exec hp =>
    obtain rfl : sh = _ := he
    cases h.shell _ hp
  | fork hp =>
    obtain rfl : sh = _ := he
    exact ⟨_, pc_goto (hw.pc_fork hp)⟩
  | progFork hp => exact ⟨pc0, hw.pc_fork h0⟩
  | exit => exact absurd (congrArg Label.exit he.symm) ha
  | wait hq hs => exact hwaited ((pc_reap hq sh).trans h0) (he ▸ hs)
  | waitFail _ hs => exact hwaited h0 (he ▸ hs)

/-- While no `exec` fails, exactly one process is in the loop of `main`, until it exits. -/
theorem only_shell_reads (labels : List Label) (s : State) (h : run step start labels = some s)
    (hexec : ∀ p, .exec p false ∉ labels) :
    (∀ p, s.inLoop p → p = sh) ∧ (.exit sh ∉ labels → s.inLoop sh) := by
  have hC : Along step (fun _ a => ∀ p, a ≠ .exec p false) start labels :=
    along_of_forall fun a ha p he => hexec p (he ▸ ha)
  have hstep : ∀ js s a s', (Wf s ∧ Solo s ∧ (.exit sh ∉ js → ∃ pc, s.pc sh = some pc)) →
      (∀ p, a ≠ .exec p false) → step s a = some s' →
      Wf s' ∧ Solo s' ∧ (.exit sh ∉ js ++ [a] → ∃ pc, s'.pc sh = some pc) := by
    rintro js s a s' ⟨hw, hsolo, hstay⟩ ha hs
    refine ⟨hw.step hs, hsolo.step hw ha hs, fun hnot => ?_⟩
    rw [List.mem_append, List.mem_singleton, not_or] at hnot
    exact shell_stays hw hsolo (fun he => hnot.2 he.symm) hs (hstay hnot.1)
  obtain ⟨-, hsolo, hstay⟩ := run_history hstep
    (show Wf start ∧ Solo start ∧ (Label.exit sh ∉ [] → ∃ pc, start.pc sh = some pc) from
      ⟨wf_start, solo_start, fun _ => ⟨.prompt, rfl⟩⟩) hC h
  refine ⟨fun p hp => ?_, fun hnot => ?_⟩
  · obtain ⟨pc, hpc, hloop⟩ := hp
    by_contra hne
    obtain ⟨c, rfl⟩ := hsolo.child p pc hne hpc
    cases hloop
  · obtain ⟨pc, hpc⟩ := hstay hnot
    exact ⟨pc, hpc, hsolo.shell pc hpc⟩

def backLine : Line :=
  ⟨[120, SPACE, AMP], by simp [SPACE, AMP, NEWLINE], by decide⟩

def foreLine : Line :=
  ⟨[121], by simp [NEWLINE], by decide⟩

def exitLine : Line :=
  ⟨exitWord, by simp [exitWord, NEWLINE], by decide⟩

/-- Process `p` reads a line and gets to its `fork` or `wait`. -/
def readLine (p : ℕ) (line : Line) : List Label :=
  [.print p, .read p line, .malloc p true]

/-- A background command is started. -/
theorem only_shell_reads_two :
    (∃ s, run step start (readLine sh backLine ++ [.fork sh true, .exec 2 true]) = some s ∧
      (∀ p, s.inLoop p → p = sh) ∧
      (.exit sh ∉ readLine sh backLine ++ [.fork sh true, .exec 2 true] →
        s.inLoop sh)) :=
  ⟨_, rfl, only_shell_reads _ _ rfl (by simp [readLine])⟩

/-- The child of a background command that does not exist reads the next line, and so does
the shell. -/
theorem failed_child_reads : ∃ s, run step start (readLine sh backLine ++
    [.fork sh true, .exec 2 false, .print 2, .free 2, .print 2, .free sh, .print sh]) = some s ∧
      s.pc sh = some .read ∧ s.pc 2 = some .read ∧ s.inLoop sh ∧ s.inLoop 2 :=
  ⟨_, rfl, rfl, rfl, ⟨.read, rfl, rfl⟩, ⟨.read, rfl, rfl⟩⟩

/-! ## Children that are left -/

/-- The children of `p` that were not reaped yet. -/
def State.outstanding (s : State) (p : ℕ) : Set ℕ :=
  {q | ∃ x, s.proc q = some x ∧ x.creator = p ∧ x.status ≠ .reaped}

theorem outstanding_modify (r : ℕ) (code : Code) :
    (s.modify r fun x => { x with code := code }).outstanding p = s.outstanding p := by
  ext q
  by_cases hq : q = r
  · subst hq
    simp [State.outstanding, modify_same]
  · simp [State.outstanding, modify_ne _ hq]

theorem outstanding_goto (r : ℕ) : (s.goto r k).outstanding p = s.outstanding p :=
  outstanding_modify r _

theorem outstanding_fork (hw : Wf s) (r : ℕ) : (s.fork r code).outstanding p =
    if p = r then insert s.births (s.outstanding p) else s.outstanding p := by
  have hnone : s.proc s.births = none := by
    cases h : s.proc s.births with
    | none => rfl
    | some x => exact absurd (hw.born _ x h) (lt_irrefl _)
  ext q
  by_cases hq : q = s.births
  · subst hq
    by_cases hp : p = r
    · simp [State.outstanding, fork_proc_new, hp]
    · simp [State.outstanding, fork_proc_new, hp, hnone, Ne.symm hp]
  · by_cases hp : p = r <;> simp [State.outstanding, fork_proc_ne hq, hp, hq]

theorem outstanding_exit {r : ℕ} (hx : s.proc r = some x) (ha : x.status = .alive) :
    (s.exit r).outstanding p = s.outstanding p := by
  ext q
  by_cases hq : q = r
  · subst hq
    simp [State.outstanding, exit_proc, hx, ha]
  · simp [State.outstanding, exit_proc, hq]

theorem outstanding_reap (r : ℕ) : (s.reap r).outstanding p = s.outstanding p \ {r} := by
  ext q
  by_cases hq : q = r
  · subst hq
    simp [State.outstanding, State.reap, modify_same]
  · simp [State.outstanding, State.reap, modify_ne _ hq, hq]

theorem outstanding_waited {r : ℕ} (h : s.waited r = some s') :
    s'.outstanding p = s.outstanding p := by
  rcases waited_eq_some h with ⟨-, rfl⟩ | ⟨pc, k, -, -, rfl⟩
  · rfl
  · exact outstanding_goto r

theorem Wf.outstanding_of_zombie (hw : Wf s) (hq : s.zombieOf p q = true) (hp : p ≠ init) :
    q ∈ s.outstanding p := by
  obtain ⟨x, hx, hpar, hs⟩ := zombieOf_iff.1 hq
  refine ⟨x, hx, hw.parent q x p hx hpar hp, ?_⟩
  rw [hs]
  nofun

theorem Wf.outstanding_parent (hw : Wf s) (hp : s.pc p = some pc) (hq : q ∈ s.outstanding p) :
    ∃ x, s.proc q = some x ∧ x.parent = some p := by
  obtain ⟨x, hx, hc, hs⟩ := hq
  obtain ⟨y, hy, ha, -⟩ := pc_eq_some.1 hp
  refine ⟨x, hx, hw.child q x p y ?_ hx hc hs hy ha⟩
  rintro rfl
  obtain ⟨z, hz, -, -, hzc⟩ := hw.init_alive
  obtain rfl := some.inj (hx.symm.trans hz)
  exact hw.ne_init hp (hc.symm.trans hzc)

/-- A step changes the children of the process that takes it only. -/
theorem outstanding_frame (hw : Wf s) (hs : step s a = some s') (hp : s.pc p = some pc)
    (ha : p ≠ a.actor) : s'.outstanding p = s.outstanding p := by
  cases step_does hw hs with
  | move => exact outstanding_goto _
  | exec _ => exact outstanding_modify _ _
  | fork _ =>
    rw [outstanding_goto, outstanding_fork hw]
    exact if_neg ha
  | progFork _ =>
    rw [outstanding_fork hw]
    exact if_neg ha
  | exit hx hal => exact outstanding_exit hx hal
  | @wait r q _ hq h =>
    rw [outstanding_waited h, outstanding_reap, Set.sdiff_singleton_eq_self]
    intro hmem
    obtain ⟨x, hx, hpar⟩ := hw.outstanding_parent hp hmem
    obtain ⟨y, hy, hpar', -⟩ := zombieOf_iff.1 hq
    obtain rfl := some.inj (hx.symm.trans hy)
    exact ha (some.inj (hpar.symm.trans hpar'))
  | waitFail _ h => exact outstanding_waited h

theorem Wf.childless (hw : Wf s) (h : s.childless p = true) (hx : s.proc q = some x) :
    x.parent ≠ some p := by
  have hq := List.all_eq_true.1 h q (List.mem_range.2 (hw.born q x hx))
  simpa [hx] using hq

theorem Wf.outstanding_of_childless (hw : Wf s) (hp : s.pc p = some pc)
    (hc : s.childless p = true) : s.outstanding p = ∅ := by
  refine Set.eq_empty_of_forall_notMem fun q hq => ?_
  obtain ⟨x, hx, hpar⟩ := hw.outstanding_parent hp hq
  exact hw.childless hc hx hpar

/-! ## Foreground commands -/

/-- Process `q` was reaped. -/
def State.isReaped (s : State) (q : ℕ) : Prop :=
  ∃ x, s.proc q = some x ∧ x.status = .reaped

theorem isReaped_modify {r : ℕ} {f : Proc → Proc} (h : s.isReaped q)
    (hf : ∀ x, x.status = .reaped → (f x).status = .reaped) : (s.modify r f).isReaped q := by
  obtain ⟨x, hx, hs⟩ := h
  by_cases hq : q = r
  · subst hq
    exact ⟨f x, by rw [modify_same, hx]; rfl, hf x hs⟩
  · exact ⟨x, by rw [modify_ne _ hq, hx], hs⟩

theorem isReaped_fork (hw : Wf s) {r : ℕ} (h : s.isReaped q) : (s.fork r code).isReaped q := by
  obtain ⟨x, hx, hs⟩ := h
  exact ⟨x, by rw [fork_proc_ne (hw.born q x hx).ne, hx], hs⟩

theorem isReaped_waited {r : ℕ} (h : s.isReaped q) (hs : s.waited r = some s') : s'.isReaped q := by
  rcases waited_eq_some hs with ⟨-, rfl⟩ | ⟨pc, k, -, -, rfl⟩
  · exact h
  · exact isReaped_modify h fun _ => id

theorem isReaped_reap {r : ℕ} (h : s.isReaped q) : (s.reap r).isReaped q :=
  isReaped_modify h fun _ _ => rfl

/-- A process that was reaped stays so. -/
theorem isReaped_step (hw : Wf s) (hs : step s a = some s') (h : s.isReaped q) : s'.isReaped q := by
  cases step_does hw hs with
  | move => exact isReaped_modify h fun _ => id
  | exec _ => exact isReaped_modify h fun _ => id
  | fork _ => exact isReaped_modify (isReaped_fork hw h) fun _ => id
  | progFork _ => exact isReaped_fork hw h
  | @exit p x hx ha _ _ =>
    obtain ⟨y, hy, hs⟩ := h
    have hqp : q ≠ p := by
      rintro rfl
      obtain rfl := some.inj (hx.symm.trans hy)
      rw [ha] at hs
      cases hs
    exact ⟨_, by rw [exit_proc, hy]; rfl, by simp [hqp, hs]⟩
  | wait _ h' => exact isReaped_waited (isReaped_reap h) h'
  | waitFail _ h' => exact isReaped_waited h h'

theorem isReaped_of_zombie (hq : s.zombieOf p q = true) : (s.reap q).isReaped q := by
  obtain ⟨x, hx, -⟩ := zombieOf_iff.1 hq
  exact ⟨_, by rw [State.reap, modify_same, hx]; rfl, rfl⟩

/-- Where a process can be after a step of its own, or after the step that made it. -/
inductive Gets (s : State) (s' : State) (p : ℕ) : Label → Pc → Prop where
  | move {a : Label} {pc k : Pc} (hp : s.pc p = some pc) (hk : Moves pc k)
      (ho : s'.outstanding p = s.outstanding p) : Gets s s' p a k
  | fork {c : Cmd} (hp : s.pc p = some (.fork c))
      (ho : s'.outstanding p = insert s.births (s.outstanding p)) :
      Gets s s' p (.fork p true) (afterFork c (some s.births))
  | new {a : Label} (c : Cmd) (hb : p = s.births) : Gets s s' p a (.exec c)
  | wait {q : ℕ} {pc k : Pc} (hp : s.pc p = some pc) (hk : afterWait pc = some k)
      (hq : q ∈ s.outstanding p) (hr : s'.isReaped q)
      (ho : s'.outstanding p = s.outstanding p \ {q}) : Gets s s' p (.wait p q) k
  | waitFail {pc k : Pc} (hp : s.pc p = some pc) (hk : afterWait pc = some k)
      (hnone : s.outstanding p = ∅) (ho : s'.outstanding p = ∅) : Gets s s' p (.waitFail p) k

theorem pc_waited_births (hw : Wf s) (h : s.waited p = some s') : s'.pc s.births = none := by
  rcases waited_eq_some h with ⟨-, rfl⟩ | ⟨pc, k, hp, -, rfl⟩
  · exact hw.pc_births
  · rw [pc_goto_ne (hw.lt_births hp).ne', hw.pc_births]

/-- A new process is at `exec`. -/
theorem pc_new (hw : Wf s) (hs : step s a = some s') (hk : s'.pc s.births = some k) :
    ∃ c, k = .exec c := by
  cases step_does hw hs with
  | move _ hp =>
    rw [pc_goto_ne (hw.lt_births hp).ne', hw.pc_births] at hk
    cases hk
  | exec hp =>
    rw [pc_congr (modify_ne _ (hw.lt_births hp).ne'), hw.pc_births] at hk
    cases hk
  | @fork p c hp =>
    rw [pc_goto_ne (hw.lt_births hp).ne', pc_fork_new] at hk
    exact ⟨c, (some.inj hk).symm⟩
  | progFork _ =>
    rw [pc_fork_new] at hk
    cases hk
  | exit _ _ _ _ =>
    rw [pc_exit, hw.pc_births, ite_self] at hk
    cases hk
  | @wait p q _ hq h =>
    have hnone : s'.pc (s.reap q).births = none := pc_waited_births (hw.reap hq) h
    exact nomatch hnone.symm.trans hk
  | waitFail _ h =>
    rw [pc_waited_births hw h] at hk
    cases hk

/-- A process that runs the shell is where it was, with its children, or it took the step. -/
theorem gets (hw : Wf s) (hs : step s a = some s') (hk : s'.pc p = some k) :
    s.pc p = some k ∧ s'.outstanding p = s.outstanding p ∨ Gets s s' p a k := by
  by_cases hb : p = s.births
  · subst hb
    obtain ⟨c, rfl⟩ := pc_new hw hs hk
    exact .inr (.new c rfl)
  by_cases hp : p = a.actor
  swap
  · have hpc := (pc_frame hw hs hp hb).symm.trans hk
    exact .inl ⟨hpc, outstanding_frame hw hs hpc hp⟩
  refine .inr ?_
  cases step_does hw hs with
  | move ha hpc hm =>
    obtain rfl : p = _ := hp.trans ha
    rw [pc_goto hpc] at hk
    cases hk
    exact .move hpc hm (outstanding_goto _)
  | exec _ =>
    obtain rfl : p = _ := hp
    rw [pc_program] at hk
    cases hk
  | fork hpc =>
    obtain rfl : p = _ := hp
    rw [pc_goto (hw.pc_fork hpc)] at hk
    cases hk
    refine .fork hpc ?_
    rw [outstanding_goto, outstanding_fork hw, if_pos rfl]
  | progFork hpr =>
    obtain rfl : p = _ := hp
    rw [pc_congr (fork_proc_ne hb), pc_of_inProgram hpr] at hk
    cases hk
  | exit _ _ _ _ =>
    obtain rfl : p = _ := hp
    rw [pc_exit, if_pos rfl] at hk
    cases hk
  | wait hq h =>
    obtain rfl : p = _ := hp
    rcases waited_eq_some h with ⟨hpr, rfl⟩ | ⟨pc, k', hpc, hk', rfl⟩
    · rw [pc_of_inProgram hpr] at hk
      cases hk
    · rw [pc_goto hpc] at hk
      cases hk
      rw [pc_reap hq] at hpc
      refine .wait hpc hk' (hw.outstanding_of_zombie hq (hw.ne_init hpc))
        (isReaped_waited (isReaped_of_zombie hq) h) ?_
      rw [outstanding_goto, outstanding_reap]
  | waitFail hc h =>
    obtain rfl : p = _ := hp
    rcases waited_eq_some h with ⟨hpr, rfl⟩ | ⟨pc, k', hpc, hk', rfl⟩
    · rw [pc_of_inProgram hpr] at hk
      cases hk
    · rw [pc_goto hpc] at hk
      cases hk
      have hnone := hw.outstanding_of_childless hpc hc
      exact .waitFail hpc hk' hnone ((outstanding_goto _).trans hnone)

/-- A foreground command is started only when no other child is left. -/
def alone (s : State) : Label → Bool
  | .fork p true =>
    match s.pc p with
    | some (.fork c) => 1 ≤ c.bg || s.childless p
    | _ => true
  | _ => true

theorem childless_of_alone {cmd : Cmd} (h : alone s (.fork p true) = true)
    (hp : s.pc p = some (.fork cmd)) (hbg : cmd.bg < 1) : s.childless p = true := by
  have hbg' : ¬1 ≤ cmd.bg := Nat.not_le.2 hbg
  simpa [alone, hp, hbg'] using h

/-- The child that a shell waits for is the only one, and the one it waited for was reaped. -/
structure Foreground (s : State) : Prop where
  wait : ∀ p c, s.pc p = some (.wait c) → s.outstanding p = {c}
  back : ∀ p c, s.pc p = some (.back (some c)) → s.isReaped c

theorem foreground_start : Foreground start := by
  have h : ∀ p pc, start.pc p = some pc → pc = .prompt := by
    intro p pc hp
    obtain ⟨x, hx, -, hc⟩ := pc_eq_some.1 hp
    simp only [start] at hx
    split_ifs at hx <;> cases hx <;> cases hc
    rfl
  exact ⟨fun p c hp => (nomatch h p _ hp), fun p c hp => (nomatch h p _ hp)⟩

theorem Moves.ne_wait (h : Moves pc k) : k ≠ .wait c ∧ k ≠ .back (some c) := by
  cases h with
  | read line =>
    unfold afterRead
    split_ifs <;> exact ⟨nofun, nofun⟩
  | parse line =>
    unfold afterParse
    split_ifs <;> exact ⟨nofun, nofun⟩
  | print | printed | eof | noMemory | noFork | noExec | free => exact ⟨nofun, nofun⟩

/-- A step that starts foreground commands alone keeps this. -/
theorem Foreground.step (hw : Wf s) (h : Foreground s) (ha : alone s a = true)
    (hs : step s a = some s') :
    Foreground s' := by
  refine ⟨fun p c hk => ?_, fun p c hk => ?_⟩
  · rcases gets hw hs hk with ⟨hpc, ho⟩ | hg
    · exact ho.trans (h.wait p c hpc)
    generalize hk' : Pc.wait c = k at hg
    cases hg with
    | move _ hm => exact absurd hk'.symm hm.ne_wait.1
    | @fork cmd hpc ho =>
      by_cases hbg : cmd.bg < 1
      · rw [afterFork, if_pos hbg] at hk'
        rw [ho, hw.outstanding_of_childless hpc (childless_of_alone ha hpc hbg), Pc.wait.inj hk']
        exact insert_empty_eq _
      · rw [afterFork, if_neg hbg] at hk'
        cases hk'
    | new => cases hk'
    | @wait q pc _ _ hk => subst hk'; cases pc <;> cases hk
    | @waitFail pc _ _ hk => subst hk'; cases pc <;> cases hk
  · rcases gets hw hs hk with ⟨hpc, -⟩ | hg
    · exact isReaped_step hw hs (h.back p c hpc)
    generalize hk' : Pc.back (some c) = k at hg
    cases hg with
    | move _ hm => exact absurd hk'.symm hm.ne_wait.2
    | fork =>
      rw [afterFork] at hk'
      split_ifs at hk'
      cases hk'
    | new => cases hk'
    | @wait q pc _ hpc hk hq hr =>
      subst hk'
      cases pc <;> cases hk
      rw [h.wait p c hpc] at hq
      exact Set.mem_singleton_iff.1 hq ▸ hr
    | @waitFail pc _ hpc hk hnone =>
      subst hk'
      cases pc <;> cases hk
      rw [h.wait p c hpc] at hnone
      exact absurd hnone (Set.singleton_ne_empty c)

/-- Where a foreground command is started only when no other child is left, its child has
exited and was reaped when `process_normal` has returned. -/
theorem foreground_reaped (labels : List Label) (s : State) (h : run step start labels = some s)
    (ha : Along step (fun s a => alone s a = true) start labels) (p c : ℕ)
    (hp : s.pc p = some (.back (some c))) :
    s.isReaped c := by
  have hI := run_invariant (I := fun s => Wf s ∧ Foreground s)
    (fun s a s' hI ha hs => ⟨hI.1.step hs, hI.2.step hI.1 ha hs⟩) ⟨wf_start, foreground_start⟩ ha h
  exact hI.2.back p c hp

/-- The shell runs `y` in the foreground, and its child exits and is reaped. -/
def foreRun : List Label :=
  readLine sh foreLine ++ [.fork sh true, .exec 2 true, .exit 2, .wait sh 2]

/-- The command `y` is waited for. -/
theorem foreground_reaped_one : ∃ s, run step start foreRun = some s ∧
    Along step (fun s a => alone s a = true) start foreRun ∧ s.pc sh = some (.back (some 2)) ∧
      s.isReaped 2 := by
  have ha : Along step (fun s a => alone s a = true) start foreRun := by decide
  exact ⟨_, rfl, ha, rfl, foreground_reaped foreRun _ rfl ha sh 2 rfl⟩

/-- A background command ends while the shell starts `y` in the foreground : `wait` returns
it, and `process_normal` has returned with the child for `y` still running. -/
theorem background_reaped_instead : ∃ s, run step start (readLine sh backLine ++
    [.fork sh true, .exec 2 true, .free sh] ++ readLine sh foreLine ++
      [.fork sh true, .exec 3 true, .exit 2, .wait sh 2]) = some s ∧
      s.pc sh = some (.back (some 3)) ∧ s.inProgram 3 = true ∧ ¬s.isReaped 3 := by
  refine ⟨_, rfl, rfl, rfl, ?_⟩
  rintro ⟨x, hx, hs⟩
  cases hx
  cases hs

/-! ## `exit` -/

/-- What is left of the children `T` that a shell had when it came to the `wait` before
`exit`. -/
inductive Leaving (T : Set ℕ) (s : State) (p : ℕ) : Prop where
  | waits (hp : s.pc p = some .exitWait) (ho : s.outstanding p = T)
  | waited (hp : s.pc p = some .exitCmd)
      (ho : T = ∅ ∧ s.outstanding p = ∅ ∨ ∃ q ∈ T, s.outstanding p = T \ {q})
  | gone (hp : s.pc p = none) (hb : p < s.births)

theorem births_waited (h : s.waited p = some s') : s'.births = s.births := by
  rcases waited_eq_some h with ⟨-, rfl⟩ | ⟨pc, k, -, -, rfl⟩ <;> rfl

theorem births_step (hw : Wf s) (hs : step s a = some s') : s.births ≤ s'.births := by
  cases step_does hw hs with
  | fork _ => exact Nat.le_succ _
  | progFork _ => exact Nat.le_succ _
  | wait hq h => exact (births_waited h).ge
  | waitFail _ h => exact (births_waited h).ge
  | move => exact le_rfl
  | exec _ => exact le_rfl
  | exit _ _ _ _ => exact le_rfl

/-- A step keeps this, to the `exit` and after it. -/
theorem Leaving.step {T : Set ℕ} (hw : Wf s) (h : Leaving T s p) (hs : step s a = some s') :
    Leaving T s' p := by
  have hb : p < s.births := by
    cases h with
    | waits hp => exact hw.lt_births hp
    | waited hp => exact hw.lt_births hp
    | gone _ hb => exact hb
  cases hk : s'.pc p with
  | none => exact .gone hk (hb.trans_le (births_step hw hs))
  | some k =>
    rcases gets hw hs hk with ⟨hpc, ho⟩ | hg
    · cases h with
      | waits hp hT => exact .waits (hk.trans (hpc.symm.trans hp)) (ho.trans hT)
      | waited hp hT =>
        refine .waited (hk.trans (hpc.symm.trans hp)) ?_
        rwa [ho]
      | gone hp => exact nomatch hpc.symm.trans hp
    -- a step of its own : from the `wait` it gets to the `exit`, and from there nowhere
    cases h with
    | waits hp hT =>
      cases hg with
      | move hpc hm => cases hpc.symm.trans hp; cases hm
      | fork hpc => cases hpc.symm.trans hp
      | new _ hb' => exact absurd hb' hb.ne
      | wait hpc hk' hq _ ho =>
        cases hpc.symm.trans hp
        cases hk'
        exact .waited hk (.inr ⟨_, hT ▸ hq, hT ▸ ho⟩)
      | waitFail hpc hk' hnone ho =>
        cases hpc.symm.trans hp
        cases hk'
        exact .waited hk (.inl ⟨hT ▸ hnone, ho⟩)
    | waited hp =>
      cases hg with
      | move hpc hm => cases hpc.symm.trans hp; cases hm
      | fork hpc => cases hpc.symm.trans hp
      | new _ hb' => exact absurd hb' hb.ne
      | wait hpc hk' => cases hpc.symm.trans hp; cases hk'
      | waitFail hpc hk' => cases hpc.symm.trans hp; cases hk'
    | gone hp =>
      cases hg with
      | move hpc | fork hpc | wait hpc | waitFail hpc => cases hpc.symm.trans hp
      | new _ hb' => exact absurd hb' hb.ne

/-- The shell calls `exit` for the command `exit` with all its children reaped exactly if at
most one was left when it called `wait`. -/
theorem exit_reaps_all_iff (labels labels' : List Label) (s s' : State) (p : ℕ)
    (h : run step start labels = some s) (hp : s.pc p = some .exitWait)
    (h' : run step s labels' = some s') (hp' : s'.pc p = some .exitCmd) :
    s'.outstanding p = ∅ ↔ (s.outstanding p).Subsingleton := by
  obtain ⟨-, hI⟩ := run_invariant (I := fun s1 => Wf s1 ∧ Leaving (s.outstanding p) s1 p)
    (fun s1 a s2 hI _ hs => ⟨hI.1.step hs, hI.2.step hI.1 hs⟩) ⟨run_wf h, .waits hp rfl⟩
    (along_true _ _) h'
  cases hI with
  | waits hp1 => cases hp'.symm.trans hp1
  | gone hp1 => cases hp'.symm.trans hp1
  | waited _ ho =>
    rcases ho with ⟨hT, ho⟩ | ⟨q, hq, ho⟩
    · simp [hT, ho]
    · rw [ho, Set.sdiff_eq_empty]
      exact ⟨fun hsub => Set.subsingleton_singleton.anti hsub, fun hT r hr => hT hr hq⟩

/-- The shell has a background command running, and reads `exit`. -/
def exitRun : List Label :=
  readLine sh backLine ++ [.fork sh true, .exec 2 true, .free sh] ++ readLine sh exitLine

/-- The background command ends, and is reaped. -/
theorem exit_reaps_all_iff_one : ∃ s s', run step start exitRun = some s ∧
    s.pc sh = some .exitWait ∧ run step s [.exit 2, .wait sh 2] = some s' ∧
      s'.pc sh = some .exitCmd ∧ (s'.outstanding sh = ∅ ↔ (s.outstanding sh).Subsingleton) :=
  ⟨_, _, rfl, rfl, rfl, rfl,
    exit_reaps_all_iff exitRun [.exit 2, .wait sh 2] _ _ sh rfl rfl rfl rfl⟩

/-- With two background commands running, one ends and the shell calls `exit`. -/
theorem exit_leaves_child : ∃ s, run step start (readLine sh backLine ++
    [.fork sh true, .exec 2 true, .free sh] ++ readLine sh backLine ++
      [.fork sh true, .exec 3 true, .free sh] ++ readLine sh exitLine ++
      [.exit 2, .wait sh 2]) = some s ∧
      s.pc sh = some .exitCmd ∧ 3 ∈ s.outstanding sh ∧ s.inProgram 3 = true :=
  ⟨_, rfl, rfl, ⟨_, rfl, rfl, nofun⟩, rfl⟩

end Xv6.Xvsh
