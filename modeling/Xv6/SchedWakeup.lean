import Xv6.SchedSafety

/-!
# No wakeup is lost

A process tests a condition with a lock held and calls `sleep` with that lock. Until it is
marked asleep it holds that lock, or it has `ptable.lock` (`Drowsy`). A thread that acquires
the lock after the test therefore comes after the release of it, and its `wakeup`, which
needs `ptable.lock`, comes after the process is marked asleep (`wakeup_finds_sleeper`).

`By` says what a step of one CPU can do to the rest : to a slot it is not on the stack of
(`Aside`), and to the record of which threads acquired the lock after the test.
-/

set_option linter.unusedSectionVars false

open Transition Option List

namespace Xv6.Sched

open Ptable (Slot ProcState Chan)

variable {C : Type*} [DecidableEq C]

/-! ## What a step can do to the rest -/

/-- What a step of another thread can do to a slot. -/
structure Aside (x y : Proc) : Prop where
  chan : y.chan = x.chan
  episode : y.episode = x.episode
  code : y.code = x.code ∨ x.state ≠ .running ∧ y.code = forkret
  state : y.state = x.state ∧ y.woken = x.woken ∨
    x.state = .sleeping ∧ y.state ≠ .sleeping ∧ y.woken = true ∨
    (x.state ≠ .sleeping ∧ x.state ≠ .running) ∧ y.state ≠ .sleeping ∧ y.woken = x.woken

/-- What a step of CPU `c` can do to the rest. -/
structure By (s s' : State C) (c : C) : Prop where
  cpu : ∀ c', c' ≠ c → s'.cpu c' = s.cpu c'
  holder : ∀ l c', c' ≠ c → s.holder l = some c' → s'.holder l = some c'
  fresh : ∀ t q, s'.fresh t q = true → s.fresh t q = true ∨
    ∃ lk, (s.proc q).episode.map Prod.snd = some lk ∧ s.holder lk = none
  aside : ∀ q, (s.cpu c).on ≠ some q → Aside (s.proc q) (s'.proc q)

section

variable {strict : Prop} {s s' : State C} {c : C} {p q : Slot} {i : Instr} {k : List Instr}
  {choice : Choice}

theorem Aside.refl (x : Proc) : Aside x x :=
  ⟨rfl, rfl, .inl rfl, .inl ⟨rfl, rfl⟩⟩

theorem Aside.wake (x : Proc) : Aside x x.wake := by
  unfold Proc.wake
  split
  · next h => exact ⟨rfl, rfl, .inl rfl, .inr (.inl ⟨h, by simp, rfl⟩)⟩
  · exact .refl x

theorem By.of_slot (hcpu : ∀ c', c' ≠ c → s'.cpu c' = s.cpu c') (hholder : s'.holder = s.holder)
    (hfresh : ∀ t q, s'.fresh t q = true → s.fresh t q = true)
    (hproc : ∀ q', q' ≠ q → (s.cpu c).on ≠ some q' → s'.proc q' = s.proc q')
    (hq : (s.cpu c).on ≠ some q → Aside (s.proc q) (s'.proc q)) : By s s' c where
  cpu := hcpu
  holder l c' _ h := by rw [hholder, h]
  fresh t q h := .inl (hfresh t q h)
  aside q' hon := by
    by_cases he : q' = q
    · subst he
      exact hq hon
    · rw [hproc q' he hon]
      exact .refl _

/-- The thread on CPU `c` goes on with other instructions after a step. -/
theorem By.setCode (h : By s s' c) (hon : (s'.cpu c).on = (s.cpu c).on) (k : List Instr) :
    By s (s'.setCode c k) c where
  cpu c' hc := by
    rcases setCode_cpu (s := s') (c := c) (k := k) c' with h' | h'
    · rw [h', h.cpu c' hc]
    · exact absurd h'.2.1 hc
  holder l c' hc hl := by
    rw [setCode_holder]
    exact h.holder l c' hc hl
  fresh t q hq := by
    refine h.fresh t q ?_
    unfold State.setCode at hq
    split at hq <;> exact hq
  aside q hq := by
    rcases setCode_proc (s := s') (c := c) (k := k) q with h' | h'
    · rw [h'.1]
      exact h.aside q hq
    · exact absurd (hon ▸ h'.1) hq

theorem By.modCpu (h : By s s' c) (f : Cpu → Cpu) : By s (s'.modCpu c f) c where
  cpu c' hc := by rw [modCpu_of_ne hc, h.cpu c' hc]
  holder := h.holder
  fresh := h.fresh
  aside := h.aside

theorem By.refl : By s s c :=
  ⟨fun _ _ => rfl, fun _ _ _ h => h, fun _ _ => .inl, fun _ _ => .refl _⟩

theorem By.modProc (hon : (s.cpu c).on = some p) (g : Proc → Proc) : By s (s.modProc p g) c :=
  .of_slot (q := p) (fun _ _ => rfl) rfl (fun _ _ => id) (fun _ hq _ => modProc_of_ne hq)
    fun hp => absurd hon hp

theorem By.modProc_modProc (hon : (s.cpu c).on = some p) {f : Proc → Proc} (g : Proc → Proc)
    (hf : Aside (s.proc q) (f (s.proc q))) : By s ((s.modProc q f).modProc p g) c := by
  have hne : ∀ q', (s.cpu c).on ≠ some q' → q' ≠ p := fun q' hq he => hq (he ▸ hon)
  refine .of_slot (q := q) (fun _ _ => rfl) rfl (fun _ _ => id) (fun q' hq hon' => ?_) fun hq => ?_
  · rw [modProc_of_ne (hne q' hon'), modProc_of_ne hq]
  · rw [modProc_of_ne (hne q hq), modProc_self]
    exact hf

theorem By.slot (c : C) {g : Proc → Proc} (hg : Aside (s.proc q) (g (s.proc q))) :
    By s (s.modProc q g) c :=
  .of_slot (q := q) (fun _ _ => rfl) rfl (fun _ _ => id) (fun _ hq _ => modProc_of_ne hq)
    fun _ => by simpa using hg

theorem By.test (hon : (s.cpu c).on = some p) (ch : Chan) (lk : Lock) (g : Proc → Proc) :
    By s ((s.test p ch lk).modProc p g) c := by
  refine .of_slot (q := p) (fun _ _ => rfl) rfl (fun t q hq => ?_) (fun q hq _ => ?_)
    fun hp => absurd hon hp
  · simp only [State.modProc, State.test] at hq
    split at hq
    · cases hq
    · exact hq
  · simp [modProc_of_ne hq, test_proc, hq]

theorem By.lock {l : Lock} (hs : s.lock c l = some s') : By s s' c := by
  obtain ⟨hfree, rfl⟩ := enabled hs
  refine ⟨fun _ _ => rfl, fun l' c' _ h => ?_, fun t q hq => ?_, fun _ _ => .refl _⟩
  · have hne : l' ≠ l := by
      rintro rfl
      simp [hfree] at h
    simpa [hne] using h
  · simp only [Function.update_apply] at hq
    split at hq
    · next ht =>
      subst ht
      simp only [Bool.or_eq_true, decide_eq_true_eq] at hq
      exact hq.imp_right fun h => ⟨l, h, hfree⟩
    · exact .inl hq

theorem By.unlock {l : Lock} (hs : s.unlock c l = some s') : By s s' c := by
  obtain ⟨hheld, rfl⟩ := enabled hs
  refine ⟨fun _ _ => rfl, fun l' c' hc h => ?_, fun _ _ => .inl, fun _ _ => .refl _⟩
  have hne : l' ≠ l := by
    rintro rfl
    exact hc (some.inj (h.symm.trans hheld))
  simpa [hne] using h

theorem lock_on {l : Lock} (hs : s.lock c l = some s') : s'.cpu = s.cpu ∧ s'.proc = s.proc := by
  obtain ⟨-, rfl⟩ := enabled hs
  exact ⟨rfl, rfl⟩

theorem unlock_on {l : Lock} (hs : s.unlock c l = some s') : s'.cpu = s.cpu ∧ s'.proc = s.proc := by
  obtain ⟨-, rfl⟩ := enabled hs
  exact ⟨rfl, rfl⟩

theorem execProc_by (hf : Forks s) (hon : (s.cpu c).on = some p)
    (hs : execProc s c p choice k i = some s') : By s s' c := by
  cases i with
  | setChan | setState | saveIntena | save => cases hs; exact .modProc hon _
  | check =>
    replace hs := enabled hs
    exact hs.2 ▸ .modProc hon _
  | load => cases hs; exact (By.modProc hon _).modCpu _
  | restoreIntena => cases hs; exact (By.modProc hon _).modCpu _
  | alloc =>
    cases choice with
    | slot q =>
      replace hs := enabled hs
      refine hs.2 ▸ .modProc_modProc hon _ ⟨rfl, rfl, .inl rfl, .inr (.inr ?_)⟩
      simp [hs.1]
    | none => cases hs; exact .modProc hon _
    | sleep => cases hs; exact .modProc hon _
  | setup =>
    cases hnp : (s.proc p).np with
    | none => simp [execProc, hnp] at hs
    | some q =>
      have hq := hf.embryo p q hnp
      have hfail : By s ((s.modProc q fun x => { x with state := .unused }).modProc p fun x =>
          { x with np := none, code := k }) c :=
        .modProc_modProc hon _ ⟨rfl, rfl, .inl rfl, .inr (.inr (by simp [hq]))⟩
      cases choice <;> simp only [execProc, hnp, some.injEq] at hs <;> subst hs
      · exact hfail
      · exact .modProc_modProc hon _
          ⟨rfl, rfl, .inr ⟨by simp [hq], rfl⟩, .inl ⟨rfl, rfl⟩⟩
      · exact hfail
  | ready =>
    cases hnp : (s.proc p).np with
    | none => simp [execProc, hnp] at hs
    | some q =>
      simp only [execProc, hnp, some.injEq] at hs
      refine hs ▸ .modProc_modProc hon _ ⟨rfl, rfl, .inl rfl, .inr (.inr ?_)⟩
      simp [hf.embryo p q hnp]
  | scan =>
    cases choice with
    | slot q =>
      replace hs := enabled hs
      refine hs.2 ▸ .modProc_modProc hon _ ⟨rfl, rfl, .inl rfl, .inr (.inr ?_)⟩
      simp [hs.1]
    | none => cases hs; exact .modProc hon _
    | sleep => cases hs; exact .test hon _ _ _
  | _ => cases hs

theorem exec_by (hf : Forks s) (hs : exec s c choice k i = some s') : By s s' c := by
  cases i with
  | pushcli => cases hs; exact (By.refl.setCode rfl k).modCpu _
  | popcli =>
    obtain ⟨y, hy, rfl⟩ := map_eq_some_iff.1 hs
    obtain ⟨-, rfl⟩ := popcli_eq_some hy
    exact (By.refl.modCpu _).setCode (by simp) k
  | lock l =>
    obtain ⟨s1, hs1, rfl⟩ := map_eq_some_iff.1 hs
    exact (By.lock hs1).setCode (by rw [(lock_on hs1).1]) k
  | unlock l =>
    obtain ⟨s1, hs1, rfl⟩ := map_eq_some_iff.1 hs
    exact (By.unlock hs1).setCode (by rw [(unlock_on hs1).1]) k
  | wake ch q =>
    cases hs
    split
    · exact (By.slot c (.wake _)).setCode rfl k
    · exact By.refl.setCode rfl k
  | kill q =>
    cases hs
    obtain ⟨h1, h2, h3, h4⟩ := Aside.wake (s.proc q)
    have hk : Aside (s.proc q) { (s.proc q).wake with killed := true } := ⟨h1, h2, h3, h4⟩
    exact (By.slot (g := fun x => { x.wake with killed := true }) c hk).setCode rfl k
  | tick => cases hs; exact By.refl.setCode rfl _
  | iret =>
    replace hs := enabled hs
    exact hs.2 ▸ (By.refl.setCode rfl k).modCpu _
  | _ =>
    obtain ⟨p, hon, hs⟩ := of_on (f := fun p => Sched.execProc s c p choice k _) hs
    exact execProc_by hf hon hs

theorem schedStep_by (h : Inv strict s) (hon : (s.cpu c).on = none)
    (hcode : (s.cpu c).code = []) (hs : schedStep s c = some s') : By s s' c := by
  obtain ⟨H, hc⟩ := h.cpu c
  obtain ⟨-, -, hserves⟩ := hc.sched hon hcode
  cases hpc : (s.cpu c).pc with
  | lock =>
    simp only [schedStep, hpc] at hs
    obtain ⟨s1, hs1, rfl⟩ := map_eq_some_iff.1 hs
    exact (By.lock hs1).modCpu _
  | unlock =>
    simp only [schedStep, hpc] at hs
    obtain ⟨s1, hs1, rfl⟩ := map_eq_some_iff.1 hs
    exact (By.unlock hs1).modCpu _
  | uvmPop | popcli =>
    simp only [schedStep, hpc] at hs
    obtain ⟨y, -, rfl⟩ := map_eq_some_iff.1 hs
    exact By.refl.modCpu _
  | run p =>
    simp only [schedStep, hpc, some.injEq] at hs
    subst hs
    rw [hpc] at hserves
    refine (By.slot c ⟨rfl, rfl, .inl rfl, .inr (.inr ?_)⟩).modCpu _
    simp [hserves.2]
  | load p =>
    simp only [schedStep, hpc, some.injEq] at hs
    exact hs ▸ (By.slot c ⟨rfl, rfl, .inl rfl, .inl ⟨rfl, rfl⟩⟩).modCpu _
  | _ =>
    simp only [schedStep, hpc, some.injEq] at hs
    exact hs ▸ By.refl.modCpu _

/-- The CPU that takes a step. -/
def Label.cpu : Label C → C
  | .exec c _ | .call c _ | .interrupt c _ _ _ | .sched c | .pick c _ => c

/-- Every step is one of `By`. -/
theorem step_by (h : Inv strict s) {a : Label C} (hs : step s a = some s') : By s s' a.cpu := by
  cases a with
  | exec c choice =>
    simp only [step] at hs
    split at hs
    · cases hs
    · exact exec_by h.forks hs
  | call c f =>
    simp only [step] at hs
    split at hs
    · next p hon =>
      replace hs := enabled hs
      refine hs.2 ▸ ?_
      cases f with
      | sleep ch n => exact .test hon _ _ _
      | _ => exact .modProc hon _
    · cases hs
  | interrupt c lk wakes timer =>
    replace hs := enabled hs
    exact hs.2 ▸ (By.refl.setCode rfl _).modCpu _
  | sched c =>
    simp only [step, ite_none_right_eq_some] at hs
    exact schedStep_by h hs.1.1 hs.1.2 hs.2
  | pick c p =>
    replace hs := enabled hs
    exact hs.2 ▸ By.refl.modCpu _

end

/-! ## On the way to sleep -/

/-- `sleep` up to where the process is marked asleep. -/
def doze (ch : Chan) (lk : Lock) : List Instr :=
  (if lk = .ptable then [] else acquire .ptable ++ release lk) ++
    [.setChan (some ch), .setState .sleeping]

/-- `sleep` after that. -/
def arise (lk : Lock) : List Instr :=
  sched ++ .setChan none :: if lk = .ptable then [] else release .ptable ++ acquire lk

theorem sleep_eq (ch : Chan) (lk : Lock) : sleep ch lk = doze ch lk ++ arise lk := by
  by_cases h : lk = .ptable <;> simp [sleep, doze, arise, goToSleep, h]

/-- Process `p` has tested and called `sleep`, and has still to execute `d` before it is
marked asleep : it holds its lock until it releases it, no thread has acquired that lock
since the test, and it holds `ptable.lock` from where it acquires it. -/
structure Drowsy (s : State C) (p : Slot) (ch : Chan) (lk : Lock) (c : C) (d k : List Instr) :
    Prop where
  episode : (s.proc p).episode = some (ch, lk)
  on : (s.cpu c).on = some p
  code : (s.proc p).code = d ++ k
  suffix : d <:+ doze ch lk
  ne_nil : d ≠ []
  rest : .setState .sleeping ∉ k
  held : .unlock lk ∈ d → s.holder lk = some c ∧ ∀ t, s.fresh t p = false
  ptable : .lock .ptable ∉ d → s.holder .ptable = some c
  chan : d = [.setState .sleeping] → (s.proc p).chan = some ch
  state : (s.proc p).state = .running
  woken : (s.proc p).woken = false

/-- Since its last test, process `p` has been marked asleep, and it sleeps on its channel
unless it has been woken. -/
def Slept (x : Proc) : Prop :=
  .setState .sleeping ∉ x.code ∧ ∀ ch lk, x.episode = some (ch, lk) →
    x.woken = true ∨ x.state = .sleeping ∧ x.chan = some ch

/-- What holds of the sleepers in every state of a run. -/
structure Watch (s : State C) : Prop where
  asleep : ∀ p, (∃ ch lk c d k, Drowsy s p ch lk c d k) ∨ Slept (s.proc p)
  woken : ∀ p, (s.proc p).woken = true → (s.proc p).state ≠ .sleeping

section

variable {strict : Prop} {s s' : State C} {c c' : C} {p q : Slot} {ch : Chan} {lk : Lock}
  {d k : List Instr} {i : Instr} {choice : Choice}

theorem suffix_doze (h : d <:+ doze ch lk) (hd : d ≠ []) :
    d = [.setState .sleeping] ∨ d = [.setChan (some ch), .setState .sleeping] ∨
      lk ≠ .ptable ∧
        (d = [.popcli, .setChan (some ch), .setState .sleeping] ∨
          d = [.unlock lk, .popcli, .setChan (some ch), .setState .sleeping] ∨
          d = [.lock .ptable, .unlock lk, .popcli, .setChan (some ch), .setState .sleeping] ∨
          d = doze ch lk) := by
  by_cases hlk : lk = .ptable
  · simp only [doze, hlk, if_true, nil_append, suffix_cons_iff, suffix_nil] at h
    grind
  · simp only [doze, hlk, if_false, acquire, release, cons_append, nil_append,
      suffix_cons_iff, suffix_nil] at h ⊢
    grind

theorem Drowsy.holds (h : Drowsy s p ch lk c d k) : ∃ l, s.holder l = some c := by
  by_cases hl : Instr.lock .ptable ∈ d
  · refine ⟨lk, (h.held ?_).1⟩
    rcases suffix_doze h.suffix h.ne_nil with rfl | rfl | ⟨hlk, rfl | rfl | rfl | rfl⟩ <;>
      simp_all [doze, release]
  · exact ⟨.ptable, h.ptable hl⟩

theorem Drowsy.frame (h : Drowsy s p ch lk c d k) (hby : By s s' c') (hc : c' ≠ c)
    (hon : (s.cpu c').on ≠ some p) : Drowsy s' p ch lk c d k := by
  obtain ⟨hchan, hep, hcode, hstate⟩ := hby.aside p hon
  have hcode' : (s'.proc p).code = (s.proc p).code :=
    hcode.resolve_right fun hr => hr.1 h.state
  have hstate' : (s'.proc p).state = (s.proc p).state ∧ (s'.proc p).woken = (s.proc p).woken := by
    rcases hstate with hst | ⟨hst, -⟩ | ⟨⟨-, hst⟩, -⟩
    · exact hst
    · simp [h.state] at hst
    · exact absurd h.state hst
  refine ⟨hep.trans h.episode, by rw [hby.cpu c hc.symm, h.on], hcode'.trans h.code, h.suffix,
    h.ne_nil, h.rest, fun hl => ?_, fun hl => hby.holder _ _ hc.symm (h.ptable hl),
    fun hd => hchan.trans (h.chan hd), hstate'.1.trans h.state, hstate'.2.trans h.woken⟩
  obtain ⟨hheld, hfresh⟩ := h.held hl
  refine ⟨hby.holder _ _ hc.symm hheld, fun t => ?_⟩
  by_contra hne
  rcases hby.fresh t p (by simpa using hne) with hf | ⟨l, hl, hfree⟩
  · simp [hfresh t] at hf
  · simp only [h.episode, map_some, some.injEq] at hl
    simp [← hl, hheld] at hfree

theorem Slept.frame {x y : Proc} (h : Slept x) (ha : Aside x y) : Slept y := by
  obtain ⟨hchan, hep, hcode, hstate⟩ := ha
  refine ⟨?_, fun ch lk he => ?_⟩
  · rcases hcode with hcode | ⟨-, hcode⟩
    · rw [hcode]
      exact h.1
    · simp [hcode, forkret, release]
  · have hx := h.2 ch lk (hep ▸ he)
    grind

theorem woken_frame {x y : Proc} (h : x.woken = true → x.state ≠ .sleeping) (ha : Aside x y) :
    y.woken = true → y.state ≠ .sleeping := by
  obtain ⟨-, -, -, hstate⟩ := ha
  grind

theorem Drowsy.next (h : Drowsy s p ch lk c (i :: d) k) (hd : d ≠ [])
    (hon : (s'.cpu c).on = (s.cpu c).on) {y : Option Chan}
    (hp : s'.proc p = { s.proc p with code := d ++ k, chan := y })
    (hy : d = [.setState .sleeping] → y = some ch)
    (hheld : .unlock lk ∈ d → s'.holder lk = some c ∧ ∀ t, s'.fresh t p = false)
    (hptable : .lock .ptable ∉ d → s'.holder .ptable = some c) : Drowsy s' p ch lk c d k :=
  ⟨by rw [hp]; exact h.episode, hon.trans h.on, by rw [hp], (suffix_cons _ _).trans h.suffix,
    hd, h.rest, hheld, hptable, by rw [hp]; exact hy, by rw [hp]; exact h.state,
    by rw [hp]; exact h.woken⟩

/-- A process on the way to sleep executes its next instruction. -/
theorem Drowsy.exec (h : Drowsy s p ch lk c d k) (hs : step s (.exec c choice) = some s') :
    (∃ d', Drowsy s' p ch lk c d' k) ∨ Slept (s'.proc p) ∧ (s'.proc p).woken = false := by
  have hon := h.on
  have hheld := h.held
  have hptable := h.ptable
  have hep := h.episode
  simp only [step, code_on hon, h.code] at hs
  rcases suffix_doze h.suffix h.ne_nil with rfl | rfl | ⟨hlk, rfl | rfl | rfl | rfl⟩
  · -- the process is marked asleep
    simp only [cons_append, nil_append, Sched.exec, hon, execProc,
      some.injEq] at hs
    subst hs
    refine .inr ⟨⟨by simpa using h.rest, fun ch' lk' he => .inr ?_⟩, by simpa using h.woken⟩
    obtain ⟨rfl, -⟩ : ch = ch' ∧ lk = lk' := by simpa [hep] using he
    simpa using h.chan rfl
  · simp only [cons_append, nil_append, Sched.exec, hon, execProc,
      some.injEq] at hs
    subst hs
    exact .inl ⟨_, h.next (by simp) rfl modProc_self (fun _ => rfl) (by simp)
      fun _ => hptable (by simp)⟩
  · obtain ⟨y, hy, rfl⟩ := map_eq_some_iff.1 hs
    obtain ⟨-, rfl⟩ := popcli_eq_some hy
    rw [setCode_on (p := p) (by simpa using hon)]
    exact .inl ⟨_, h.next (by simp) (by simp) modProc_self (by simp) (by simp)
      fun _ => hptable (by simp)⟩
  · -- the lock is released with `ptable.lock` held
    obtain ⟨s1, hs1, rfl⟩ := map_eq_some_iff.1 hs
    obtain ⟨-, rfl⟩ := enabled hs1
    rw [setCode_on (p := p) (by exact hon)]
    refine .inl ⟨_, h.next (by simp) rfl modProc_self (by simp) (by simp) fun _ => ?_⟩
    simpa [State.modProc, Ne.symm hlk] using hptable (by simp)
  · -- `ptable.lock` is acquired with the lock held
    obtain ⟨s1, hs1, rfl⟩ := map_eq_some_iff.1 hs
    obtain ⟨-, rfl⟩ := enabled hs1
    obtain ⟨hl, hf⟩ := hheld (by simp)
    rw [setCode_on (p := p) (by exact hon)]
    refine .inl ⟨_, h.next (by simp) rfl modProc_self (by simp) (fun _ => ⟨?_, fun t => ?_⟩)
      fun _ => ?_⟩
    · simpa [State.modProc, hlk] using hl
    · simp only [State.modProc, Function.update_apply]
      split
      · next ht => simp [← ht, hf t, hep, hlk]
      · exact hf t
    · simp [State.modProc]
  · obtain ⟨hl, hf⟩ := hheld (by simp [doze, hlk, release])
    have hd : doze ch lk = .pushcli :: .lock .ptable :: .unlock lk :: .popcli ::
        [.setChan (some ch), .setState .sleeping] := by
      simp [doze, hlk, acquire, release]
    rw [hd] at hs h
    cases hs
    rw [setCode_on (p := p) hon]
    exact .inl ⟨_, h.next (by simp) (by simp [Cpu.pushcli])
      ((congrFun modCpu_proc p).trans modProc_self) (by simp) (fun _ => ⟨hl, hf⟩)
      fun hne => absurd hne (by simp)⟩

/-- What an instruction of a process that is not on the way to sleep can do to its slot. -/
structure Onward (x y : Proc) : Prop where
  code : .setState .sleeping ∉ y.code
  episode : y.episode = x.episode
  woken : y.woken = x.woken
  state : y.state = x.state ∧ y.chan = x.chan ∨ x.state = .running ∧ y.state ≠ .sleeping

theorem Onward.of_code {x y : Proc} {k : List Instr} (hk : .setState .sleeping ∉ k)
    (hy : y.code = k ∧ y.episode = x.episode ∧ y.woken = x.woken ∧ y.state = x.state ∧
      y.chan = x.chan) : Onward x y :=
  ⟨by rwa [hy.1], hy.2.1, hy.2.2.1, .inl hy.2.2.2⟩

theorem Onward.setCode (hon : (s.cpu c).on = some p) (hk : .setState .sleeping ∉ k) :
    Onward (s.proc p) ((s.setCode c k).proc p) := by
  rw [setCode_on hon, modProc_self]
  exact .of_code hk ⟨rfl, rfl, rfl, rfl, rfl⟩

theorem notMem_yield (hk : .setState .sleeping ∉ k) : Instr.setState .sleeping ∉ yield ++ k := by
  simpa [yield, acquire, sched, release] using hk

theorem notMem_wakeup1 (ch : Chan) : Instr.setState .sleeping ∉ wakeup1 ch := by
  simp [wakeup1]

theorem notMem_trap {lk : Option ℕ} {wakes : List Chan} {timer : Bool}
    (hk : .setState .sleeping ∉ k) : Instr.setState .sleeping ∉ trap lk wakes timer ++ k := by
  cases lk <;> cases timer <;>
    simpa [trap, service, wakeup, notMem_wakeup1, acquire, release] using hk

theorem execProc_onward (h : Inv strict s) (hon : (s.cpu c).on = some p)
    (hcode : (s.proc p).code = i :: k) (hk : .setState .sleeping ∉ i :: k)
    (hsleep : i = .scan → choice ≠ .sleep) (hs : execProc s c p choice k i = some s') :
    Onward (s.proc p) (s'.proc p) := by
  obtain ⟨H, hc⟩ := h.cpu c
  obtain ⟨-, hcheck⟩ := hc.check_on hon hcode
  rw [mem_cons, not_or] at hk
  obtain ⟨hi, hk⟩ := hk
  have hself : ∀ {g : Proc → Proc}, s' = s.modProc p g → Onward (s.proc p) (g (s.proc p)) →
      Onward (s.proc p) (s'.proc p) := by
    rintro g rfl hg
    simpa using hg
  have hpair : ∀ {q : Slot} {f g : Proc → Proc}, q ≠ p → s' = (s.modProc q f).modProc p g →
      Onward (s.proc p) (g (s.proc p)) → Onward (s.proc p) (s'.proc p) := by
    rintro q f g hq rfl hg
    rw [modProc_self, modProc_of_ne hq.symm]
    exact hg
  have hrel : Instr.setState .sleeping ∉ release .ptable ++ k := by simpa [release] using hk
  cases i with
  | setChan ch =>
    cases hs
    refine hself rfl ⟨hk, rfl, rfl, .inr ⟨hcheck.1.2, ?_⟩⟩
    simp [show (s.proc p).state = .running from hcheck.1.2]
  | setState st =>
    cases hs
    refine hself rfl ⟨hk, rfl, rfl, .inr ⟨hcheck.1.2, ?_⟩⟩
    rintro rfl
    exact hi rfl
  | check =>
    replace hs := enabled hs
    exact hself hs.2.symm (.of_code hk ⟨rfl, rfl, rfl, rfl, rfl⟩)
  | saveIntena | save => cases hs; exact hself rfl (.of_code hk ⟨rfl, rfl, rfl, rfl, rfl⟩)
  | load | restoreIntena =>
    cases hs
    rw [modCpu_proc, modProc_self]
    exact .of_code hk ⟨rfl, rfl, rfl, rfl, rfl⟩
  | alloc =>
    cases choice with
    | slot q =>
      replace hs := enabled hs
      refine hpair ?_ hs.2.symm (.of_code ?_ ⟨rfl, rfl, rfl, rfl, rfl⟩)
      · rintro rfl
        simp [show (s.proc q).state = .running from hcheck.2.1] at hs
      · simpa [release] using hk
    | none | sleep => cases hs; exact hself rfl (.of_code hrel ⟨rfl, rfl, rfl, rfl, rfl⟩)
  | setup =>
    cases hnp : (s.proc p).np with
    | none => simp [execProc, hnp] at hs
    | some q =>
      have hq : q ≠ p := by
        rintro rfl
        have := h.forks.embryo q q hnp
        simp [show (s.proc q).state = .running from hcheck.1] at this
      cases choice <;> simp only [execProc, hnp, some.injEq] at hs
      · exact hpair hq hs.symm (.of_code hk ⟨rfl, rfl, rfl, rfl, rfl⟩)
      · refine hpair hq hs.symm (.of_code ?_ ⟨rfl, rfl, rfl, rfl, rfl⟩)
        simpa [acquire, release] using hk
      · exact hpair hq hs.symm (.of_code hk ⟨rfl, rfl, rfl, rfl, rfl⟩)
  | ready =>
    cases hnp : (s.proc p).np with
    | none => simp [execProc, hnp] at hs
    | some q =>
      simp only [execProc, hnp, some.injEq] at hs
      refine hpair ?_ hs.symm (.of_code hk ⟨rfl, rfl, rfl, rfl, rfl⟩)
      rintro rfl
      have := h.forks.embryo q q hnp
      simp [show (s.proc q).state = .running from hcheck.2.1] at this
  | scan =>
    cases choice with
    | slot q =>
      replace hs := enabled hs
      refine hpair ?_ hs.2.symm (.of_code hrel ⟨rfl, rfl, rfl, rfl, rfl⟩)
      rintro rfl
      simp [show (s.proc q).state = .running from hcheck.1.2.2] at hs
    | none => cases hs; exact hself rfl (.of_code hrel ⟨rfl, rfl, rfl, rfl, rfl⟩)
    | sleep => exact absurd rfl (hsleep rfl)
  | _ => cases hs

theorem exec_onward (h : Inv strict s) (hon : (s.cpu c).on = some p)
    (hcode : (s.proc p).code = i :: k) (hk : .setState .sleeping ∉ i :: k)
    (hsleep : i = .scan → choice ≠ .sleep) (hs : exec s c choice k i = some s') :
    Onward (s.proc p) (s'.proc p) := by
  have hk' : Instr.setState .sleeping ∉ k := fun hm => hk (mem_cons_of_mem _ hm)
  -- a process that wakes another, or itself, is running
  have hrouse : ∀ (q : Slot) (g : Proc → Proc), (s.proc p).state = .running →
      (∀ x, x.state = .running → (g x).episode = x.episode ∧ (g x).woken = x.woken ∧
        (g x).state = x.state ∧ (g x).chan = x.chan) →
      Onward (s.proc p) (((s.modProc q g).setCode c k).proc p) := by
    intro q g hr hg
    rw [setCode_on (p := p) (by exact hon), modProc_self]
    by_cases hq : p = q
    · subst hq
      rw [modProc_self]
      exact .of_code hk' ⟨rfl, (hg _ hr).1, (hg _ hr).2.1, (hg _ hr).2.2.1, (hg _ hr).2.2.2⟩
    · rw [modProc_of_ne hq]
      exact .of_code hk' ⟨rfl, rfl, rfl, rfl, rfl⟩
  obtain ⟨H, hc⟩ := h.cpu c
  obtain ⟨-, hcheck⟩ := hc.check_on hon hcode
  cases i with
  | pushcli => cases hs; exact .setCode hon hk'
  | popcli =>
    obtain ⟨y, hy, rfl⟩ := map_eq_some_iff.1 hs
    obtain ⟨-, rfl⟩ := popcli_eq_some hy
    exact Onward.setCode (s := s.modCpu c _) (by simpa using hon) hk'
  | lock l =>
    obtain ⟨s1, hs1, rfl⟩ := map_eq_some_iff.1 hs
    obtain ⟨h1, h2⟩ := lock_on hs1
    rw [← h2]
    exact .setCode (h1 ▸ hon) hk'
  | unlock l =>
    obtain ⟨s1, hs1, rfl⟩ := map_eq_some_iff.1 hs
    obtain ⟨h1, h2⟩ := unlock_on hs1
    rw [← h2]
    exact .setCode (h1 ▸ hon) hk'
  | wake ch q =>
    cases hs
    split
    · exact hrouse q _ hcheck.1.2 fun x hx => by simp [Proc.wake, hx]
    · exact .setCode hon hk'
  | kill q =>
    cases hs
    exact hrouse q _ hcheck.1.2 fun x hx => by simp [Proc.wake, hx]
  | tick =>
    cases hs
    refine .setCode hon ?_
    split
    · exact notMem_yield hk'
    · exact hk'
  | iret =>
    obtain ⟨-, rfl⟩ := enabled hs
    exact .setCode hon hk'
  | _ =>
    obtain ⟨q, hq, hs⟩ := of_on (f := fun p => Sched.execProc s c p choice k _) hs
    obtain rfl := some.inj (hon.symm.trans hq)
    exact execProc_onward h hon hcode hk hsleep hs

theorem Slept.onward {x y : Proc} (h : Slept x) (ho : Onward x y) : Slept y := by
  refine ⟨ho.code, fun ch lk he => ?_⟩
  have hx := h.2 ch lk (ho.episode ▸ he)
  have hw := ho.woken
  have hs := ho.state
  grind

theorem woken_onward {x y : Proc} (h : x.woken = true → x.state ≠ .sleeping) (ho : Onward x y) :
    y.woken = true → y.state ≠ .sleeping := by
  have hw := ho.woken
  have hs := ho.state
  grind

variable (ch) in
theorem Drowsy.of_test (hon : (s.cpu c).on = some p) (hr : (s.proc p).state = .running)
    (hlk : s.holder lk = some c) (hk : .setState .sleeping ∉ k) :
    Drowsy ((s.test p ch lk).modProc p fun x => { x with code := sleep ch lk ++ k }) p ch lk c
      (doze ch lk) (arise lk ++ k) := by
  refine ⟨by simp [test_proc], hon, by simp [sleep_eq], suffix_rfl, by simp [doze], ?_,
    fun _ => ⟨hlk, fun t => by simp [State.modProc, State.test]⟩, fun hne => ?_, fun hd => ?_,
    by simpa [test_proc] using hr, by simp [test_proc]⟩
  · by_cases h : lk = .ptable <;> simpa [arise, h, sched, release, acquire] using hk
  · by_cases h : lk = .ptable
    · exact h ▸ hlk
    · simp [doze, h, acquire] at hne
  · by_cases h : lk = .ptable <;> simp [doze, h, acquire, release] at hd

theorem Drowsy.not_rest (h : Drowsy s p ch lk c d k) : ¬ Rest (s.proc p).code := by
  have hcode := h.code
  rcases suffix_doze h.suffix h.ne_nil with rfl | rfl | ⟨hlk, rfl | rfl | rfl | rfl⟩ <;>
    simp_all [Rest, doze, acquire]

theorem notMem_body {f : Call} (hf : ∀ ch n, f ≠ .sleep ch n) :
    Instr.setState .sleeping ∉ f.body := by
  cases f with
  | sleep ch n => exact absurd rfl (hf ch n)
  | _ =>
    simp [Call.body, acquire, release, switchuvm, wakeup, kill, exit, sched, wait, fork,
      notMem_wakeup1]

/-- A step of the process itself. -/
theorem Watch.own (h : Watch s) (hi : Inv strict s) {a : Label C} (hs : step s a = some s')
    (hon : (s.cpu a.cpu).on = some p) :
    ((∃ ch lk c d k, Drowsy s' p ch lk c d k) ∨ Slept (s'.proc p)) ∧
      ((s'.proc p).woken = true → (s'.proc p).state ≠ .sleeping) := by
  have honward : Slept (s.proc p) → Onward (s.proc p) (s'.proc p) →
      ((∃ ch lk c d k, Drowsy s' p ch lk c d k) ∨ Slept (s'.proc p)) ∧
        ((s'.proc p).woken = true → (s'.proc p).state ≠ .sleeping) := fun hsl ho =>
    ⟨.inr (hsl.onward ho), woken_onward (h.woken p) ho⟩
  have hdrowsy : ∀ {ch lk c d k}, Drowsy s' p ch lk c d k →
      ((∃ ch lk c d k, Drowsy s' p ch lk c d k) ∨ Slept (s'.proc p)) ∧
        ((s'.proc p).woken = true → (s'.proc p).state ≠ .sleeping) := fun hd =>
    ⟨.inl ⟨_, _, _, _, _, hd⟩, by simp [hd.woken]⟩
  obtain ⟨H, hc⟩ := hi.cpu a.cpu
  cases a with
  | exec c choice =>
    simp only [Label.cpu] at hon hc
    rcases h.asleep p with ⟨ch, lk, c', d, k, hd⟩ | hsl
    · obtain rfl := hi.on_inj hd.on hon
      rcases hd.exec hs with ⟨d', hd'⟩ | ⟨hsl, hw⟩
      · exact hdrowsy hd'
      · exact ⟨.inr hsl, by simp [hw]⟩
    · simp only [Sched.step] at hs
      split at hs
      · cases hs
      · next i k hcode =>
        rw [code_on hon] at hcode
        have hk := hcode ▸ hsl.1
        by_cases hsleep : i = .scan → choice ≠ .sleep
        · exact honward hsl (exec_onward hi hon hcode hk hsleep hs)
        · -- `wait` has found no zombie
          obtain ⟨rfl, rfl⟩ : i = .scan ∧ choice = .sleep := by simpa using hsleep
          obtain ⟨-, ⟨-, hh, hr⟩, -⟩ := hc.check_on hon hcode
          dsimp only at hh hr
          simp only [exec, hon, execProc, some.injEq] at hs
          subst hs
          exact hdrowsy (.of_test _ hon hr ((hc.holds .ptable).1 (by simp [hh])) hk)
  | call c f =>
    simp only [Label.cpu] at hon hc
    simp only [Sched.step, hon, ite_none_right_eq_some, some.injEq] at hs
    obtain ⟨⟨hrest, hf⟩, rfl⟩ := hs
    rcases h.asleep p with ⟨ch, lk, c', d, k, hd⟩ | hsl
    · exact absurd hrest hd.not_rest
    by_cases hsleep : ∃ ch n, f = .sleep ch n
    · obtain ⟨ch, n, rfl⟩ := hsleep
      have hcheck := hc.check
      rw [fin_on hon, ctx_on hon, code_on hon] at hcheck
      have hr : (s.proc p).state = .running := by
        rcases hrest with hcode | hcode <;> rw [hcode] at hcheck
        · exact hcheck.1
        · exact hcheck.2.1
      have hd := Drowsy.of_test ch hon hr (by simpa [Call.admissible] using hf) hsl.1
      have heq : ((Call.sleep ch n).enter s p).modProc p
            (fun x => { x with code := (Call.sleep ch n).body ++ x.code }) =
          (s.test p ch (.other n)).modProc p
            fun x => { x with code := sleep ch (.other n) ++ (s.proc p).code } := by
        simp [State.modProc, test_proc, Call.enter, Call.body]
      exact hdrowsy (heq ▸ hd)
    · have hns : ∀ ch n, f ≠ .sleep ch n := by simpa using hsleep
      have henter : f.enter s p = s := by
        cases f with
        | sleep ch n => exact absurd rfl (hns ch n)
        | _ => rfl
      refine honward hsl ?_
      rw [henter, modProc_self]
      refine .of_code ?_ ⟨rfl, rfl, rfl, rfl, rfl⟩
      rw [mem_append, not_or]
      exact ⟨notMem_body hns, hsl.1⟩
  | interrupt c lk wakes timer =>
    simp only [Label.cpu] at hon hc
    obtain ⟨hint, rfl⟩ := enabled hs
    rcases h.asleep p with ⟨ch, lk, c', d, k, hd⟩ | hsl
    · -- interrupts are off while a lock is held
      obtain rfl := hi.on_inj hd.on hon
      obtain ⟨l, hl⟩ := hd.holds
      have hcard := hc.card_le
      rw [hc.cli hint, Nat.le_zero, Finset.card_eq_zero] at hcard
      simpa [hcard] using (hc.holds l).2 hl
    · exact honward hsl (.setCode hon (notMem_trap (by rw [code_on hon]; exact hsl.1)))
  | sched c =>
    simp only [step, ite_none_right_eq_some] at hs
    exact absurd (hs.1.1.symm.trans hon) (by simp)
  | pick c q =>
    simp only [step, ite_none_right_eq_some] at hs
    exact absurd (hs.1.1.1.symm.trans hon) (by simp)

/-- Every step keeps this. -/
theorem Watch.step (h : Watch s) (hi : Inv strict s) {a : Label C} (hs : step s a = some s') :
    Watch s' := by
  have hby := step_by hi hs
  refine ⟨fun p => ?_, fun p => ?_⟩ <;> by_cases hon : (s.cpu a.cpu).on = some p
  · exact (h.own hi hs hon).1
  · rcases h.asleep p with ⟨ch, lk, c, d, k, hd⟩ | hsl
    · refine .inl ⟨ch, lk, c, d, k, hd.frame hby ?_ hon⟩
      rintro rfl
      exact hon hd.on
    · exact .inr (hsl.frame (hby.aside p hon))
  · exact (h.own hi hs hon).2
  · exact woken_frame (h.woken p) (hby.aside p hon)

theorem start_watch : Watch (start C) := by
  refine ⟨fun p => .inr ⟨?_, fun ch lk he => ?_⟩, fun p => ?_⟩ <;>
    by_cases h : p = Ptable.initproc <;>
      simp_all [start, Proc.empty, forkret, release]

/-- It holds in every run. -/
theorem run_watch {labels : List (Label C)} (hs : run step (start C) labels = some s) :
    Inv False s ∧ Watch s :=
  run_invariant (I := fun s => Inv False s ∧ Watch s)
    (fun _ _ _ h _ hs => ⟨h.1.step False.elim hs, h.2.step h.1 hs⟩) ⟨start_inv, start_watch⟩
    (along_true _ _) hs

theorem slept_of_fresh (h : Watch s) (hc : s.holder .ptable = some c)
    (hcode : s.code c = .wake ch p :: k) (hf : s.fresh (s.tid c) p = true) : Slept (s.proc p) := by
  refine (h.asleep p).resolve_left ?_
  rintro ⟨ch0, lk0, c0, d, k', hd⟩
  have hno : Instr.unlock lk0 ∉ d := fun hm => by simp [(hd.held hm).2] at hf
  rcases suffix_doze hd.suffix hd.ne_nil with rfl | rfl | ⟨hlk, rfl | rfl | rfl | rfl⟩
  case inr.inr.inr.inl => simp at hno
  case inr.inr.inr.inr.inl => simp at hno
  case inr.inr.inr.inr.inr => simp [doze, hlk, release] at hno
  all_goals
    -- both have `ptable.lock`
    obtain rfl : c = c0 := some.inj (hc.symm.trans (hd.ptable (by simp)))
    rw [code_on hd.on, hd.code] at hcode
    simp at hcode

theorem mem_wakeup (ch : Chan) (p : Slot) : .wake ch p ∈ wakeup1 ch := by
  simp [wakeup1]

/-- In every run : where a thread comes to slot `p` in `wakeup1(ch)`, and it has acquired the lock
with which `p` called `sleep(ch)` after `p` tested its condition, `p` is asleep on `ch`, or has been
woken since the test; after that turn it has been woken. A process that has been woken since its
test is not asleep. -/
theorem wakeup_finds_sleeper (labels : List (Label C)) (s : State C)
    (hs : run step (start C) labels = some s) :
    (∀ p, (s.proc p).woken = true → (s.proc p).state ≠ .sleeping) ∧
    (∀ ch p, .wake ch p ∈ wakeup1 ch) ∧
    ∀ c ch p lk k, s.code c = .wake ch p :: k → (s.proc p).episode = some (ch, lk) →
      s.fresh (s.tid c) p = true →
      ((s.proc p).state = .sleeping ∧ (s.proc p).chan = some ch ∨ (s.proc p).woken = true) ∧
      ∃ s', (∀ choice, step s (.exec c choice) = some s') ∧
        (s'.proc p).woken = true ∧ (s'.proc p).state ≠ .sleeping := by
  obtain ⟨hi, hw⟩ := run_watch hs
  refine ⟨hw.woken, mem_wakeup, fun c ch p lk k hcode hep hfresh => ?_⟩
  obtain ⟨H, hc⟩ := hi.cpu c
  obtain ⟨⟨hp, -⟩, -⟩ := hcode ▸ hc.check
  have hsl := slept_of_fresh hw ((hc.holds .ptable).1 (by simpa using hp)) hcode hfresh
  have hfound := (hsl.2 ch lk hep).symm
  refine ⟨hfound, (if (s.proc p).chan = some ch then s.modProc p Proc.wake else s).setCode c k,
    fun choice => by simp only [step, hcode, exec], ?_⟩
  have hset : ∀ t : State C, (t.proc p).woken = true ∧ (t.proc p).state ≠ .sleeping →
      ((t.setCode c k).proc p).woken = true ∧ ((t.setCode c k).proc p).state ≠ .sleeping := by
    intro t ht
    rcases setCode_proc (s := t) (c := c) (k := k) p with h | h
    · rwa [h.1]
    · rwa [h.2]
  refine hset _ ?_
  rcases hfound with ⟨hst, hch⟩ | hwoken
  · simp [hch, Proc.wake, hst]
  · have hst := hw.woken p hwoken
    split <;> simp [Proc.wake, hst, hwoken]

/-- Init takes a lock and sleeps with it; the child takes the lock after that and calls
`wakeup`. -/
theorem wakeup_finds_sleeper_init :
    let turns : List (ℕ × Label Bool) :=
      [(3, .sched false), (1, .pick false 0), (5, .sched false), (3, .exec false .none),
        (1, .call false .fork), (11, .exec false (.slot 1)),
        (3, .sched true), (1, .pick true 1), (5, .sched true), (3, .exec true .none),
        (1, .call false (.acquire 0)), (2, .exec false .none),
        (1, .call false (.sleep (.other 0) 0)), (10, .exec false .none), (3, .sched false),
        (1, .call true (.acquire 0)), (2, .exec true .none),
        (1, .call true (.wakeup (.other 0))), (2, .exec true .none)]
    let labels := turns.flatMap fun a => List.replicate a.1 a.2
    ∃ s, run step (start Bool) labels = some s ∧
      ((s.proc 0).state = .sleeping ∧ (s.proc 0).chan = some (.other 0) ∨
        (s.proc 0).woken = true) ∧
      ∃ s', (∀ choice, step s (.exec true choice) = some s') ∧
        (s'.proc 0).woken = true ∧ (s'.proc 0).state ≠ .sleeping := by
  intro turns labels
  have hrun : (run step (start Bool) labels).map (fun s =>
      ((s.code true).head?, (s.proc 0).episode, s.fresh (s.tid true) 0)) =
      some (some (.wake (.other 0) 0), some (.other 0, .other 0), true) := by
    decide +kernel
  obtain ⟨s, hs, hfacts⟩ := map_eq_some_iff.1 hrun
  simp only [Prod.mk.injEq] at hfacts
  obtain ⟨hcode, hep, hfresh⟩ := hfacts
  obtain ⟨k, hk⟩ := head?_eq_some_iff.1 hcode
  exact ⟨s, hs, (wakeup_finds_sleeper _ s hs).2.2 true (.other 0) 0 (.other 0) k hk hep hfresh⟩

end

end Xv6.Sched
