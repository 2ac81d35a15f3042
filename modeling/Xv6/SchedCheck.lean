import Mathlib.Data.Finset.Card
import Xv6.Sched

/-!
# What a thread holds

`ptable.lock` is taken by one thread and released by another across `swtch`, so no function of
`proc.c` is by itself a critical section. `Check` follows the instructions a thread has still to
execute with what it holds (`Ctx`) : the depth of `pushcli`, the locks, the state of the process and
whether its context is saved. Shared state is changed with `ptable.lock` held; a process that has
left `RUNNING` gives up the CPU before it releases a lock, and loads the context of the scheduler
with its own saved and with `ptable.lock` the only lock. Every kernel function passes the check
(`check_call`, `check_trap`, `check_forkret`).
-/

open Finset List

namespace Xv6.Sched

open Ptable (Slot ProcState Chan)

variable {C : Type*} [DecidableEq C]

/-! ## What the instructions of a thread need -/

/-- What a thread holds. -/
structure Ctx where
  ncli : ℕ
  held : Finset Lock
  state : ProcState
  saved : Bool

/-- What a process holds when the scheduler switches to it. -/
def Ctx.resumed : Ctx :=
  ⟨1, {.ptable}, .running, false⟩

/-- The state of a process that gives up the CPU. -/
def Left (st : ProcState) : Prop :=
  st = .runnable ∨ st = .sleeping ∨ st = .zombie

/-- A thread that holds `x` executes the instructions safely, to end with `fin`. If
`strict`, it enters `sched` with `ptable.lock` the only lock held. -/
def Check (strict : Prop) (fin : Ctx → Prop) : Ctx → List Instr → Prop
  | x, [] => x.state = .running ∧ fin x
  | x, .pushcli :: k => Check strict fin { x with ncli := x.ncli + 1 } k
  | x, .popcli :: k =>
    x.held.card < x.ncli ∧ Check strict fin { x with ncli := x.ncli - 1 } k
  | x, .lock l :: k =>
    x.state = .running ∧ x.held.card < x.ncli ∧
      (l ∉ x.held → Check strict fin { x with held := insert l x.held } k)
  | x, .unlock l :: k =>
    x.state = .running ∧ (l ∈ x.held → Check strict fin { x with held := x.held.erase l } k)
  | x, .setChan _ :: k => (.ptable ∈ x.held ∧ x.state = .running) ∧ Check strict fin x k
  | x, .setState st :: k =>
    (.ptable ∈ x.held ∧ x.state = .running) ∧ Left st ∧ Check strict fin { x with state := st } k
  | x, .check :: k =>
    (strict → x.ncli = 1 ∧ x.held = {.ptable} ∧ x.state ≠ .running) ∧
      (x.ncli = 1 → x.held = {.ptable} → x.state ≠ .running → Check strict fin x k)
  | x, .saveIntena :: k => Check strict fin x k
  | x, .save :: k => x.state ≠ .running ∧ Check strict fin { x with saved := true } k
  | x, .load :: k =>
    (x.ncli = 1 ∧ x.held = {.ptable} ∧ Left x.state ∧ x.saved = true) ∧
      (x.state ≠ .zombie → Check strict fin .resumed k)
  | x, .restoreIntena :: k => Check strict fin x k
  | x, .wake _ _ :: k => (.ptable ∈ x.held ∧ x.state = .running) ∧ Check strict fin x k
  | x, .kill _ :: k => (.ptable ∈ x.held ∧ x.state = .running) ∧ Check strict fin x k
  | x, .alloc :: k =>
    .ptable ∈ x.held ∧ x.state = .running ∧ x.held.card ≤ x.ncli ∧ .setup ∉ k ∧
      Check strict fin { x with ncli := x.ncli - 1, held := x.held.erase .ptable } k
  | x, .setup :: k =>
    x.state = .running ∧ .ptable ∉ x.held ∧ x.held.card ≤ x.ncli ∧ .setup ∉ k ∧
      Check strict fin x k
  | x, .ready :: k =>
    .ptable ∈ x.held ∧ x.state = .running ∧ .setup ∉ k ∧ Check strict fin x k
  | x, .scan :: k =>
    (x.ncli = 1 ∧ x.held = {.ptable} ∧ x.state = .running) ∧
      Check strict fin { x with ncli := 0, held := ∅ } k
  | _, .zombieExit :: _ => True
  | x, .tick :: k => (x.ncli = 0 ∧ x.held = ∅ ∧ x.state = .running) ∧ Check strict fin x k
  | x, .iret :: k =>
    x.ncli = x.held.card ∧ x.state = .running ∧ (x.ncli = 0 → Check strict fin x k)

/-- What every thread keeps to : a process that has left `RUNNING` holds `ptable.lock`. -/
structure Ctx.Ok (x : Ctx) : Prop where
  card_le : x.held.card ≤ x.ncli
  state : x.state = .running ∧ x.saved = false ∨ Left x.state ∧ .ptable ∈ x.held

/-- The end of the instructions of a process : one `pushcli` for each lock held. -/
def settled (x : Ctx) : Prop :=
  x.ncli = x.held.card

variable {strict : Prop} {fin : Ctx → Prop} {x : Ctx} {k : List Instr}

theorem Left.ne_running {st : ProcState} (h : Left st) : st ≠ .running := by
  rintro rfl
  simp [Left] at h

theorem Ctx.Ok.saved (h : x.Ok) (hr : x.state = .running) : x.saved = false := by
  rcases h.state with h | h
  · exact h.2
  · exact absurd hr h.1.ne_running

/-- `acquire` of a lock that is not held. -/
theorem check_acquire {l : Lock} (hr : x.state = .running) (hc : x.held.card ≤ x.ncli)
    (hk : l ∉ x.held → Check strict fin ⟨x.ncli + 1, insert l x.held, x.state, x.saved⟩ k) :
    Check strict fin x (acquire l ++ k) :=
  ⟨hr, Nat.lt_succ_of_le hc, hk⟩

/-- `release` of a lock that is held. -/
theorem check_release {l : Lock} (hr : x.state = .running) (hc : x.held.card ≤ x.ncli)
    (hk : l ∈ x.held → Check strict fin ⟨x.ncli - 1, x.held.erase l, x.state, x.saved⟩ k) :
    Check strict fin x (release l ++ k) :=
  ⟨hr, fun hl => ⟨(card_erase_lt_of_mem hl).trans_le hc, hk hl⟩⟩

/-- `sched`, by a process that gives up the CPU. -/
theorem check_sched (hs : strict → x.ncli = 1 ∧ x.held = {.ptable}) (hl : Left x.state)
    (hk : x.state ≠ .zombie → Check strict fin .resumed k) :
    Check strict fin x (sched ++ k) :=
  ⟨fun h => ⟨(hs h).1, (hs h).2, hl.ne_running⟩, fun hn hh hr =>
    ⟨hr, ⟨hn, hh, hl, rfl⟩, fun hz => hk hz⟩⟩

theorem check_yield (hx : x = ⟨0, ∅, .running, false⟩) (hk : Check strict fin x k) :
    Check strict fin x (yield ++ k) := by
  subst hx
  simp only [yield, append_assoc]
  refine check_acquire rfl le_rfl fun _ => ⟨⟨by simp, rfl⟩, .inl rfl, ?_⟩
  refine check_sched (fun _ => ⟨rfl, rfl⟩) (.inl rfl) fun _ => ?_
  exact check_release rfl le_rfl fun _ => hk

/-- The end of `sleep`. -/
theorem check_goToSleep {ch : Chan} (hp : .ptable ∈ x.held) (hr : x.state = .running)
    (hs : strict → x.ncli = 1 ∧ x.held = {.ptable}) (hk : Check strict fin .resumed k) :
    Check strict fin x (goToSleep ch ++ k) := by
  simp only [goToSleep, append_assoc]
  refine ⟨⟨hp, hr⟩, ⟨hp, hr⟩, .inr (.inl rfl), ?_⟩
  exact check_sched hs (.inr (.inl rfl)) fun _ => ⟨⟨by simp [Ctx.resumed], rfl⟩, hk⟩

theorem check_wakeup1 {ch : Chan} (hp : .ptable ∈ x.held) (hr : x.state = .running)
    (hk : Check strict fin x k) : Check strict fin x (wakeup1 ch ++ k) := by
  unfold wakeup1
  induction List.finRange NPROC with
  | nil => exact hk
  | cons q qs ih => exact ⟨⟨hp, hr⟩, ih⟩

theorem check_flatMap {α : Type*} {f : α → List Instr} (l : List α)
    (hf : ∀ a k, Check strict fin x k → Check strict fin x (f a ++ k))
    (hk : Check strict fin x k) : Check strict fin x (l.flatMap f ++ k) := by
  induction l with
  | nil => exact hk
  | cons a l ih =>
    rw [flatMap_cons, append_assoc]
    exact hf a _ ih

/-- A section between `acquire` and `release`. -/
theorem check_critical {l : Lock} {body : List Instr} (hr : x.state = .running)
    (hc : x.held.card ≤ x.ncli)
    (hb : ∀ k, Check strict fin ⟨x.ncli + 1, insert l x.held, x.state, x.saved⟩ k →
      Check strict fin ⟨x.ncli + 1, insert l x.held, x.state, x.saved⟩ (body ++ k))
    (hk : Check strict fin x k) :
    Check strict fin x (acquire l ++ body ++ release l ++ k) := by
  simp only [append_assoc]
  refine check_acquire hr hc fun hl => hb _ (check_release hr ?_ fun _ => ?_)
  · simp only [card_insert_of_notMem hl]
    omega
  · simpa [erase_insert hl] using hk

theorem check_wakeup {ch : Chan} (hr : x.state = .running) (hc : x.held.card ≤ x.ncli)
    (hk : Check strict fin x k) : Check strict fin x (wakeup ch ++ k) :=
  check_critical hr hc (fun _ => check_wakeup1 (by simp) hr) hk

theorem check_kill {q : Slot} (hr : x.state = .running) (hc : x.held.card ≤ x.ncli)
    (hk : Check strict fin x k) : Check strict fin x (kill q ++ k) :=
  check_critical hr hc (fun _ h => ⟨⟨by simp, hr⟩, h⟩) hk

theorem check_service {lk : Option ℕ} {wakes : List Chan} (hr : x.state = .running)
    (hc : x.held.card ≤ x.ncli) (hk : Check strict fin x k) :
    Check strict fin x (service wakes lk ++ k) := by
  cases lk with
  | none => exact hk
  | some n =>
    refine check_critical hr hc (fun k hk => check_flatMap wakes (fun ch k => ?_) hk) hk
    exact check_wakeup hr ((card_insert_le _ _).trans (Nat.succ_le_succ hc))

/-- A trap taken with no lock held. -/
theorem check_trap {lk : Option ℕ} {wakes : List Chan} {timer : Bool}
    (hx : x = ⟨0, ∅, .running, false⟩) (hk : Check strict fin x k) :
    Check strict fin x (trap lk wakes timer ++ k) := by
  subst hx
  simp only [trap, append_assoc]
  refine check_service rfl le_rfl ?_
  have hi : Check strict fin ⟨0, ∅, .running, false⟩ ([.iret] ++ k) := ⟨rfl, rfl, fun _ => hk⟩
  cases timer
  · exact hi
  · exact ⟨⟨rfl, rfl, rfl⟩, hi⟩

theorem check_forkret : Check strict settled .resumed forkret :=
  check_release rfl le_rfl fun _ => ⟨rfl, rfl, fun _ => ⟨rfl, rfl⟩⟩

/-- A process that returns to its caller. -/
def Rest (k : List Instr) : Prop :=
  k = [] ∨ k = [.iret]

theorem Rest.check (hk : Rest k) (hr : x.state = .running) (hx : settled x) :
    Check strict settled x k := by
  rcases hk with rfl | rfl
  · exact ⟨hr, hx⟩
  · exact ⟨hx, hr, fun _ => ⟨hr, hx⟩⟩

theorem Rest.setup_notMem (hk : Rest k) : .setup ∉ k := by
  rcases hk with rfl | rfl <;> simp

/-- A call that keeps to `admissible`. If `strict`, a caller of `sleep` holds only its
lock. -/
def Call.Admitted (strict : Prop) (x : Ctx) : Call → Prop
  | .sleep _ n => .other n ∈ x.held ∧ (strict → x.held = {.other n})
  | .exit _ | .wait => x.ncli = 0
  | _ => True

/-- The body of every call passes the check. -/
theorem check_call {f : Call} (hx : x.Ok) (hr : x.state = .running) (hs : settled x)
    (hf : f.Admitted strict x) (hk : Rest k) : Check strict settled x (f.body ++ k) := by
  have hc : x.held.card ≤ x.ncli := hx.card_le
  have hsv := hx.saved hr
  have hkx : Check strict settled x k := hk.check hr hs
  cases f with
  | acquire n =>
    refine check_acquire hr hc fun hn => hk.check hr ?_
    simp only [settled, card_insert_of_notMem hn]
    exact congrArg (· + 1) hs
  | release n =>
    refine check_release hr hc fun hn => hk.check hr ?_
    simp only [settled, card_erase_of_mem hn]
    exact congrArg (· - 1) hs
  | switchuvm => exact ⟨Nat.lt_succ_of_le hc, hkx⟩
  | sleep ch n =>
    obtain ⟨hn, hstrict⟩ := hf
    have hpos : 0 < x.held.card := card_pos.2 ⟨_, hn⟩
    have hone : strict → x.ncli = 1 ∧ x.held = {.other n} := fun h =>
      ⟨by rw [hs, hstrict h]; rfl, hstrict h⟩
    simp only [Call.body, sleep, if_neg (show Lock.other n ≠ .ptable by simp),
      append_assoc]
    refine check_acquire hr hc fun hp => check_release hr ?_ fun _ => ?_
    · simp only [card_insert_of_notMem hp]
      omega
    refine check_goToSleep (by simp) hr (fun h => ?_) ?_
    · obtain ⟨h1, h2⟩ := hone h
      simp [h1, h2, erase_insert_of_ne]
    refine check_release rfl le_rfl fun _ => check_acquire rfl le_rfl fun _ => hk.check rfl rfl
  | wakeup ch => exact check_wakeup hr hc hkx
  | kill q => exact check_kill hr hc hkx
  | exit wakes =>
    have hh : x.held = ∅ := by
      rw [← card_eq_zero]
      exact hs.symm.trans hf
    simp only [Call.body, exit, append_assoc]
    refine check_acquire hr hc fun _ => ?_
    refine check_flatMap wakes (fun ch k => check_wakeup1 (by simp) hr) ?_
    refine ⟨⟨by simp, hr⟩, .inr (.inr rfl), ?_⟩
    exact check_sched (fun _ => ⟨congrArg (· + 1) hf, by simp [hh]⟩) (.inr (.inr rfl))
      fun h => absurd rfl h
  | wait =>
    have hh : x.held = ∅ := by
      rw [← card_eq_zero]
      exact hs.symm.trans hf
    simp only [Call.body, wait, append_assoc]
    refine check_acquire hr hc fun _ => ⟨⟨congrArg (· + 1) hf, by simp [hh], hr⟩, ?_⟩
    exact hk.check hr rfl
  | fork =>
    simp only [Call.body, fork, append_assoc]
    refine check_acquire hr hc fun hp => ⟨by simp, hr, ?_, hk.setup_notMem, ?_⟩
    · simp only [card_insert_of_notMem hp]
      omega
    · simpa [erase_insert hp] using hkx

end Xv6.Sched
