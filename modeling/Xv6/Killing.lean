import Xv6.Reaping

/-!
# Who is killed

`kill` takes the first slot whose `pid` field is its argument, whether or not a process is
there. A slot that is not in use has process ID `0`, or the one of a child whose `fork`
failed, so `kill` may mark an unused slot, and `allocproc` does not clear the mark. A child
marked while `fork` is still making it keeps the mark when `fork` fails.

Where neither happens (`Named`), a process is marked only by a `kill` of its process ID
made while it is there, or by a fault of its own (`killed_was_named`).
-/

open Transition

namespace Xv6.Ptable

/-- The step marks no unused slot : `kill` names no process ID an unused slot has, and a
child whose `fork` fails is not marked. -/
def Named (s : State) : Label → Prop
  | .kill _ pid => ∀ q, (s.proc q).state = .unused → (s.proc q).pid ≠ pid
  | .forkFail p => ∀ np, (s.proc p).pc = .forking np → (s.proc np).killed = false
  | _ => True

section

variable {s s' : State} {a : Label}

theorem killTarget_eq_some {pid : Int32} {q : Slot} (h : killTarget s pid = some q) :
    (s.proc q).pid = pid := by
  simpa using List.find?_some h

/-- What a step does to a slot, as far as `killed` is concerned. -/
inductive Change (s : State) (a : Label) (q : Slot) (r : Proc) : Prop
  /-- The process stays, or the slot stays unused. -/
  | keep (hused : r.state = .unused ↔ (s.proc q).state = .unused) (huid : r.uid = (s.proc q).uid)
    (hpid : r.pid = (s.proc q).pid) (hkilled : r.killed = (s.proc q).killed)
  | born (hused : (s.proc q).state = .unused) (hkilled : r.killed = (s.proc q).killed)
  | fail (p : Slot) (ha : a = .forkFail p) (hpc : (s.proc p).pc = .forking q)
    (hused : r.state = .unused) (hkilled : r.killed = (s.proc q).killed)
  | reap (hused : r.state = .unused) (hkilled : r.killed = false)
  | kill (p : Slot) (ha : a = .kill p (s.proc q).pid)
    (hused : r.state = .unused ↔ (s.proc q).state = .unused) (huid : r.uid = (s.proc q).uid)
    (hpid : r.pid = (s.proc q).pid)
  | fault (ha : a = .fault q) (hused : (s.proc q).state ≠ .unused) (hused' : r.state ≠ .unused)
    (huid : r.uid = (s.proc q).uid) (hpid : r.pid = (s.proc q).pid)

theorem Change.refl (q : Slot) : Change s a q (s.proc q) :=
  .keep Iff.rfl rfl rfl rfl

theorem change_modify {p : Slot} {f : Proc → Proc} (hf : Change s a p (f (s.proc p))) (q : Slot) :
    Change s a q ((s.modify p f).proc q) := by
  rw [modify_apply]
  split_ifs with h
  · subst h
    exact hf
  · exact .refl q

theorem change_goto {t : State} {p : Slot} {pc : Pc} {q : Slot} (h : Change s a q (t.proc q)) :
    Change s a q ((t.goto p pc).proc q) := by
  have hgoto : (t.goto p pc).proc q =
      { t.proc q with pc := ((t.goto p pc).proc q).pc } := by
    rw [State.goto, modify_apply]
    split_ifs <;> rfl
  rw [hgoto]
  cases h with
  | keep h1 h2 h3 h4 => exact .keep h1 h2 h3 h4
  | born h1 h2 => exact .born h1 h2
  | fail p h1 h2 h3 h4 => exact .fail p h1 h2 h3 h4
  | reap h1 h2 => exact .reap h1 h2
  | kill p h1 h2 h3 h4 => exact .kill p h1 h2 h3 h4
  | fault h1 h2 h3 h4 h5 => exact .fault h1 h2 h3 h4 h5

/-- Every step changes every slot in one of these ways. -/
theorem step_change (hi : Inv s) (hs : step s a = some s') (q : Slot) :
    Change s a q (s'.proc q) := by
  cases a with
  | dispatch | yield =>
    obtain ⟨hc, rfl⟩ := enabled hs
    exact change_modify (.keep (by simp [hc]) rfl rfl rfl) q
  | fault p =>
    obtain ⟨hc, rfl⟩ := enabled hs
    exact change_modify (.fault rfl (by simp [hc.1]) (by simp [hc.1]) rfl rfl) q
  | sleep p n =>
    obtain ⟨hc, rfl⟩ := enabled hs
    exact change_modify (.keep (by simp [hc.1]) rfl rfl rfl) q
  | wakeup n =>
    cases hs
    rw [wakeup1_proc]
    refine .keep ?_ rfl rfl rfl
    dsimp only
    split_ifs with h <;> simp [*]
  | fork p =>
    simp only [step, Option.ite_none_right_eq_some] at hs
    obtain ⟨-, hs⟩ := hs
    split at hs
    · cases hs
      exact .refl q
    · rename_i np hnp
      cases hs
      have hborn := change_modify (s := s) (a := .fork p) (p := np)
        (f := fun q => { q with
          state := .embryo, pid := s.nextpid, uid := s.births, creator := (s.proc p).uid })
        (.born (unusedSlot_eq_some hnp) rfl) q
      exact change_goto hborn
  | forkFail p =>
    simp only [step] at hs
    split at hs
    · rename_i np hrun hpc
      cases hs
      exact change_goto (change_modify (.fail p rfl hpc rfl rfl) q)
    · cases hs
  | forkParent p =>
    simp only [step] at hs
    split at hs
    · cases hs
      exact change_goto (change_modify (.keep Iff.rfl rfl rfl rfl) q)
    · cases hs
  | forkDone p =>
    simp only [step] at hs
    split at hs
    · rename_i np hrun hpc
      cases hs
      exact change_goto (change_modify (.keep (by simp [(hi.forked p np hpc).2.1]) rfl rfl rfl) q)
    · cases hs
  | exit p =>
    obtain ⟨⟨hc, hne⟩, rfl⟩ := enabled hs
    rw [exit_proc hne]
    refine .keep ?_ rfl rfl rfl
    have hrun := hc.1
    grind
  | wait p =>
    obtain ⟨hc, rfl⟩ := enabled hs
    unfold wait
    split
    · rename_i r _
      have hreap := change_modify (s := s) (a := .wait p) (p := r)
        (f := fun q => { q with state := .unused, pid := 0, parent := none, killed := false })
        (.reap rfl rfl) q
      exact change_goto hreap
    · exact change_goto (.refl q)
    · exact change_modify (.keep (by simp [hc.1]) rfl rfl rfl) q
  | kill p pid =>
    obtain ⟨-, rfl⟩ := enabled hs
    unfold kill
    split
    · exact .refl q
    · rename_i r hr
      refine change_modify (.kill p (by rw [killTarget_eq_some hr]) ?_ rfl rfl) q
      dsimp only
      split_ifs with h <;> simp [*]

theorem unused_not_killed (hi : Inv s) (hn : Named s a) (hs : step s a = some s')
    (h : ∀ q, (s.proc q).state = .unused → (s.proc q).killed = false) (q : Slot)
    (hq : (s'.proc q).state = .unused) : (s'.proc q).killed = false := by
  cases step_change hi hs q with
  | keep hused _ _ hkilled => rw [hkilled, h q (hused.1 hq)]
  | born hused hkilled => rw [hkilled, h q hused]
  | fail p ha hpc _ hkilled =>
    subst ha
    rw [hkilled, hn q hpc]
  | reap _ hkilled => exact hkilled
  | kill p ha hused =>
    subst ha
    exact absurd rfl (hn q (hused.1 hq))
  | fault _ _ hused' => exact absurd hq hused'

theorem killed_cases (hi : Inv s) (hs : step s a = some s')
    (h : ∀ q, (s.proc q).state = .unused → (s.proc q).killed = false) (q : Slot)
    (hq : (s'.proc q).state ≠ .unused) (hk : (s'.proc q).killed = true) :
    (s.proc q).state ≠ .unused ∧ (s.proc q).uid = (s'.proc q).uid ∧
      (s.proc q).pid = (s'.proc q).pid ∧
      ((s.proc q).killed = true ∨ (∃ p, a = .kill p (s'.proc q).pid) ∨ a = .fault q) := by
  cases step_change hi hs q with
  | keep hused huid hpid hkilled =>
    exact ⟨mt hused.2 hq, huid.symm, hpid.symm, .inl (hkilled ▸ hk)⟩
  | born hused hkilled =>
    rw [hkilled, h q hused] at hk
    cases hk
  | fail _ _ _ hused => exact absurd hused hq
  | reap hused => exact absurd hused hq
  | kill p ha hused huid hpid =>
    exact ⟨mt hused.2 hq, huid.symm, hpid.symm, .inr (.inl ⟨p, by rw [hpid, ha]⟩)⟩
  | fault ha hused _ huid hpid =>
    exact ⟨hused, huid.symm, hpid.symm, .inr (.inr ha)⟩

end

/-! ## Runs -/

/-- After the labels `labels`, the process in slot `q` was killed by its process ID while
it was there, or it faulted. -/
def WasNamed (labels : List Label) (s : State) (q : Slot) : Prop :=
  ∃ l1 a l2 s1, labels = l1 ++ a :: l2 ∧ run step start l1 = some s1 ∧
    (s1.proc q).state ≠ .unused ∧ (s1.proc q).uid = (s.proc q).uid ∧
    (s1.proc q).pid = (s.proc q).pid ∧ ((∃ p, a = .kill p (s.proc q).pid) ∨ a = .fault q)

/-- The invariant of the runs, over the labels so far. -/
structure Marks (labels : List Label) (s : State) : Prop where
  run : run step start labels = some s
  unused : ∀ q, (s.proc q).state = .unused → (s.proc q).killed = false
  named : ∀ q, (s.proc q).state ≠ .unused → (s.proc q).killed = true → WasNamed labels s q

theorem start_marks : Marks [] start where
  run := rfl
  unused q _ := by
    by_cases h : q = initproc
    · rw [h, start_init]; rfl
    · rw [start_of_ne h]; rfl
  named q _ hk := by
    by_cases h : q = initproc
    · rw [h, start_init] at hk; cases hk
    · rw [start_of_ne h] at hk; cases hk

/-- Every step keeps this. -/
theorem Marks.step {labels : List Label} {s s' : State} {a : Label} (h : Marks labels s)
    (hn : Named s a) (hs : step s a = some s') : Marks (labels ++ [a]) s' := by
  have hi := (run_inv h.run).1
  refine ⟨?_, unused_not_killed hi hn hs h.unused, fun q hq hk => ?_⟩
  · rw [run_append, h.run]
    simp [Transition.run, hs]
  · obtain ⟨hused, huid, hpid, hmark⟩ := killed_cases hi hs h.unused q hq hk
    rcases hmark with hmark | hmark
    · obtain ⟨l1, b, l2, s1, rfl, hrun, hused1, huid1, hpid1, hb⟩ := h.named q hused hmark
      refine ⟨l1, b, l2 ++ [a], s1, by simp, hrun, hused1, huid1.trans huid, hpid1.trans hpid, ?_⟩
      rwa [hpid] at hb
    · exact ⟨labels, a, [], s, by simp, h.run, hused, huid, hpid, hmark⟩

/-- In every run whose steps mark no unused slot, an unused slot is not marked, so that a
process starts without the mark; a process is marked only if `kill` was called with its
process ID while it was there, or it faulted; and a next `kill` that marks no unused slot
and succeeds finds a process with that ID. -/
theorem killed_was_named (labels : List Label) (s : State) (h : run step start labels = some s)
    (hn : Along step Named start labels) :
    (∀ q, (s.proc q).state = .unused → (s.proc q).killed = false) ∧
    (∀ q, (s.proc q).state ≠ .unused → (s.proc q).killed = true → WasNamed labels s q) ∧
    ∀ p pid q, Named s (.kill p pid) → killTarget s pid = some q →
      (s.proc q).state ≠ .unused ∧ (s.proc q).pid = pid := by
  have hm : Marks ([] ++ labels) s :=
    run_history (fun _ _ _ _ hI hC hs => hI.step hC hs) start_marks hn h
  refine ⟨hm.unused, hm.named, fun p pid q hk hq => ?_⟩
  have hpid := killTarget_eq_some hq
  exact ⟨fun hu => hk q hu hpid, hpid⟩

/-- Init kills its child, which is marked. -/
theorem killed_was_named_child : (run step start
      [.dispatch 0, .fork 0, .forkParent 0, .forkDone 0, .kill 0 2]).map
      (fun s => ((s.proc 1).state, (s.proc 1).killed)) = some (.runnable, true) ∧
    ∀ s, run step start [.dispatch 0, .fork 0, .forkParent 0, .forkDone 0, .kill 0 2] = some s →
      (∀ q, (s.proc q).state = .unused → (s.proc q).killed = false) ∧
      (∀ q, (s.proc q).state ≠ .unused → (s.proc q).killed = true →
        WasNamed [.dispatch 0, .fork 0, .forkParent 0, .forkDone 0, .kill 0 2] s q) ∧
      ∀ p pid q, Named s (.kill p pid) → killTarget s pid = some q →
        (s.proc q).state ≠ .unused ∧ (s.proc q).pid = pid := by
  refine ⟨by decide, fun s h => killed_was_named _ s h ?_⟩
  refine ⟨trivial, fun s1 h1 => ⟨trivial, fun s2 h2 => ⟨trivial, fun s3 h3 =>
    ⟨trivial, fun s4 h4 => ⟨?_, fun _ _ => trivial⟩⟩⟩⟩⟩
  cases h1
  cases h2
  cases h3
  cases h4
  unfold Named
  decide

/-- Process ID `0` is that of every unused slot : `kill(0)` succeeds, and the next child
starts with the mark. -/
theorem kill_zero_marks_next_child :
    killTarget start 0 = some 1 ∧ (start.proc 1).state = .unused ∧
    (run step start [.dispatch 0, .kill 0 0, .fork 0]).map
      (fun s => ((s.proc 1).state, (s.proc 1).pid, (s.proc 1).killed)) =
        some (.embryo, 2, true) := by
  decide

end Xv6.Ptable
