import Mathlib.Algebra.Order.BigOperators.Group.Finset
import Mathlib.Data.List.GetD
import Xv6.Lib.Transition
import Xv6.Param

/-!
# Concurrent operations on the log

`begin_op`, `log_write`, `end_op` and `commit` of `log.c`, run by any finite number of
processes. A step is a section under `log.lock`, the two tests `log_write` makes before
it takes the lock, or one block write of `commit`, which holds no lock. A process that
sleeps in `begin_op` tests again at any later time.

The header has an array for `LOGSIZE` blocks and the disk `size - 1` blocks for their copies.
`log_write` tests for room before it takes the lock, so a block can be appended where there is none
left : it is stored outside the array (`overrun`), or `commit` copies it outside the log
(`log_write_overruns`).

Beside the fields of `struct log` the state records the blocks each operation has logged, the
operations that ended since the last commit, and what each commit wrote.
-/

open Function Finset Transition

namespace Xv6

/-- The log header after `log_write` of block `b` : an already logged block is absorbed. -/
def absorb (b : ℕ) (lh : List ℕ) : List ℕ :=
  if b ∈ lh then lh else lh ++ [b]

theorem mem_absorb {b c : ℕ} {lh : List ℕ} : c ∈ absorb b lh ↔ c = b ∨ c ∈ lh := by
  unfold absorb
  split_ifs with h
  · exact ⟨.inr, by rintro (rfl | h') <;> assumption⟩
  · simp [or_comm]

theorem absorb_nodup {lh : List ℕ} (h : lh.Nodup) (b : ℕ) : (absorb b lh).Nodup := by
  unfold absorb
  split_ifs with hb
  · exact h
  · refine List.nodup_append.2 ⟨h, List.nodup_singleton b, fun c hc d hd => ?_⟩
    rw [List.mem_singleton.1 hd]
    rintro rfl
    exact hb hc

theorem length_absorb (b : ℕ) (lh : List ℕ) :
    (absorb b lh).length = if b ∈ lh then lh.length else lh.length + 1 := by
  unfold absorb
  split_ifs <;> simp

namespace LogOps

/-- Where a process is in `commit`. -/
inductive CommitPc where
  | start
  | writeLog (tail : ℕ)
  | writeHead
  | install (tail : ℕ)
  | clear
  | clearHead
  | finish
  deriving DecidableEq

/-- Where a process is. -/
inductive Pc where
  | outside
  /-- In the loop of `begin_op`. -/
  | waiting
  | inside
  /-- In `log_write` of block `b`, past the tests. -/
  | logging (b : ℕ)
  /-- In `commit`, called by `end_op`. -/
  | commit (c : CommitPc)
  deriving DecidableEq

/-- A process, with the blocks its operation has logged. -/
structure Thread where
  pc : Pc
  /-- The blocks logged since its `begin_op`, without repetition. -/
  logged : List ℕ

/-- A commit that is done. -/
structure Commit where
  /-- The operations it commits, each with all the blocks it logged. -/
  ops : List (List ℕ)
  /-- The blocks `write_log` copied to the log. -/
  wrote : List ℕ
  /-- The blocks `install_trans` copied home. -/
  installed : List ℕ

/-- The log and the processes. -/
structure State (P : Type) where
  outstanding : ℤ
  committing : Bool
  lh : List ℕ
  thr : P → Thread
  /-- What stopped the kernel : the message of a panic, or `overrun`. -/
  panicked : Option String
  /-- Whether `write_log` copied a block outside the log. -/
  stray : Bool
  /-- The operations that ended since the last commit. -/
  ended : List (List ℕ)
  /-- The blocks the running commit copied to the log. -/
  wrote : List ℕ
  /-- The blocks the running commit copied home. -/
  installed : List ℕ
  commits : List Commit

/-- The kernel stored a block number outside `lh.block`, and is not followed further. -/
def overrun : String :=
  "store outside of lh.block"

/-- A step of a process. -/
inductive Label (P : Type) where
  | beginOp (p : P)
  /-- One turn of the loop of `begin_op`. -/
  | enter (p : P)
  /-- The tests of `log_write` of block `b`. -/
  | logWrite (p : P) (b : ℕ)
  /-- The section of `log_write` under the lock. -/
  | append (p : P)
  /-- The first section of `end_op` under the lock. -/
  | endOp (p : P)
  /-- The next step of `commit`, or the last section of `end_op` after it. -/
  | commit (p : P)

variable {P : Type} [DecidableEq P]

def State.goto (s : State P) (p : P) (pc : Pc) : State P :=
  { s with thr := update s.thr p { s.thr p with pc := pc } }

/-- `begin_op` makes process `p` wait or lets it in. -/
def enter (s : State P) (p : P) : State P :=
  if s.committing = true then
    s
  else if s.lh.length + (s.outstanding + 1) * MAXOPBLOCKS > LOGSIZE then
    s
  else
    { s with
      outstanding := s.outstanding + 1
      thr := update s.thr p ⟨.inside, []⟩ }

/-- The tests at the start of `log_write`, on a log of `size` blocks. -/
def logWrite (size : ℤ) (s : State P) (p : P) (b : ℕ) : State P :=
  if LOGSIZE ≤ s.lh.length ∨ size - 1 ≤ s.lh.length then
    { s with panicked := some "too big a transaction" }
  else if s.outstanding < 1 then
    { s with panicked := some "log_write outside of trans" }
  else
    s.goto p (.logging b)

/-- `log_write` of block `b` records it in the header, which has room for `LOGSIZE` blocks. -/
def append (s : State P) (p : P) (b : ℕ) : State P :=
  if b ∉ s.lh ∧ LOGSIZE ≤ s.lh.length then
    { s with panicked := some overrun }
  else
    { s with
      lh := absorb b s.lh
      thr := update s.thr p ⟨.inside, absorb b (s.thr p).logged⟩ }

/-- `end_op` up to the call of `commit`. -/
def endOp (s : State P) (p : P) : State P :=
  if s.committing = true then
    { s with outstanding := s.outstanding - 1, panicked := some "log.committing" }
  else if s.outstanding - 1 = 0 then
    { s with
      outstanding := s.outstanding - 1
      committing := true
      ended := (s.thr p).logged :: s.ended
      thr := update s.thr p { s.thr p with pc := .commit .start } }
  else
    { s with
      outstanding := s.outstanding - 1
      ended := (s.thr p).logged :: s.ended
      thr := update s.thr p { s.thr p with pc := .outside } }

/-- One step of `commit` of process `p`, on a log of `size` blocks, and the end of its `end_op`. -/
def commitStep (size : ℤ) (s : State P) (p : P) : CommitPc → State P
  | .start => s.goto p (.commit (if s.lh.length > 0 then .writeLog 0 else .finish))
  | .writeLog tail =>
    if tail < s.lh.length then
      { s.goto p (.commit (.writeLog (tail + 1))) with
        wrote := s.wrote ++ [s.lh.getD tail 0]
        stray := s.stray || size ≤ tail + 1 }
    else
      s.goto p (.commit .writeHead)
  | .writeHead => s.goto p (.commit (.install 0))
  | .install tail =>
    if tail < s.lh.length then
      { s.goto p (.commit (.install (tail + 1))) with
        installed := s.installed ++ [s.lh.getD tail 0] }
    else
      s.goto p (.commit .clear)
  | .clear => { s.goto p (.commit .clearHead) with lh := [] }
  | .clearHead => s.goto p (.commit .finish)
  | .finish =>
    { s.goto p .outside with
      committing := false
      ended := []
      wrote := []
      installed := []
      commits := ⟨s.ended, s.wrote, s.installed⟩ :: s.commits }

/-- One step of the kernel, with a log of `size` blocks. After a panic there is none. -/
def step (size : ℤ) (s : State P) (l : Label P) : Option (State P) :=
  if s.panicked ≠ none then
    none
  else
    match l with
    | .beginOp p =>
      match (s.thr p).pc with
      | .outside => some (s.goto p .waiting)
      | _ => none
    | .enter p =>
      match (s.thr p).pc with
      | .waiting => some (enter s p)
      | _ => none
    | .logWrite p b =>
      match (s.thr p).pc with
      | .inside => some (logWrite size s p b)
      | _ => none
    | .append p =>
      match (s.thr p).pc with
      | .logging b => some (append s p b)
      | _ => none
    | .endOp p =>
      match (s.thr p).pc with
      | .inside => some (endOp s p)
      | _ => none
    | .commit p =>
      match (s.thr p).pc with
      | .commit c => some (commitStep size s p c)
      | _ => none

/-- The kernel after `initlog`. -/
def init : State P where
  outstanding := 0
  committing := false
  lh := []
  thr _ := ⟨.outside, []⟩
  panicked := none
  stray := false
  ended := []
  wrote := []
  installed := []
  commits := []

/-- The steps, by their labels. -/
theorem step_cases {size : ℤ} {s s' : State P} {l : Label P} (h : step size s l = some s') :
    s.panicked = none ∧
      ((∃ p, l = .beginOp p ∧ (s.thr p).pc = .outside ∧ s' = s.goto p .waiting) ∨
      (∃ p, l = .enter p ∧ (s.thr p).pc = .waiting ∧ s' = enter s p) ∨
      (∃ p b, l = .logWrite p b ∧ (s.thr p).pc = .inside ∧ s' = logWrite size s p b) ∨
      (∃ p b, l = .append p ∧ (s.thr p).pc = .logging b ∧ s' = append s p b) ∨
      (∃ p, l = .endOp p ∧ (s.thr p).pc = .inside ∧ s' = endOp s p) ∨
      (∃ p c, l = .commit p ∧ (s.thr p).pc = .commit c ∧ s' = commitStep size s p c)) := by
  unfold step at h
  split_ifs at h with hp
  refine ⟨by simpa using hp, ?_⟩
  cases l with
  | beginOp p =>
    cases hpc : (s.thr p).pc <;> simp only [hpc, Option.some.injEq, reduceCtorEq] at h
    exact .inl ⟨p, rfl, hpc, h.symm⟩
  | enter p =>
    cases hpc : (s.thr p).pc <;> simp only [hpc, Option.some.injEq, reduceCtorEq] at h
    exact .inr (.inl ⟨p, rfl, hpc, h.symm⟩)
  | logWrite p b =>
    cases hpc : (s.thr p).pc <;> simp only [hpc, Option.some.injEq, reduceCtorEq] at h
    exact .inr (.inr (.inl ⟨p, b, rfl, hpc, h.symm⟩))
  | append p =>
    cases hpc : (s.thr p).pc <;> simp only [hpc, Option.some.injEq, reduceCtorEq] at h
    exact .inr (.inr (.inr (.inl ⟨p, _, rfl, hpc, h.symm⟩)))
  | endOp p =>
    cases hpc : (s.thr p).pc <;> simp only [hpc, Option.some.injEq, reduceCtorEq] at h
    exact .inr (.inr (.inr (.inr (.inl ⟨p, rfl, hpc, h.symm⟩))))
  | commit p =>
    cases hpc : (s.thr p).pc <;> simp only [hpc, Option.some.injEq, reduceCtorEq] at h
    exact .inr (.inr (.inr (.inr (.inr ⟨p, _, rfl, hpc, h.symm⟩))))

/-! ## What every step keeps -/

/-- Whether a process is inside an operation. -/
def Pc.inOp : Pc → ℕ
  | .inside => 1
  | .logging _ => 1
  | _ => 0

/-- Whether a process runs `commit`. -/
def Pc.inCommit : Pc → ℕ
  | .commit _ => 1
  | _ => 0

@[simp] theorem Pc.inOp_eq : Pc.outside.inOp = 0 ∧ Pc.waiting.inOp = 0 ∧ Pc.inside.inOp = 1 ∧
    (∀ b, (Pc.logging b).inOp = 1) ∧ ∀ c, (Pc.commit c).inOp = 0 :=
  ⟨rfl, rfl, rfl, fun _ => rfl, fun _ => rfl⟩

@[simp] theorem Pc.inCommit_eq : Pc.outside.inCommit = 0 ∧ Pc.waiting.inCommit = 0 ∧
    Pc.inside.inCommit = 0 ∧ (∀ b, (Pc.logging b).inCommit = 0) ∧
    ∀ c, (Pc.commit c).inCommit = 1 :=
  ⟨rfl, rfl, rfl, fun _ => rfl, fun _ => rfl⟩

/-- Every block of every operation that ended is among `bs`. -/
def EndedIn (s : State P) (bs : List ℕ) : Prop :=
  ∀ op ∈ s.ended, op ⊆ bs

/-- What holds between two steps of `commit`. -/
def Phase (s : State P) : CommitPc → Prop
  | .start => EndedIn s s.lh ∧ s.wrote = [] ∧ s.installed = []
  | .writeLog tail =>
    EndedIn s s.lh ∧ tail ≤ s.lh.length ∧ s.wrote = s.lh.take tail ∧ s.installed = []
  | .writeHead => EndedIn s s.lh ∧ s.wrote = s.lh ∧ s.installed = []
  | .install tail =>
    EndedIn s s.lh ∧ tail ≤ s.lh.length ∧ s.wrote = s.lh ∧ s.installed = s.lh.take tail
  | .clear => EndedIn s s.lh ∧ s.wrote = s.lh ∧ s.installed = s.lh
  | .clearHead => s.lh = [] ∧ EndedIn s s.wrote ∧ EndedIn s s.installed
  | .finish => s.lh = [] ∧ EndedIn s s.wrote ∧ EndedIn s s.installed

/-- The commit wrote every block of every operation in it, to the log and home. -/
def Commit.Complete (c : Commit) : Prop :=
  ∀ op ∈ c.ops, op ⊆ c.wrote ∧ op ⊆ c.installed

variable [Fintype P]

/-- The invariant of the log. -/
structure Inv (s : State P) : Prop where
  count : s.outstanding = (∑ q, (s.thr q).pc.inOp : ℕ)
  committers : ∑ q, (s.thr q).pc.inCommit = if s.committing then 1 else 0
  quiet : s.committing = true → ∑ q, (s.thr q).pc.inOp = 0
  panics : s.panicked ≠ some "log.committing" ∧ s.panicked ≠ some "log_write outside of trans"
  nodup : s.lh.Nodup
  logged : ∀ q, (s.thr q).pc.inOp = 1 → (s.thr q).logged ⊆ s.lh
  gathered : s.committing = false → Phase s .start
  phase : ∀ q c, (s.thr q).pc = .commit c → Phase s c
  complete : ∀ c ∈ s.commits, c.Complete

section

variable {s s' : State P} {p : P}

theorem sum_pc_update (w : Pc → ℕ) (s : State P) (p : P) (t : Thread) :
    ∑ q, w (update s.thr p t q).pc + w (s.thr p).pc = ∑ q, w (s.thr q).pc + w t.pc :=
  sum_update_add (fun t : Thread => w t.pc) s.thr p t

omit [DecidableEq P] in
theorem pc_le_sum (w : Pc → ℕ) (s : State P) (p : P) : w (s.thr p).pc ≤ ∑ q, w (s.thr q).pc :=
  single_le_sum (f := fun q => w (s.thr q).pc) (fun _ _ => Nat.zero_le _)
    (mem_univ p)

omit [DecidableEq P] in
theorem Inv.not_committing (h : Inv s) (hp : (s.thr p).pc.inOp = 1) : s.committing = false := by
  by_contra hc
  have h0 := h.quiet (by simpa using hc)
  have := pc_le_sum Pc.inOp s p
  omega

omit [DecidableEq P] in
theorem Inv.committing (h : Inv s) {c : CommitPc} (hp : (s.thr p).pc = .commit c) :
    s.committing = true := by
  by_contra hc
  have h0 := h.committers
  have := pc_le_sum Pc.inCommit s p
  rw [if_neg hc] at h0
  simp only [hp, Pc.inCommit_eq] at this
  omega

theorem Inv.committer_unique (h : Inv s) {c : CommitPc} (hp : (s.thr p).pc = .commit c)
    {q : P} (hq : q ≠ p) (d : CommitPc) : (s.thr q).pc ≠ .commit d := by
  intro hd
  have h0 := h.committers
  rw [if_pos (h.committing hp)] at h0
  have hle : ∑ r ∈ {p, q}, (s.thr r).pc.inCommit ≤ ∑ r, (s.thr r).pc.inCommit :=
    sum_le_sum_of_subset (subset_univ _)
  rw [sum_pair hq.symm, hp, hd, h0] at hle
  simp at hle

/-- A step of `commit` up to its last section, from what it does to the log. -/
theorem Inv.commit_goto (h : Inv s) {c c' : CommitPc} (hp : (s.thr p).pc = .commit c)
    (hs' : s' = { s.goto p (.commit c') with
      lh := s'.lh, wrote := s'.wrote, installed := s'.installed, stray := s'.stray })
    (hlh : s'.lh.Nodup) (hphase : Phase s' c') : Inv s' := by
  have hin := sum_pc_update Pc.inOp s p { s.thr p with pc := .commit c' }
  have hcom := sum_pc_update Pc.inCommit s p { s.thr p with pc := .commit c' }
  have hq := h.quiet (h.committing hp)
  simp only [hp, Pc.inOp_eq, Pc.inCommit_eq, Nat.add_right_cancel_iff] at hin hcom
  have hthr : ∀ q, (s'.thr q).pc.inOp ≠ 1 := by
    intro q h1
    have := pc_le_sum Pc.inOp s' q
    rw [hs'] at this h1
    simp only [State.goto] at this h1
    omega
  rw [hs'] at hthr hphase hlh ⊢
  refine ⟨?_, ?_, ?_, h.panics, hlh, fun q h1 => absurd h1 (hthr q), ?_, ?_, h.complete⟩
  · simpa only [State.goto, hin] using h.count
  · exact hcom.trans h.committers
  · simpa only [State.goto, hin] using h.quiet
  · intro hc
    exact absurd (h.committing hp) (by simpa [State.goto] using hc)
  · intro q d hd
    by_cases hqp : q = p
    · subst hqp
      simp only [State.goto, update_self, Pc.commit.injEq] at hd
      exact hd ▸ hphase
    · simp only [State.goto, update_of_ne hqp] at hd
      exact absurd hd (h.committer_unique hp hqp d)

theorem Inv.commitStep (h : Inv s) {c : CommitPc} (hp : (s.thr p).pc = .commit c) (size : ℤ) :
    Inv (commitStep size s p c) := by
  have hph := h.phase p c hp
  cases c with
  | start =>
    refine h.commit_goto hp rfl h.nodup ?_
    obtain ⟨he, hw, hi⟩ := hph
    split_ifs with hn
    · exact ⟨he, Nat.zero_le _, hw, hi⟩
    · have hnil : s.lh = [] := by simpa using hn
      exact ⟨hnil, fun op hop => hw ▸ hnil ▸ he op hop, fun op hop => hi ▸ hnil ▸ he op hop⟩
  | writeLog tail =>
    obtain ⟨he, hle, hw, hi⟩ := hph
    simp only [LogOps.commitStep]
    split_ifs with hlt
    · refine h.commit_goto hp rfl h.nodup ⟨he, hlt, ?_, hi⟩
      simp only [State.goto, hw, List.take_succ_eq_append_getElem hlt,
        List.getD_eq_getElem _ _ hlt]
    · refine h.commit_goto hp rfl h.nodup ⟨he, ?_, hi⟩
      simpa only [State.goto, List.take_of_length_le (not_lt.1 hlt)] using hw
  | writeHead =>
    obtain ⟨he, hw, hi⟩ := hph
    exact h.commit_goto hp rfl h.nodup ⟨he, Nat.zero_le _, hw, hi⟩
  | install tail =>
    obtain ⟨he, hle, hw, hi⟩ := hph
    simp only [LogOps.commitStep]
    split_ifs with hlt
    · refine h.commit_goto hp rfl h.nodup ⟨he, hlt, hw, ?_⟩
      simp only [State.goto, hi, List.take_succ_eq_append_getElem hlt,
        List.getD_eq_getElem _ _ hlt]
    · refine h.commit_goto hp rfl h.nodup ⟨he, hw, ?_⟩
      simpa only [State.goto, List.take_of_length_le (not_lt.1 hlt)] using hi
  | clear =>
    obtain ⟨he, hw, hi⟩ := hph
    refine h.commit_goto hp rfl List.nodup_nil ⟨rfl, ?_, ?_⟩
    · exact fun op hop => hw ▸ he op hop
    · exact fun op hop => hi ▸ he op hop
  | clearHead => exact h.commit_goto hp rfl h.nodup hph
  | finish =>
    have hin := sum_pc_update Pc.inOp s p { s.thr p with pc := .outside }
    have hcom := sum_pc_update Pc.inCommit s p { s.thr p with pc := .outside }
    have hone := h.committers
    have hquiet := h.quiet (h.committing hp)
    rw [if_pos (h.committing hp)] at hone
    simp only [hp, Pc.inOp_eq, Pc.inCommit_eq, hone, hquiet, add_zero, Nat.add_eq_right] at hin hcom
    have hzero := (sum_eq_zero_iff.1 hcom)
    obtain ⟨hlh, hw, hi⟩ := hph
    refine ⟨?_, hcom, fun hc => absurd hc (by simp [LogOps.commitStep]), h.panics, h.nodup,
      ?_, ?_, ?_, ?_⟩
    · simpa only [LogOps.commitStep, State.goto, hin, hquiet] using h.count
    · intro q h1
      have := sum_eq_zero_iff.1 hin q (mem_univ q)
      exact absurd (this.symm.trans h1) (by decide)
    · exact fun _ => ⟨by simp [EndedIn, LogOps.commitStep], rfl, rfl⟩
    · intro q c hq
      have := hzero q (mem_univ q)
      simp only [LogOps.commitStep, State.goto] at hq
      rw [hq] at this
      exact absurd this (by simp)
    · rintro c (_ | ⟨_, hc⟩)
      · exact fun op hop => ⟨hw op hop, hi op hop⟩
      · exact h.complete c hc

/-- `begin_op`, `log_write` and `end_op` outside a commit, from what they do to the log. -/
theorem Inv.running (h : Inv s) (hc : s.committing = false) {t : Thread}
    (ht : t.pc.inCommit = 0) (hs' : s' = { s with
      outstanding := s.outstanding + t.pc.inOp - (s.thr p).pc.inOp
      lh := s'.lh
      ended := s'.ended
      thr := update s.thr p t })
    (hlh : s'.lh.Nodup) (hsub : s.lh ⊆ s'.lh) (hended : EndedIn s' s'.lh)
    (hlogged : t.pc.inOp = 1 → t.logged ⊆ s'.lh) : Inv s' := by
  have hin := sum_pc_update Pc.inOp s p t
  have hcom := sum_pc_update Pc.inCommit s p t
  have hone := h.committers
  obtain ⟨-, hw, hi⟩ := h.gathered hc
  rw [if_neg (by simp [hc])] at hone
  have hp0 := pc_le_sum Pc.inCommit s p
  have hcom0 : ∑ q, (update s.thr p t q).pc.inCommit = 0 := by omega
  rw [hs'] at hended ⊢
  refine ⟨?_, ?_, fun hc' => absurd hc' (by simp [hc]), h.panics, hlh, ?_, fun _ => ?_, ?_,
    h.complete⟩
  · have := h.count
    simp only
    omega
  · simp only [hc, Bool.false_eq_true, ↓reduceIte, hcom0]
  · intro q hq
    by_cases hqp : q = p
    · subst hqp
      simp only [update_self] at hq ⊢
      exact hlogged hq
    · simp only [update_of_ne hqp] at hq ⊢
      exact fun b hb => hsub (h.logged q hq hb)
  · exact ⟨hended, hw, hi⟩
  · intro q c hq
    have := sum_eq_zero_iff.1 hcom0 q (mem_univ q)
    simp only at hq
    rw [hq] at this
    exact absurd this (by simp)

/-- A process that waits in `begin_op`, also during a commit. -/
theorem Inv.goto_waiting (h : Inv s) (hp : (s.thr p).pc = .outside) :
    Inv (s.goto p .waiting) := by
  have hin := sum_pc_update Pc.inOp s p { s.thr p with pc := .waiting }
  have hcom := sum_pc_update Pc.inCommit s p { s.thr p with pc := .waiting }
  simp only [hp, Pc.inOp_eq, Pc.inCommit_eq, add_zero] at hin hcom
  refine ⟨?_, hcom.trans h.committers, fun hc => hin.trans (h.quiet hc), h.panics, h.nodup,
    ?_, h.gathered, ?_, h.complete⟩
  · simpa only [State.goto, hin] using h.count
  · intro q hq
    by_cases hqp : q = p
    · subst hqp
      simp [State.goto] at hq
    · simp only [State.goto, update_of_ne hqp] at hq ⊢
      exact h.logged q hq
  · intro q c hq
    by_cases hqp : q = p
    · subst hqp
      simp [State.goto] at hq
    · simp only [State.goto, update_of_ne hqp] at hq
      exact h.phase q c hq

theorem Inv.enter (h : Inv s) (hp : (s.thr p).pc = .waiting) : Inv (enter s p) := by
  unfold LogOps.enter
  split_ifs with hc
  · exact h
  · exact h
  · have hc : s.committing = false := by simpa using hc
    exact h.running (p := p) (t := ⟨.inside, []⟩) hc rfl (by simp [hp]) h.nodup (fun b => id)
      (h.gathered hc).1 fun _ => List.nil_subset _

omit [DecidableEq P] in
theorem Inv.outstanding_pos (h : Inv s) (hp : (s.thr p).pc.inOp = 1) : 1 ≤ s.outstanding := by
  have := pc_le_sum Pc.inOp s p
  have := h.count
  omega

theorem Inv.logWrite (h : Inv s) (hp : (s.thr p).pc = .inside) (size : ℤ) (b : ℕ) :
    Inv (logWrite size s p b) := by
  have hin : (s.thr p).pc.inOp = 1 := by simp [hp]
  have hc := h.not_committing hin
  unfold LogOps.logWrite
  split_ifs with hfull hout
  · exact { h with panics := by simp }
  · exact absurd (h.outstanding_pos hin) (by omega)
  · exact h.running (p := p) (t := ⟨.logging b, (s.thr p).logged⟩) hc rfl
      (by simp [hp, State.goto]) h.nodup (fun b => id) (h.gathered hc).1
      fun _ => h.logged p hin

theorem Inv.append (h : Inv s) {b : ℕ} (hp : (s.thr p).pc = .logging b) :
    Inv (append s p b) := by
  have hin : (s.thr p).pc.inOp = 1 := by simp [hp]
  have hc := h.not_committing hin
  unfold LogOps.append
  split_ifs
  · exact { h with panics := by simp [overrun] }
  refine h.running (p := p) (t := ⟨.inside, absorb b (s.thr p).logged⟩) hc rfl
    (by simp [hp]) (absorb_nodup h.nodup b) (fun c hcs => mem_absorb.2 (.inr hcs))
    (fun op hop c hcs => mem_absorb.2 (.inr ((h.gathered hc).1 op hop hcs))) fun _ c hcs => ?_
  exact mem_absorb.2 ((mem_absorb.1 hcs).imp_right fun hcl => h.logged p hin hcl)

theorem Inv.start_commit (h : Inv s) (hp : (s.thr p).pc.inOp = 1) (hlast : s.outstanding - 1 = 0)
    {ended : List (List ℕ)} (hended : ∀ op ∈ ended, op ⊆ s.lh) : Inv { s with
      outstanding := s.outstanding - 1
      committing := true
      ended := ended
      thr := update s.thr p ⟨.commit .start, (s.thr p).logged⟩ } := by
  have hin := sum_pc_update Pc.inOp s p ⟨.commit .start, (s.thr p).logged⟩
  have hcom := sum_pc_update Pc.inCommit s p ⟨.commit .start, (s.thr p).logged⟩
  have hzero := h.committers
  have hcount := h.count
  obtain ⟨-, hw, hi⟩ := h.gathered (h.not_committing hp)
  have hp0 := pc_le_sum Pc.inCommit s p
  rw [if_neg (by simp [h.not_committing hp])] at hzero
  simp only [Pc.inOp_eq, Pc.inCommit_eq] at hin hcom
  have hin0 : ∑ q, (update s.thr p ⟨.commit .start, (s.thr p).logged⟩ q).pc.inOp = 0 :=
    by omega
  refine ⟨?_, ?_, fun _ => hin0, h.panics, h.nodup, ?_, fun hc => absurd hc (by simp), ?_,
    h.complete⟩
  · simp only [hin0, hlast]
    rfl
  · simp only [↓reduceIte]
    omega
  · intro q hq
    have := sum_eq_zero_iff.1 hin0 q (mem_univ q)
    exact absurd (this.symm.trans hq) (by decide)
  · intro q c hq
    by_cases hqp : q = p
    · subst hqp
      simp only [update_self, Pc.commit.injEq] at hq
      exact hq ▸ ⟨hended, hw, hi⟩
    · simp only [update_of_ne hqp] at hq
      have := sum_eq_zero_iff.1 hzero q (mem_univ q)
      rw [hq] at this
      exact absurd this (by simp)

theorem Inv.endOp (h : Inv s) (hp : (s.thr p).pc = .inside) : Inv (endOp s p) := by
  have hin : (s.thr p).pc.inOp = 1 := by simp [hp]
  have hc := h.not_committing hin
  have hended : ∀ op ∈ (s.thr p).logged :: s.ended, op ⊆ s.lh := by
    rintro op (_ | ⟨_, hop⟩)
    · exact h.logged p hin
    · exact (h.gathered hc).1 op hop
  unfold LogOps.endOp
  rw [if_neg (by simp [hc])]
  split_ifs with hlast
  · exact h.start_commit hin hlast hended
  · exact h.running (p := p) (t := ⟨.outside, (s.thr p).logged⟩) hc rfl (by simp [hp]) h.nodup
      (fun b => id) hended fun h0 => absurd h0 (by simp)

/-- Every step keeps the invariant. -/
theorem Inv.step (h : Inv s) {size : ℤ} {l : Label P} (hs : step size s l = some s') :
    Inv s' := by
  obtain ⟨-, ⟨p, -, hp, rfl⟩ | ⟨p, -, hp, rfl⟩ | ⟨p, b, -, hp, rfl⟩ | ⟨p, b, -, hp, rfl⟩ |
    ⟨p, -, hp, rfl⟩ | ⟨p, c, -, hp, rfl⟩⟩ := step_cases hs
  · exact h.goto_waiting hp
  · exact h.enter hp
  · exact h.logWrite hp size b
  · exact h.append hp
  · exact h.endOp hp
  · exact h.commitStep hp size

end

omit [DecidableEq P] in
theorem inv_init : Inv (init : State P) where
  count := by simp [init]
  committers := by simp [init]
  quiet h := absurd h (by simp [init])
  panics := by simp [init]
  nodup := List.nodup_nil
  logged _ h := absurd h (by simp [init])
  gathered _ := ⟨by simp [init, EndedIn], rfl, rfl⟩
  phase _ _ h := absurd h (by simp [init])
  complete _ h := absurd h (by simp [init])

/-- The invariant holds in every run. -/
theorem Inv.of_run {size : ℤ} {ls : List (Label P)} {s : State P}
    (h : run (LogOps.step size) init ls = some s) : Inv s :=
  run_invariant (fun _ _ _ hI _ hs => hI.step hs) inv_init
    (along_true _ _) h

/-! ## Operations and commits -/

/-- The blocks of the operation a step ends, if it ends one. -/
def endedBy (s : State P) : Label P → List (List ℕ)
  | .endOp p => [(s.thr p).logged]
  | _ => []

/-- The blocks of the operations that end along a run, in the order they end. -/
def endedAlong (size : ℤ) : State P → List (Label P) → List (List ℕ)
  | _, [] => []
  | s, l :: ls =>
    match step size s l with
    | none => []
    | some s' => endedBy s l ++ endedAlong size s' ls

/-- The operations that ended so far, committed or not, newest first. -/
def State.operations (s : State P) : List (List ℕ) :=
  s.ended ++ s.commits.flatMap Commit.ops

omit [Fintype P] in
theorem operations_commitStep (size : ℤ) (s : State P) (p : P) (c : CommitPc) :
    (commitStep size s p c).operations = s.operations := by
  unfold commitStep
  cases c <;> simp only [State.operations, State.goto] <;> (try split_ifs) <;> simp

theorem Inv.operations_step {s s' : State P} (h : Inv s) {size : ℤ} {l : Label P}
    (hs : LogOps.step size s l = some s') : s'.operations = endedBy s l ++ s.operations := by
  obtain ⟨-, ⟨p, rfl, -, rfl⟩ | ⟨p, rfl, -, rfl⟩ | ⟨p, b, rfl, -, rfl⟩ | ⟨p, b, rfl, -, rfl⟩ |
    ⟨p, rfl, hp, rfl⟩ | ⟨p, c, rfl, -, rfl⟩⟩ := step_cases hs
  · rfl
  · unfold LogOps.enter
    split_ifs <;> rfl
  · unfold LogOps.logWrite
    split_ifs <;> rfl
  · unfold LogOps.append
    split_ifs <;> rfl
  · rw [LogOps.endOp, if_neg (by simp [h.not_committing (p := p) (by simp [hp])])]
    split_ifs <;> rfl
  · exact operations_commitStep size s p c

/-- The operations of a state are those that ended on the way. -/
theorem operations_run {size : ℤ} : ∀ {ls : List (Label P)} {s s' : State P}, Inv s →
    run (step size) s ls = some s' →
    s'.operations = (endedAlong size s ls).reverse ++ s.operations
  | [], s, s', _, hr => by
    cases hr
    rfl
  | l :: ls, s, s', h, hr => by
    obtain ⟨s1, h1, hr1⟩ := run_cons hr
    have hrev : (endedBy s l).reverse = endedBy s l := by cases l <;> rfl
    rw [operations_run (h.step h1) hr1, h.operations_step h1]
    simp only [endedAlong, h1, List.reverse_append, hrev, List.append_assoc]

omit [DecidableEq P] in
theorem sum_inOp_eq_card (s : State P) :
    ∑ q, (s.thr q).pc.inOp = (Finset.univ.filter fun q => (s.thr q).pc.inOp = 1).card := by
  rw [card_filter]
  refine sum_congr rfl fun q _ => ?_
  cases (s.thr q).pc <;> rfl

/-! ## Room for the blocks -/

/-- A process that is to append a block to the header finds it there, or finds room for it in the
array and in a log of `size` blocks. -/
def Room (size : ℤ) (lh : List ℕ) : Pc → Prop
  | .logging b => b ∈ lh ∨ lh.length < LOGSIZE ∧ (lh.length : ℤ) < size - 1
  | _ => True

/-- Every append of a step has room. -/
def HasRoom (size : ℤ) (s : State P) : Label P → Prop
  | .append p => Room size s.lh (s.thr p).pc
  | _ => True

instance (size : ℤ) (lh : List ℕ) : (pc : Pc) → Decidable (Room size lh pc)
  | .logging _ => inferInstanceAs (Decidable (_ ∨ _))
  | .outside | .waiting | .inside | .commit _ => .isTrue trivial

instance (size : ℤ) (s : State P) : (l : Label P) → Decidable (HasRoom size s l)
  | .append p => inferInstanceAs (Decidable (Room size s.lh (s.thr p).pc))
  | .beginOp _ | .enter _ | .logWrite _ _ | .endOp _ | .commit _ => .isTrue trivial

/-- The invariant of the runs whose appends have room. -/
structure Within (size : ℤ) (s : State P) : Prop where
  array : s.panicked ≠ some overrun
  fits : s.lh ≠ [] → (s.lh.length : ℤ) < size
  log : s.stray = false

omit [Fintype P] in
/-- A step that has room keeps this. -/
theorem Within.step {s s' : State P} {size : ℤ} {l : Label P} (h : Within size s)
    (hroom : HasRoom size s l) (hs : LogOps.step size s l = some s') : Within size s' := by
  obtain ⟨harray, hfits, hlog⟩ := h
  obtain ⟨-, ⟨p, rfl, hp, rfl⟩ | ⟨p, rfl, hp, rfl⟩ | ⟨p, b, rfl, hp, rfl⟩ | ⟨p, b, rfl, hp, rfl⟩ |
    ⟨p, rfl, hp, rfl⟩ | ⟨p, c, rfl, hp, rfl⟩⟩ := step_cases hs
  · exact ⟨harray, hfits, hlog⟩
  · unfold LogOps.enter
    split_ifs <;> exact ⟨harray, hfits, hlog⟩
  · unfold LogOps.logWrite
    split_ifs
    · exact ⟨by simp [overrun], hfits, hlog⟩
    · exact ⟨by simp [overrun], hfits, hlog⟩
    · exact ⟨harray, hfits, hlog⟩
  · rw [HasRoom, hp] at hroom
    rw [append, if_neg (by rcases hroom with h | h <;> simp [h])]
    refine ⟨harray, fun _ => ?_, hlog⟩
    rcases hroom with hb | ⟨-, hlt⟩
    · simpa only [absorb, if_pos hb] using hfits (List.ne_nil_of_mem hb)
    · simp only [length_absorb]
      split_ifs <;> omega
  · unfold LogOps.endOp
    split_ifs
    · exact ⟨by simp [overrun], hfits, hlog⟩
    · exact ⟨harray, hfits, hlog⟩
    · exact ⟨harray, hfits, hlog⟩
  · cases c with
    | writeLog tail =>
      simp only [LogOps.commitStep]
      split_ifs with hlt
      · have := hfits (List.ne_nil_of_length_pos (by omega))
        refine ⟨harray, hfits, ?_⟩
        simp only [hlog, Bool.false_or, decide_eq_false_iff_not]
        omega
      · exact ⟨harray, hfits, hlog⟩
    | install tail =>
      simp only [LogOps.commitStep]
      split_ifs <;> exact ⟨harray, hfits, hlog⟩
    | clear => exact ⟨harray, fun h => absurd rfl h, hlog⟩
    | start | writeHead | clearHead | finish => exact ⟨harray, hfits, hlog⟩

/-- In every interleaving `outstanding` is the number of processes inside an operation; during a
commit it is zero and no process can `log_write`; two of the panics are unreachable; the header has
no duplicates. The blocks an operation has logged stay in the header until it ends, and every
operation that ended is in the header as a whole or in one commit as a whole, which copied all its
blocks to the log and home. As long as every append has room, no block is stored outside the header
or copied outside the log. -/
theorem no_operation_straddles {size : ℤ} {ls : List (Label P)} {s : State P}
    (h : run (step size) init ls = some s) :
    (Along (step size) (HasRoom size) init ls →
      s.panicked ≠ some overrun ∧ s.stray = false) ∧
    s.outstanding = (Finset.univ.filter fun p => (s.thr p).pc.inOp = 1).card ∧
    (s.committing = true → s.outstanding = 0 ∧
      ∀ p b, step size s (.logWrite p b) = none ∧ step size s (.append p) = none) ∧
    s.panicked ≠ some "log.committing" ∧
    s.panicked ≠ some "log_write outside of trans" ∧
    s.lh.Nodup ∧
    (∀ p, (s.thr p).pc.inOp = 1 → (s.thr p).logged ⊆ s.lh) ∧
    (s.committing = false → ∀ op ∈ s.ended, op ⊆ s.lh) ∧
    s.ended ++ s.commits.flatMap Commit.ops = (endedAlong size init ls).reverse ∧
    ∀ c ∈ s.commits, ∀ op ∈ c.ops, op ⊆ c.wrote ∧ op ⊆ c.installed := by
  have hI := Inv.of_run h
  refine ⟨fun hal => ?_, ?_, fun hc => ?_, hI.panics.1, hI.panics.2, hI.nodup, hI.logged,
    fun hc => (hI.gathered hc).1, ?_, hI.complete⟩
  · have hw := run_invariant (fun _ _ _ hI hC hs => Within.step hI hC hs)
      ⟨by simp [init], fun h => absurd rfl h, rfl⟩ hal h
    exact ⟨hw.array, hw.log⟩
  · rw [hI.count, sum_inOp_eq_card]
  · have hquiet := hI.quiet hc
    refine ⟨by rw [hI.count, hquiet]; rfl, fun p b => ?_⟩
    have hp := sum_eq_zero_iff.1 hquiet p (mem_univ p)
    unfold step
    cases hpc : (s.thr p).pc <;> simp_all
  · have := operations_run inv_init h
    simpa [State.operations, init] using this

/-- Two overlapping operations that share a block, the commit that follows and a process
that arrives during it. -/
def overlap : List (Label (Fin 2)) :=
  [.beginOp 0, .enter 0, .logWrite 0 50, .beginOp 1, .append 0, .enter 1, .logWrite 1 50,
    .append 1, .endOp 0, .logWrite 1 60, .append 1, .beginOp 0, .endOp 1, .enter 0, .commit 1,
    .commit 1, .commit 1, .commit 1, .commit 1, .commit 1, .commit 1, .enter 0, .commit 1,
    .commit 1, .commit 1, .commit 1, .enter 0]

theorem no_operation_straddles_overlap : ∃ s : State (Fin 2),
    run (step 30) init overlap = some s ∧
    s.commits.map Commit.ops = [[[50, 60], [50]]] ∧ s.outstanding = 1 ∧ s.stray = false ∧
    ∀ c ∈ s.commits, ∀ op ∈ c.ops, op ⊆ c.wrote ∧ op ⊆ c.installed := by
  have h : (run (step 30) init overlap).isSome := by decide
  obtain ⟨s, hs⟩ := Option.isSome_iff_exists.1 h
  have hops : (run (step 30) init overlap).map (fun s => s.commits.map Commit.ops) =
      some [[[50, 60], [50]]] := by decide
  have hout : (run (step 30) init overlap).map State.outstanding = some 1 := by decide
  rw [hs] at hops hout
  obtain ⟨hroom, -, -, -, -, -, -, -, -, hcomplete⟩ := no_operation_straddles hs
  exact ⟨s, hs, Option.some.inj hops, Option.some.inj hout, (hroom (by decide +kernel)).2,
    hcomplete⟩

/-- Three processes call `begin_op` and are let in. -/
def threeOps : List (Label (Fin 3)) :=
  [.beginOp 0, .enter 0, .beginOp 1, .enter 1, .beginOp 2, .enter 2]

/-- Process `p` logs `k` blocks no other process logs. -/
def logMany (p : Fin 3) (k : ℕ) : List (Label (Fin 3)) :=
  (List.range k).flatMap fun i => [.logWrite p (100 + 10 * p + i), .append p]

/-- The processes of `threeOps` log `i`, `j` and `k` blocks. -/
def logThree (i j k : ℕ) : List (Label (Fin 3)) :=
  threeOps ++ logMany 0 i ++ logMany 1 j ++ logMany 2 k

/-- Three processes log 28 blocks, and then each of `ps` tests for room for one more before the
first of them appends it. -/
def raceFor (ps : List (Fin 3)) : List (Label (Fin 3)) :=
  logThree 9 9 10 ++ ps.map (fun p => .logWrite p (200 + p)) ++ ps.map .append

set_option maxRecDepth 10000 in
/-- Of three blocks that were tested when there was room for one the last is stored outside the
header, and of two the last is copied outside the log. -/
theorem log_write_overruns :
    (run (step LOGSIZE) init (raceFor [0, 1, 2])).map State.panicked =
      some (some overrun) ∧
    (run (step LOGSIZE) init (raceFor [0, 1] ++ [.endOp 0, .endOp 1, .endOp 2] ++
      List.replicate 31 (.commit 2))).map State.stray = some true := by
  decide +kernel

end LogOps

end Xv6
