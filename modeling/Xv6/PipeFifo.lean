import Xv6.Pipe

/-!
# A pipe is a queue

Whatever the interleaving, the bytes `piperead` returns, in the order in which the calls
release `p->lock`, are the first of the bytes stored, and the rest are in the pipe
(`pipe_fifo`). `Locks` says who holds which lock and what a process that holds `p->lock` knows of
the pipe; `Queue` compares what was stored with what was read; `Calls` follows each call of
`pipewrite` by its number. A step changes one process, so each layer has a lemma for such a change
(`Locks.change`, `Queue.change`, `Calls.change`).
-/

set_option linter.unusedSectionVars false

open Function Transition List

namespace Xv6.Pipe

open Ptable (ProcState)

variable {P : Type*}

/-! ## What the place of a process says -/

/-- The process holds `p->lock`. -/
def Pc.holds : Pc → Bool
  | .writeFor _ | .writeWhile _ | .readWhile _ | .readFor _ _ | .closing _ | .wake _ _
  | .woken _ | .sleep _ .lock | .sleep _ .unlock => true
  | _ => false

/-- The process holds `ptable.lock`. -/
def Pc.holdsPtable : Pc → Bool
  | .wake _ .scan | .wake _ .unlock | .sleep _ .unlock | .sleep _ .mark | .sleep _ .switched
  | .sleep _ .resume => true
  | _ => false

/-- The bytes the process has read in its call. -/
def Pc.got : Pc → List UInt8
  | .readFor _ got | .wake (.read _ got) _ | .woken (.read _ got) => got
  | _ => []

/-- The call of `pipewrite` the process is in. -/
def Pc.write : Pc → Option Write
  | .writeEnter w | .writeFor w | .writeWhile w | .wake (.full w) _ | .wake (.written w) _
  | .woken (.full w) | .woken (.written w) | .sleep (.write w) _ => some w
  | _ => none

/-- What a process that holds `p->lock` has found. -/
def Pc.Fact (pipe : Pipe) : Pc → Prop
  | .wake (.full _) _ | .woken (.full _) | .sleep (.write _) .lock | .sleep (.write _) .unlock =>
    pipe.full ∧ pipe.readopen = true
  | .sleep (.read _) .lock | .sleep (.read _) .unlock =>
    pipe.nread = pipe.nwrite ∧ pipe.writeopen = true
  | .readFor _ got => got = [] → pipe.nread = pipe.nwrite → pipe.writeopen = false
  | .wake (.read n got) _ | .woken (.read n got) =>
    0 < n → got = [] → pipe.nread = pipe.nwrite ∧ pipe.writeopen = false
  | _ => True

/-- The index of a call of `pipewrite`. -/
def Pc.Index : Pc → Prop
  | .writeEnter w => w.i = 0
  | .writeFor w => (w.i : ℤ) ≤ max w.n 0
  | .writeWhile w | .wake (.full w) _ | .woken (.full w) | .sleep (.write w) _ => (w.i : ℤ) < w.n
  | .wake (.written w) _ | .woken (.written w) => (w.i : ℤ) = max w.n 0
  | _ => True

theorem Pc.fact_of_not_holds {pc : Pc} (h : pc.holds = false) (pipe : Pipe) : pc.Fact pipe := by
  unfold Pc.holds at h
  split at h
  all_goals first
    | exact absurd h (by decide)
    | (unfold Pc.Fact; split <;> simp_all)

theorem Pc.got_of_not_holds {pc : Pc} (h : pc.holds = false) : pc.got = [] := by
  unfold Pc.holds at h
  split at h
  all_goals first
    | exact absurd h (by decide)
    | (unfold Pc.got; split <;> simp_all)

/-! ## Locks -/

/-- Who holds the locks, and what they know. -/
structure Locks (s : State P) : Prop where
  lock : ∀ p, s.lock = some p ↔ (s.proc p).pc.holds = true
  ptable : ∀ p, s.ptable = some p ↔ (s.proc p).pc.holdsPtable = true
  fact : ∀ p, (s.proc p).pc.Fact s.pipe
  sleeping : ∀ p, (s.proc p).state = .sleeping → ∃ c,
    ((s.proc p).pc = .sleep c .switched ∨ (s.proc p).pc = .sleep c .asleep) ∧
      (s.proc p).chan = some c.chan

theorem start_locks (data : Fin PIPESIZE → UInt8) : Locks (start P data) where
  lock p := by simp [start, Pc.holds]
  ptable p := by simp [start, Pc.holdsPtable]
  fact p := trivial
  sleeping p h := by cases h

variable [DecidableEq P] {s s' : State P} {p : P}

/-- Process `p` becomes `t`, and the others stay where they are. -/
structure Becomes (s s' : State P) (p : P) (t : Proc) : Prop where
  self : s'.proc p = t
  pc : ∀ q, q ≠ p → (s'.proc q).pc = (s.proc q).pc
  chan : ∀ q, q ≠ p → (s'.proc q).chan = (s.proc q).chan
  state : ∀ q, q ≠ p → (s'.proc q).state = .sleeping → (s.proc q).state = .sleeping

/-- The lock before and after, as the place of process `p` says. -/
def Handover (p : P) (before after : Bool) (l l' : Option P) : Prop :=
  match before, after with
  | false, false | true, true => l' = l
  | false, true => l = none ∧ l' = some p
  | true, false => l' = none

theorem Handover.iff {before after : Bool} {l l' : Option P} {held held' : P → Bool}
    (h : Handover p before after l l') (hl : ∀ q, l = some q ↔ held q = true)
    (hp : held p = before) (hp' : held' p = after) (hq : ∀ q, q ≠ p → held' q = held q) (q : P) :
    l' = some q ↔ held' q = true := by
  unfold Handover at h
  grind

theorem Locks.change {t : Proc} (h : Locks s) (hb : Becomes s s' p t)
    (hlock : Handover p (s.proc p).pc.holds t.pc.holds s.lock s'.lock)
    (hptable : Handover p (s.proc p).pc.holdsPtable t.pc.holdsPtable s.ptable s'.ptable)
    (hpipe : s'.pipe = s.pipe ∨ (s.proc p).pc.holds = true)
    (hfact : t.pc.Fact s'.pipe)
    (hsleep : t.state = .sleeping → ∃ c, (t.pc = .sleep c .switched ∨ t.pc = .sleep c .asleep) ∧
      t.chan = some c.chan) : Locks s' where
  lock := hlock.iff h.lock rfl (by rw [hb.self]) fun q hq => by rw [hb.pc q hq]
  ptable := hptable.iff h.ptable rfl (by rw [hb.self]) fun q hq => by rw [hb.pc q hq]
  fact q := by
    by_cases hq : q = p
    · rw [hq, hb.self]
      exact hfact
    · rw [hb.pc q hq]
      rcases hpipe with hpipe | hpipe
      · rw [hpipe]
        exact h.fact q
      · -- another process does not hold the lock
        refine Pc.fact_of_not_holds ?_ _
        rw [Bool.eq_false_iff]
        intro hq'
        rw [← h.lock] at hpipe hq'
        exact hq (Option.some.inj (hq'.symm.trans hpipe))
  sleeping q hs := by
    by_cases hq : q = p
    · subst hq
      rw [hb.self] at hs ⊢
      exact hsleep hs
    · rw [hb.pc q hq, hb.chan q hq]
      exact h.sleeping q (hb.state q hq hs)

theorem becomes_modify {s1 : State P} (h : s1.proc = s.proc) (f : Proc → Proc) :
    Becomes s (s1.modify p f) p (f (s.proc p)) where
  self := by simp [State.modify, h]
  pc q hq := by simp [State.modify, h, hq]
  chan q hq := by simp [State.modify, h, hq]
  state q hq hs := by simpa [State.modify, h, hq] using hs

theorem becomes_goto (s1 : State P) (h : s1.proc = s.proc) (pc : Pc) :
    Becomes s (s1.goto p pc) p { s.proc p with pc := pc } :=
  becomes_modify h fun q => { q with pc := pc }

theorem becomes_wakeup1 (hns : (s.proc p).state ≠ .sleeping) (c : Chan) (pc : Pc) :
    Becomes s ((wakeup1 s c).goto p pc) p { s.proc p with pc := pc } where
  self := by simp [State.goto, State.modify, wakeup1, hns]
  pc q hq := by
    simp only [State.goto, State.modify, wakeup1, update_of_ne hq]
    split_ifs <;> rfl
  chan q hq := by
    simp only [State.goto, State.modify, wakeup1, update_of_ne hq]
    split_ifs <;> rfl
  state q hq hs := by
    simp only [State.goto, State.modify, wakeup1, update_of_ne hq] at hs
    split_ifs at hs
    exact hs

/-! ## What a step does -/

/-- What a sleeper waits for is still missing. -/
def Cond (pipe : Pipe) : Chan → Prop
  | .nread => pipe.nread = pipe.nwrite ∧ pipe.writeopen = true
  | .nwrite => pipe.full ∧ pipe.readopen = true

/-- The process is asleep on `c`, or is about to be and has released `p->lock`. -/
def Proc.Waits (q : Proc) (c : Chan) : Prop :=
  (∃ k, q.pc = .sleep k .mark ∧ k.chan = c) ∨ q.state = .sleeping ∧ q.chan = some c

/-- The process holds `p->lock`, and wakes the sleepers on `c` before it releases it. -/
def Pc.owes (c : Chan) : Pc → Bool
  | .writeFor _ | .writeWhile _ => c = .nread
  | .readFor _ _ => c = .nwrite
  | .wake k .lock | .wake k .scan => c = k.chan
  | _ => false

/-- The step is that of a `pipewrite` that finds the pipe full and returns `-1`. -/
def GivesUp (s : State P) : Label P → Prop
  | .turn p => ∃ w, (s.proc p).pc = .writeWhile w ∧ s.pipe.full ∧
      (s.pipe.readopen = false ∨ (s.proc p).killed = true)
  | _ => False

/-- What a step of process `p`, which goes to `pc`, does to the bytes. -/
inductive Flow (s s' : State P) (p : P) (pc : Pc) : Prop
  | keep (hring : s'.pipe.toRingBuffer = s.pipe.toRingBuffer) (hstored : s'.stored = s.stored)
    (hresults : s'.results = s.results) (hcalls : s'.calls = s.calls)
    (hgot : pc.got = (s.proc p).pc.got) (hwrite : pc.write = (s.proc p).pc.write)
  | call (w : Write) (hring : s'.pipe.toRingBuffer = s.pipe.toRingBuffer)
    (hstored : s'.stored = s.stored) (hresults : s'.results = s.results)
    (hcalls : s'.calls = s.calls + 1) (hgot : pc.got = (s.proc p).pc.got)
    (hwrite : pc.write = some w) (hid : w.id = s.calls) (hi : w.i = 0)
  | store (w : Write) (hpc : (s.proc p).pc = .writeWhile w) (hpc' : pc.got = [])
    (hwrite : pc.write = some { w with i := w.i + 1 }) (hfull : ¬ s.pipe.full)
    (hring : s'.pipe.toRingBuffer = s.pipe.push (w.addr w.i))
    (hstored : s'.stored = s.stored ++ [(w.id, w.addr w.i)]) (hresults : s'.results = s.results)
    (hcalls : s'.calls = s.calls)
  | load (hne : s.pipe.nread ≠ s.pipe.nwrite) (hgot : pc.got = (s.proc p).pc.got ++ [s.pipe.head])
    (hholds : (s.proc p).pc.holds = true) (hring : s'.pipe.toRingBuffer = s.pipe.pop)
    (hstored : s'.stored = s.stored) (hresults : s'.results = s.results)
    (hcalls : s'.calls = s.calls) (hwrite : pc.write = (s.proc p).pc.write)
  | ret (r : Result) (hbytes : r.bytes = (s.proc p).pc.got)
    (hr : ∀ w x, r = .write w x → (s.proc p).pc.write = some w ∧
      (0 < x → x = w.n ∧ (w.i : ℤ) = w.n))
    (hread : ∀ n got, r = .read n got 0 → (s.proc p).pc = .woken (.read n got) ∧ got = [])
    (hpipe : s'.pipe = s.pipe) (hstored : s'.stored = s.stored)
    (hresults : s'.results = s.results ++ [r]) (hcalls : s'.calls = s.calls) (hgot : pc.got = [])
    (hwrite : pc.write = none)

/-- What a step does, where process `p` becomes `t`. -/
structure Move (s : State P) (a : Label P) (s' : State P) (p : P) (t : Proc) : Prop where
  becomes : Becomes s s' p t
  lock : Handover p (s.proc p).pc.holds t.pc.holds s.lock s'.lock
  ptable : Handover p (s.proc p).pc.holdsPtable t.pc.holdsPtable s.ptable s'.ptable
  pipe : s'.pipe = s.pipe ∨ (s.proc p).pc.holds = true
  fact : t.pc.Fact s'.pipe
  sleeping : t.state = .sleeping → ∃ c, (t.pc = .sleep c .switched ∨ t.pc = .sleep c .asleep) ∧
    t.chan = some c.chan
  index : t.pc.Index
  flow : Flow s s' p t.pc
  waits : ∀ c, t.Waits c → (s.proc p).Waits c ∨ Cond s.pipe c
  owes : ∀ c, t.pc.owes c = true ∨ (Cond s.pipe c → Cond s'.pipe c) ∧
    ((s.proc p).pc.owes c = true → (∀ q, ¬ (s'.proc q).Waits c) ∨ GivesUp s a)

/-- What holds of process `p` when it takes a step. -/
structure Ready (s : State P) (p : P) : Prop where
  locks : Locks s
  index : (s.proc p).pc.Index

theorem Ready.not_sleeping (h : Ready s p) {pc : Pc} (hpc : (s.proc p).pc = pc)
    (hne : ∀ c, pc ≠ .sleep c .switched ∧ pc ≠ .sleep c .asleep) :
    (s.proc p).state ≠ .sleeping := by
  intro hs
  obtain ⟨c, hc, -⟩ := h.locks.sleeping p hs
  rw [hpc] at hc
  exact hc.elim (hne c).1 (hne c).2

/-- A step that changes no more of process `p` than its place. -/
theorem move_to {a : Label P} {pc pc' : Pc} (h : Ready s p) (hpc : (s.proc p).pc = pc)
    (hb : Becomes s s' p { s.proc p with pc := pc' })
    (hlock : Handover p pc.holds pc'.holds s.lock s'.lock)
    (hptable : Handover p pc.holdsPtable pc'.holdsPtable s.ptable s'.ptable)
    (hpipe : s'.pipe = s.pipe ∨ pc.holds = true) (hfact : pc'.Fact s'.pipe) (hindex : pc'.Index)
    (hne : ∀ c, pc ≠ .sleep c .switched ∧ pc ≠ .sleep c .asleep)
    (hmark : ∀ k, pc' = .sleep k .mark → Cond s.pipe k.chan) (hflow : Flow s s' p pc')
    (howes : ∀ c, pc'.owes c = true ∨ (Cond s.pipe c → Cond s'.pipe c) ∧
      (pc.owes c = true → (∀ q, ¬ (s'.proc q).Waits c) ∨ GivesUp s a)) :
    Move s a s' p { s.proc p with pc := pc' } := by
  have hns := h.not_sleeping hpc hne
  subst hpc
  refine ⟨hb, hlock, hptable, hpipe, hfact, fun hs => absurd hs hns, hindex, hflow, ?_, howes⟩
  rintro c (⟨k, hk, rfl⟩ | hw)
  · exact .inr (hmark k hk)
  · exact .inl (.inr hw)

theorem move_goto {a : Label P} {pc pc' : Pc} {l pt : Option P} (h : Ready s p)
    (hpc : (s.proc p).pc = pc) (hlock : Handover p pc.holds pc'.holds s.lock l)
    (hptable : Handover p pc.holdsPtable pc'.holdsPtable s.ptable pt)
    (hfact : pc'.Fact s.pipe) (hindex : pc'.Index)
    (hne : ∀ c, pc ≠ .sleep c .switched ∧ pc ≠ .sleep c .asleep)
    (hgot : pc'.got = pc.got) (hwrite : pc'.write = pc.write)
    (howes : ∀ c, pc.owes c = true → pc'.owes c = true)
    (hmark : ∀ k, pc' = .sleep k .mark → Cond s.pipe k.chan) :
    Move s a ({ s with lock := l, ptable := pt }.goto p pc') p { s.proc p with pc := pc' } := by
  refine move_to h hpc (becomes_goto _ (by rfl) pc') hlock hptable (.inl rfl) hfact hindex hne hmark
    (.keep rfl rfl rfl rfl (hpc ▸ hgot) (hpc ▸ hwrite)) fun c => ?_
  by_cases ho : pc.owes c = true
  · exact .inl (howes c ho)
  · exact .inr ⟨id, fun ho' => absurd ho' ho⟩

theorem move_ret {a : Label P} {pc : Pc} {r : Result} (h : Ready s p)
    (hpc : (s.proc p).pc = pc) (hlock : pc.holds = true) (hptable : pc.holdsPtable = false)
    (hne : ∀ c, pc ≠ .sleep c .switched ∧ pc ≠ .sleep c .asleep) (hbytes : r.bytes = pc.got)
    (hr : ∀ w x, r = .write w x → pc.write = some w ∧ (0 < x → x = w.n ∧ (w.i : ℤ) = w.n))
    (hread : ∀ n got, r = .read n got 0 → pc = .woken (.read n got) ∧ got = [])
    (howes : ∀ c, pc.owes c = true → GivesUp s a) :
    Move s a (ret s p r) p { s.proc p with pc := .user } :=
  move_to h hpc (becomes_goto { s with lock := none, results := s.results ++ [r] } (by rfl) .user)
    (by rw [hlock]; rfl) (by rw [hptable]; rfl) (.inl rfl) trivial trivial hne (by simp)
    (.ret r (hpc ▸ hbytes) (hpc ▸ hr) (hpc ▸ hread) rfl rfl rfl rfl rfl rfl)
    fun c => .inr ⟨id, fun ho => .inr (howes c ho)⟩

theorem move_write {w : Write} {a : Label P} (ha : a = .turn p) (h : Ready s p)
    (hpc : (s.proc p).pc = .writeWhile w) (hs : turn s p = some s') : ∃ t, Move s a s' p t := by
  have hi : (w.i : ℤ) < w.n := by
    have := h.index
    rwa [hpc] at this
  simp only [turn, hpc] at hs
  split_ifs at hs with hfull hfail
  · cases hs
    refine ⟨_, move_ret h hpc rfl rfl (by simp) rfl ?_ (by simp) fun c _ => ?_⟩
    · rintro w x ⟨⟩
      exact ⟨rfl, by omega⟩
    · subst ha
      exact ⟨w, hpc, hfull, hfail⟩
  · cases hs
    have hopen : s.pipe.readopen = true := by simpa using fun h => hfail (.inl h)
    exact ⟨_, move_goto h hpc rfl rfl ⟨hfull, hopen⟩ hi (by simp) rfl rfl
      (by simp [Pc.owes, Waker.chan]) (by simp)⟩
  · cases hs
    refine ⟨_, move_to h hpc (becomes_goto _ (by rfl) (.writeFor { w with i := w.i + 1 })) rfl rfl
      (.inr rfl) trivial ?_ (by simp) (by simp) (.store w hpc rfl rfl hfull rfl rfl rfl rfl) ?_⟩
    · change ((w.i + 1 : ℕ) : ℤ) ≤ max w.n 0
      omega
    · rintro (_ | _)
      · exact .inl rfl
      · exact .inr ⟨fun hc => absurd hc.1 hfull, by simp [Pc.owes]⟩

theorem move_read {n : ℤ} {got : List UInt8} {a : Label P} (h : Ready s p)
    (hpc : (s.proc p).pc = .readFor n got) (hs : turn s p = some s') : ∃ t, Move s a s' p t := by
  have hf := h.locks.fact p
  rw [hpc] at hf
  simp only [turn, hpc] at hs
  split_ifs at hs with hmore
  · cases hs
    refine ⟨_, move_to h hpc (becomes_goto _ (by rfl) (.readFor n (got ++ [s.pipe.head]))) rfl rfl
      (.inr rfl) (by simp [Pc.Fact]) trivial (by simp) (by simp) (.load hmore.2 (by rw [hpc]; rfl)
        (by rw [hpc]; rfl) rfl rfl rfl rfl (by rw [hpc]; rfl)) ?_⟩
    rintro (_ | _)
    · exact .inr ⟨fun hc => absurd hc.1 hmore.2, by simp [Pc.owes]⟩
    · exact .inl rfl
  · cases hs
    refine ⟨_, move_goto h hpc rfl rfl ?_ trivial (by simp) rfl rfl
      (by simp [Pc.owes, Waker.chan]) (by simp)⟩
    rintro hn rfl
    have hempty : s.pipe.nread = s.pipe.nwrite := by
      by_contra hne
      exact hmore ⟨by simpa using hn, hne⟩
    exact ⟨hempty, hf rfl hempty⟩

theorem move_close {writable : Bool} {a : Label P} (h : Ready s p)
    (hpc : (s.proc p).pc = .closing writable) :
    ∃ t, Move s a ((closeEnd s writable).goto p (.wake (.close writable) .lock)) p t := by
  refine ⟨_, move_to h hpc (becomes_goto _ (by rfl) _) rfl rfl (.inr rfl) trivial trivial (by simp)
    (by simp) (.keep ?_ rfl rfl rfl (by rw [hpc]; rfl) (by rw [hpc]; rfl)) ?_⟩
  · cases writable <;> rfl
  · -- the sleepers of the other end are not concerned
    rintro (_ | _) <;> cases writable
    · exact .inr ⟨id, by simp [Pc.owes]⟩
    · exact .inl rfl
    · exact .inl rfl
    · exact .inr ⟨id, by simp [Pc.owes]⟩

/-- `wakeup1` leaves no sleeper behind. -/
theorem not_waits_wakeup1 {c : Chan} {pc : Pc} (h : Locks s) (hpt : s.ptable = some p)
    (hpc : ∀ k, pc ≠ .sleep k .mark) (hns : (s.proc p).state ≠ .sleeping) (q : P) :
    ¬ (((wakeup1 s c).goto p pc).proc q).Waits c := by
  have hb := becomes_wakeup1 hns c pc
  by_cases hq : q = p
  · subst hq
    rw [hb.self]
    rintro (⟨k, hk, -⟩ | ⟨hk, -⟩)
    · exact hpc k hk
    · exact hns hk
  · rintro (⟨k, hk, -⟩ | ⟨hk, hchan⟩)
    · -- a process about to sleep holds `ptable.lock`
      rw [hb.pc q hq] at hk
      have hpt' := (h.ptable q).2 (by rw [hk]; rfl)
      exact hq (Option.some.inj (hpt'.symm.trans hpt))
    · have hs := hb.state q hq hk
      rw [hb.chan q hq] at hchan
      simp [State.goto, State.modify, wakeup1, hq, hs, hchan] at hk

theorem move_wake {c : Waker} {k : WakeStage} {a : Label P} (h : Ready s p)
    (hpc : (s.proc p).pc = .wake c k) (hs : wakeTurn s p c k = some s') :
    ∃ t, Move s a s' p t := by
  have hf := h.locks.fact p
  have hi := h.index
  rw [hpc] at hf hi
  cases k with
  | lock =>
    obtain ⟨hfree, rfl⟩ := enabled hs
    refine ⟨_, move_goto h hpc rfl ⟨hfree, rfl⟩ ?_ ?_ (by simp) ?_ ?_ (fun _ => id) (by simp)⟩
    all_goals cases c <;> first | exact hf | exact hi | rfl
  | scan =>
    cases hs
    have hns : (s.proc p).state ≠ .sleeping := h.not_sleeping hpc (by simp)
    refine ⟨_, move_to h hpc (becomes_wakeup1 hns _ _) rfl rfl (.inl rfl) ?_ ?_ (by simp) (by simp)
      (.keep rfl rfl rfl rfl (by rw [hpc]; cases c <;> rfl) (by rw [hpc]; cases c <;> rfl)) ?_⟩
    · cases c <;> exact hf
    · cases c <;> exact hi
    · refine fun d => .inr ⟨id, fun ho => .inl fun q hw => ?_⟩
      obtain rfl : d = c.chan := by simpa [Pc.owes] using ho
      have hpt : s.ptable = some p := (h.locks.ptable p).2 (by rw [hpc]; rfl)
      exact not_waits_wakeup1 h.locks hpt (by simp) hns q hw
  | unlock =>
    cases hs
    refine ⟨_, move_goto h hpc rfl rfl ?_ ?_ (by simp) ?_ ?_ (by simp [Pc.owes]) (by simp)⟩
    all_goals cases c <;> first | exact hf | exact hi | rfl

theorem move_woken {c : Waker} {a : Label P} (h : Ready s p) (hpc : (s.proc p).pc = .woken c) :
    ∃ t, Move s a (wokenTurn s p c) p t := by
  have hf := h.locks.fact p
  have hi := h.index
  rw [hpc] at hf hi
  cases c with
  | full w =>
    exact ⟨_, move_goto h hpc rfl rfl hf hi (by simp) rfl rfl (by simp [Pc.owes]) (by simp)⟩
  | written w =>
    have hw : (w.i : ℤ) = max w.n 0 := hi
    refine ⟨_, move_ret h hpc rfl rfl (by simp) rfl ?_ (by simp) (by simp [Pc.owes])⟩
    rintro _ x ⟨⟩
    exact ⟨rfl, fun hx => ⟨rfl, by omega⟩⟩
  | read n got =>
    refine ⟨_, move_ret h hpc rfl rfl (by simp) rfl (by simp) ?_ (by simp [Pc.owes])⟩
    simp only [Result.read.injEq]
    rintro _ _ ⟨rfl, rfl, hx⟩
    exact ⟨rfl, by simpa using hx⟩
  | close writable =>
    unfold wokenTurn release
    split_ifs
    · exact ⟨_, move_goto h hpc rfl rfl trivial trivial (by simp) rfl rfl (by simp [Pc.owes])
        (by simp)⟩
    · exact ⟨_, move_goto h hpc rfl rfl trivial trivial (by simp) rfl rfl (by simp [Pc.owes])
        (by simp)⟩

theorem move_sleep {c : Sleeper} {k : SleepStage} {a : Label P} (h : Ready s p)
    (hpc : (s.proc p).pc = .sleep c k) (hs : sleepTurn s p c k = some s') :
    ∃ t, Move s a s' p t := by
  have hf := h.locks.fact p
  have hi := h.index
  rw [hpc] at hf hi
  cases k with
  | lock =>
    obtain ⟨hfree, rfl⟩ := enabled hs
    refine ⟨_, move_goto h hpc rfl ⟨hfree, rfl⟩ ?_ ?_ (by simp) ?_ ?_ (by simp [Pc.owes]) (by simp)⟩
    all_goals cases c <;> first | exact hf | exact hi | rfl
  | unlock =>
    cases hs
    refine ⟨_, move_goto h hpc rfl rfl ?_ ?_ (by simp) ?_ ?_ (by simp [Pc.owes]) ?_⟩
    · cases c <;> trivial
    · cases c <;> exact hi
    · rfl
    · cases c <;> rfl
    · rintro _ ⟨⟩
      cases c <;> exact hf
  | mark =>
    cases hs
    refine ⟨{ s.proc p with chan := some c.chan, state := .sleeping, pc := .sleep c .switched },
      becomes_modify (by rfl) _, ?_, ?_, .inl rfl, ?_, fun _ => ⟨c, .inl rfl, rfl⟩, ?_, ?_, ?_, ?_⟩
    · rw [hpc]; rfl
    · rw [hpc]; rfl
    · cases c <;> trivial
    · cases c <;> exact hi
    · exact .keep rfl rfl rfl rfl (by rw [hpc]; cases c <;> rfl) (by rw [hpc]; cases c <;> rfl)
    · rintro d (⟨k, hk, -⟩ | ⟨-, hw⟩)
      · cases hk
      · exact .inl (.inl ⟨c, hpc, Option.some.inj hw⟩)
    · exact fun d => .inr ⟨id, by simp [hpc, Pc.owes]⟩
  | switched =>
    cases hs
    refine ⟨{ s.proc p with pc := .sleep c .asleep }, becomes_goto _ (by rfl) _,
      ?_, ?_, .inl rfl, ?_, ?_, ?_, ?_, ?_, ?_⟩
    · rw [hpc]; rfl
    · rw [hpc]; rfl
    · cases c <;> trivial
    · intro hs
      obtain ⟨d, hd, hchan⟩ := h.locks.sleeping p hs
      rw [hpc] at hd
      simp only [Pc.sleep.injEq, and_true, reduceCtorEq, and_false, or_false] at hd
      exact ⟨c, .inr rfl, hd ▸ hchan⟩
    · cases c <;> exact hi
    · exact .keep rfl rfl rfl rfl (by rw [hpc]; cases c <;> rfl) (by rw [hpc]; cases c <;> rfl)
    · rintro d (⟨k, hk, -⟩ | hw)
      · cases hk
      · exact .inl (.inr hw)
    · exact fun d => .inr ⟨id, by simp [hpc, Pc.owes]⟩
  | asleep => cases hs
  | resume =>
    cases hs
    have hns : (s.proc p).state ≠ .sleeping := h.not_sleeping hpc (by simp)
    refine ⟨{ s.proc p with chan := none, pc := .sleep c .relock }, ?_,
      ?_, ?_, .inl rfl, ?_, fun hs => absurd hs hns, ?_, ?_, ?_, ?_⟩
    · constructor <;> simp +contextual [releasePtable, State.goto, State.modify]
    · rw [hpc]; rfl
    · rw [hpc]; rfl
    · cases c <;> trivial
    · cases c <;> exact hi
    · exact .keep rfl rfl rfl rfl (by rw [hpc]; cases c <;> rfl) (by rw [hpc]; cases c <;> rfl)
    · rintro d (⟨k, hk, -⟩ | ⟨hw, -⟩)
      · cases hk
      · exact absurd hw hns
    · exact fun d => .inr ⟨id, by simp [hpc, Pc.owes]⟩
  | relock =>
    obtain ⟨hfree, rfl⟩ := enabled hs
    cases c with
    | write w =>
      exact ⟨_, move_goto h hpc ⟨hfree, rfl⟩ rfl trivial hi (by simp) rfl rfl (by simp [Pc.owes])
        (by simp)⟩
    | read n =>
      exact ⟨_, move_goto h hpc ⟨hfree, rfl⟩ rfl trivial trivial (by simp) rfl rfl
        (by simp [Pc.owes]) (by simp)⟩

/-- A turn of a process moves it. -/
theorem turn_move (h : Ready s p) (hs : turn s p = some s') :
    ∃ t, Move s (.turn p) s' p t := by
  have hi := h.index
  have hs0 := hs
  unfold turn at hs
  split at hs <;> rename_i hpc <;> rw [hpc] at hi
  · cases hs
  · rename_i w
    obtain ⟨hfree, rfl⟩ := enabled hs
    refine ⟨_, move_goto h hpc ⟨hfree, rfl⟩ rfl trivial ?_ (by simp) rfl rfl (by simp [Pc.owes])
      (by simp)⟩
    have hw : w.i = 0 := hi
    simp [Pc.Index, hw]
  · rename_i w
    cases hs
    have hw : (w.i : ℤ) ≤ max w.n 0 := hi
    split_ifs with hlt
    · exact ⟨_, move_goto h hpc rfl rfl trivial hlt (by simp) rfl rfl (by simp [Pc.owes]) (by simp)⟩
    · refine ⟨_, move_goto h hpc rfl rfl trivial ?_ (by simp) rfl rfl
        (by simp [Pc.owes, Waker.chan]) (by simp)⟩
      change (w.i : ℤ) = max w.n 0
      omega
  · exact move_write rfl h hpc hs0
  · obtain ⟨hfree, rfl⟩ := enabled hs
    exact ⟨_, move_goto h hpc ⟨hfree, rfl⟩ rfl trivial trivial (by simp) rfl rfl (by simp [Pc.owes])
      (by simp)⟩
  · split_ifs at hs with hempty hkilled
    · cases hs
      exact ⟨_, move_ret h hpc rfl rfl (by simp) rfl (by simp) (by simp) (by simp [Pc.owes])⟩
    · cases hs
      exact ⟨_, move_goto h hpc rfl rfl hempty trivial (by simp) rfl rfl (by simp [Pc.owes])
        (by simp)⟩
    · cases hs
      refine ⟨_, move_goto h hpc rfl rfl ?_ trivial (by simp) rfl rfl (by simp [Pc.owes]) (by simp)⟩
      intro _ heq
      simpa [heq] using hempty
  · exact move_read h hpc hs0
  · obtain ⟨hfree, rfl⟩ := enabled hs
    exact ⟨_, move_goto h hpc ⟨hfree, rfl⟩ rfl trivial trivial (by simp) rfl rfl (by simp [Pc.owes])
      (by simp)⟩
  · cases hs
    exact move_close h hpc
  · exact move_wake h hpc hs
  · cases hs
    exact move_woken h hpc
  · exact move_sleep h hpc hs
  · cases hs
    exact ⟨_, move_to h hpc (becomes_goto { s with freed := true } (by rfl) _) rfl rfl (.inl rfl)
      trivial trivial (by simp) (by simp)
      (.keep rfl rfl rfl rfl (by rw [hpc]; rfl) (by rw [hpc]; rfl))
      fun c => .inr ⟨id, by simp [Pc.owes]⟩⟩

/-- Every step moves one process. -/
theorem step_move {a : Label P} (h : Locks s) (hi : ∀ p, (s.proc p).pc.Index)
    (hs : step s a = some s') : ∃ p t, Move s a s' p t := by
  unfold step at hs
  rw [Option.ite_none_left_eq_some] at hs
  obtain ⟨-, hs⟩ := hs
  cases a with
  | write p addr n =>
    dsimp only at hs
    split at hs
    · rename_i hpc
      cases hs
      exact ⟨p, _, move_to ⟨h, hi p⟩ hpc (becomes_goto { s with calls := s.calls + 1 } (by rfl) _)
        rfl rfl (.inl rfl) trivial rfl (by simp) (by simp)
        (.call ⟨addr, n, 0, s.calls⟩ rfl rfl rfl rfl (by rw [hpc]; rfl) rfl rfl rfl)
        fun c => .inr ⟨id, by simp [Pc.owes]⟩⟩
    · cases hs
  | read p n | close p writable =>
    dsimp only at hs
    split at hs
    · rename_i hpc
      cases hs
      exact ⟨p, _, move_goto ⟨h, hi p⟩ hpc rfl rfl trivial trivial (by simp) rfl rfl
        (by simp [Pc.owes]) (by simp)⟩
    · cases hs
  | turn p => exact ⟨p, turn_move ⟨h, hi p⟩ hs⟩
  | dispatch p =>
    dsimp only at hs
    split at hs
    · rename_i c hpc
      obtain ⟨⟨hfree, -⟩, rfl⟩ := enabled hs
      have hi := hi p
      rw [hpc] at hi
      refine ⟨p, { s.proc p with state := .running, pc := .sleep c .resume },
        becomes_modify (by rfl) _, ?_, ?_, .inl rfl, ?_, fun hs => absurd hs (by simp), ?_, ?_, ?_,
        fun c => .inr ⟨id, by simp [hpc, Pc.owes]⟩⟩
      · rw [hpc]; rfl
      · rw [hpc]; exact ⟨hfree, rfl⟩
      · cases c <;> trivial
      · cases c <;> exact hi
      · exact .keep rfl rfl rfl rfl (by rw [hpc]; cases c <;> rfl) (by rw [hpc]; cases c <;> rfl)
      · rintro d (⟨k, hk, -⟩ | ⟨hw, -⟩)
        · cases hk
        · cases hw
    · cases hs
  | kill p =>
    obtain ⟨-, rfl⟩ := enabled hs
    have hstate : (if (s.proc p).state = .sleeping then ProcState.runnable
        else (s.proc p).state) ≠ .sleeping := by
      split_ifs with h
      · simp
      · exact h
    refine ⟨p, { s.proc p with
        killed := true
        state := if (s.proc p).state = .sleeping then .runnable else (s.proc p).state },
      becomes_modify (by rfl) _, ?_, ?_, .inl rfl, h.fact p, fun hs => absurd hs hstate, hi p,
      .keep rfl rfl rfl rfl rfl rfl, ?_, fun c => ?_⟩
    · cases hpc : (s.proc p).pc.holds <;> exact rfl
    · cases hpc : (s.proc p).pc.holdsPtable <;> exact rfl
    · rintro d (hk | ⟨hw, -⟩)
      · exact .inl (.inl hk)
      · exact absurd hw hstate
    · by_cases ho : (s.proc p).pc.owes c = true
      · exact .inl ho
      · exact .inr ⟨id, fun ho' => absurd ho' ho⟩

theorem Move.locks {a : Label P} {t : Proc} (h : Locks s) (hm : Move s a s' p t) : Locks s' :=
  h.change hm.becomes hm.lock hm.ptable hm.pipe hm.fact hm.sleeping

/-! ## The queue -/

/-- The bytes returned by `piperead`. -/
def State.returned (s : State P) : List UInt8 :=
  s.results.flatMap Result.bytes

/-- The bytes read by the call that holds the lock. -/
def State.inHand (s : State P) : List UInt8 :=
  match s.lock with
  | none => []
  | some p => (s.proc p).pc.got

/-- Every byte stored is returned, or in the hands of the holder of the lock, or in the
pipe. -/
structure Queue (s : State P) : Prop where
  length : s.pipe.length ≤ PIPESIZE
  stored : s.stored.map Prod.snd = s.returned ++ s.inHand ++ s.pipe.content

theorem start_queue (data : Fin PIPESIZE → UInt8) : Queue (start P data) where
  length := by simp [start, RingBuffer.length]
  stored := by simp [start, State.returned, State.inHand, RingBuffer.content, RingBuffer.length]

theorem full_iff (pipe : Pipe) : pipe.full ↔ pipe.length = PIPESIZE :=
  (pipe.length_eq_iff (by decide)).symm

theorem inHand_of_holds (h : Locks s) (hp : (s.proc p).pc.holds = true) :
    s.inHand = (s.proc p).pc.got := by
  unfold State.inHand
  rw [(h.lock p).2 hp]

theorem inHand_change {a : Label P} {t : Proc} (h : Locks s) (hm : Move s a s' p t) :
    t.pc.got = (s.proc p).pc.got ∧ s'.inHand = s.inHand ∨
      s.inHand = (s.proc p).pc.got ∧ s'.inHand = t.pc.got := by
  have h' := hm.locks h
  have hlock := hm.lock
  cases hp : (s.proc p).pc.holds <;> cases ht : t.pc.holds <;> rw [hp, ht] at hlock
  · refine .inl ⟨by rw [Pc.got_of_not_holds hp, Pc.got_of_not_holds ht], ?_⟩
    have hl : s'.lock = s.lock := hlock
    unfold State.inHand
    rw [hl]
    cases hq : s.lock with
    | none => rfl
    | some q =>
      have hne : q ≠ p := by
        rintro rfl
        rw [h.lock, hp] at hq
        cases hq
      simp only [hm.becomes.pc q hne]
  · refine .inr ⟨?_, ?_⟩
    · rw [Pc.got_of_not_holds hp]
      unfold State.inHand
      rw [hlock.1]
    · rw [inHand_of_holds h' (by rw [hm.becomes.self, ht]), hm.becomes.self]
  · refine .inr ⟨inHand_of_holds h hp, ?_⟩
    have hl : s'.lock = none := hlock
    rw [Pc.got_of_not_holds ht]
    unfold State.inHand
    rw [hl]
  · refine .inr ⟨inHand_of_holds h hp, ?_⟩
    rw [inHand_of_holds h' (by rw [hm.becomes.self, ht]), hm.becomes.self]

theorem Queue.same (hq : Queue s) (hring : s'.pipe.toRingBuffer = s.pipe.toRingBuffer)
    (hstored : s'.stored = s.stored) (hresults : s'.results = s.results)
    (hhand : s'.inHand = s.inHand) : Queue s' where
  length := by rw [hring]; exact hq.length
  stored := by
    rw [hstored, hq.stored, hhand, hring]
    simp only [State.returned, hresults]

theorem Move.queue {a : Label P} {t : Proc} (h : Locks s) (hq : Queue s)
    (hm : Move s a s' p t) : Queue s' := by
  have hhand := inHand_change h hm
  have hsame : t.pc.got = (s.proc p).pc.got → s'.inHand = s.inHand := fun hgot =>
    hhand.elim And.right fun hh => by rw [hh.1, hh.2, hgot]
  cases hm.flow with
  | keep hring hstored hresults _ hgot => exact hq.same hring hstored hresults (hsame hgot)
  | call w hring hstored hresults _ hgot => exact hq.same hring hstored hresults (hsame hgot)
  | store w hpc hgot _ hfull hring hstored hresults =>
    have hlen : s.pipe.length < 512 :=
      lt_of_le_of_ne hq.length fun h => hfull ((full_iff _).2 h)
    have hgot' : (s.proc p).pc.got = [] := by rw [hpc]; rfl
    refine ⟨?_, ?_⟩
    · rw [hring, RingBuffer.length_push _ _ (by omega)]
      exact hlen
    · rw [hstored, map_append, hq.stored, hsame (hgot.trans hgot'.symm), hring,
        RingBuffer.content_push (by decide) _ _ hlen (by decide)]
      simp [State.returned, hresults]
  | load hne hgot hholds hring hstored hresults =>
    have hlen : s.pipe.length ≠ 0 := fun h0 => hne (s.pipe.length_eq_zero.1 h0)
    have hhand' : s'.inHand = s.inHand ++ [s.pipe.head] := by
      rcases hhand with hh | hh
      · rw [hh.1] at hgot
        simp at hgot
      · rw [hh.1, hh.2, hgot]
    refine ⟨?_, ?_⟩
    · have := hq.length
      have := RingBuffer.length_pop s.pipe.toRingBuffer hlen
      rw [hring]
      omega
    · rw [hstored, hq.stored, hhand', hring, RingBuffer.content_pop (by decide) _ hlen]
      simp [State.returned, hresults]
  | ret r hbytes _ _ hpipe hstored hresults _ hgot =>
    refine ⟨by rw [hpipe]; exact hq.length, ?_⟩
    have hhand' : r.bytes ++ s'.inHand = s.inHand := by
      rcases hhand with hh | hh
      · rw [hh.2, hbytes, ← hh.1, hgot, nil_append]
      · rw [hh.2, hgot, hh.1, hbytes, append_nil]
    rw [hstored, hq.stored, hpipe, ← hhand']
    simp [State.returned, hresults]

/-! ## The calls of `pipewrite` -/

/-- The bytes stored by a call. -/
def bytesOf (stored : List (ℕ × UInt8)) (id : ℕ) : List UInt8 :=
  (stored.filter fun x => x.1 = id).map Prod.snd

theorem bytesOf_append (stored : List (ℕ × UInt8)) (id : ℕ) (b : UInt8) (j : ℕ) :
    bytesOf (stored ++ [(id, b)]) j =
      if id = j then bytesOf stored j ++ [b] else bytesOf stored j := by
  unfold bytesOf
  split_ifs with h <;> simp [h]

theorem bytesOf_eq_nil {stored : List (ℕ × UInt8)} {id : ℕ} (h : ∀ x ∈ stored, x.1 < id) :
    bytesOf stored id = [] := by
  unfold bytesOf
  rw [map_eq_nil_iff, filter_eq_nil_iff]
  intro x hx
  have := h x hx
  simp
  omega

/-- A call has stored its first bytes. -/
def Write.Stored (w : Write) (s : State P) : Prop :=
  w.id < s.calls ∧ bytesOf s.stored w.id = (List.range w.i).map w.addr

/-- The calls have numbers of their own, and have stored their first bytes in order. -/
structure Calls (s : State P) : Prop where
  index : ∀ p, (s.proc p).pc.Index
  fresh : ∀ x ∈ s.stored, x.1 < s.calls
  stored : ∀ p w, (s.proc p).pc.write = some w → w.Stored s
  distinct : ∀ p q w v, (s.proc p).pc.write = some w → (s.proc q).pc.write = some v →
    w.id = v.id → p = q
  done : ∀ w x, .write w x ∈ s.results → w.Stored s ∧ (0 < x → x = w.n ∧ (w.i : ℤ) = w.n) ∧
    ∀ p v, (s.proc p).pc.write = some v → v.id ≠ w.id

theorem start_calls (data : Fin PIPESIZE → UInt8) : Calls (start P data) where
  index p := trivial
  fresh x hx := by cases hx
  stored p w hw := by cases hw
  distinct p q w v hw := by cases hw
  done w x hx := by cases hx

theorem Move.calls {a : Label P} {t : Proc} (hc : Calls s) (hm : Move s a s' p t) :
    Calls s' := by
  have hindex : ∀ q, (s'.proc q).pc.Index := fun q => by
    by_cases hq : q = p
    · rw [hq, hm.becomes.self]
      exact hm.index
    · rw [hm.becomes.pc q hq]
      exact hc.index q
  have hwrite : ∀ q, (s'.proc q).pc.write = if q = p then t.pc.write else (s.proc q).pc.write :=
    fun q => by
      split_ifs with hq
      · rw [hq, hm.becomes.self]
      · rw [hm.becomes.pc q hq]
  obtain ⟨-, h1, h2, h3, h4⟩ := hc
  simp only [Write.Stored] at h2 h4
  cases hm.flow with
  | keep hring hstored hresults hcalls hgot hw
  | load hne hgot hholds hring hstored hresults hcalls hw
  | ret r hbytes hr _ hpipe hstored hresults hcalls hgot hw =>
    refine ⟨hindex, ?_, ?_, ?_, ?_⟩ <;>
      simp only [Write.Stored, hwrite, hstored, hresults, hcalls] <;> clear hm <;> grind
  | call w hring hstored hresults hcalls hgot hw hid hi =>
    have hnil := bytesOf_eq_nil h1
    refine ⟨hindex, ?_, ?_, ?_, ?_⟩ <;>
      simp only [Write.Stored, hwrite, hstored, hresults, hcalls] <;> clear hm <;> grind
  | store w hw0 hgot hw hfull hring hstored hresults hcalls =>
    have hw0 : (s.proc p).pc.write = some w := by rw [hw0]; rfl
    refine ⟨hindex, ?_, ?_, ?_, ?_⟩ <;>
      simp only [Write.Stored, hwrite, hstored, hresults, hcalls, bytesOf_append] <;> clear hm <;>
      grind [range_succ]

/-! ## Runs -/

/-- What holds of the pipe, whatever is done. -/
structure Inv (s : State P) : Prop where
  locks : Locks s
  queue : Queue s
  calls : Calls s

theorem start_inv (data : Fin PIPESIZE → UInt8) : Inv (start P data) :=
  ⟨start_locks data, start_queue data, start_calls data⟩

/-- Every step keeps the invariant. -/
theorem step_inv {a : Label P} (h : Inv s) (hs : step s a = some s') : Inv s' := by
  obtain ⟨p, t, hm⟩ := step_move h.locks h.calls.index hs
  exact ⟨hm.locks h.locks, hm.queue h.locks h.queue, hm.calls h.calls⟩

/-- The invariant holds in every run. -/
theorem run_inv {data : Fin PIPESIZE → UInt8} {labels : List (Label P)}
    (h : run step (start P data) labels = some s) : Inv s :=
  run_invariant (fun _ _ _ hi _ hs => step_inv hi hs) (start_inv data) (along_true _ _) h

/-- The pipe is a queue of bytes. -/
structure Fifo (s : State P) : Prop where
  /-- The counters are never more than the capacity apart. -/
  length : (s.pipe.nwrite - s.pipe.nread).toNat ≤ PIPESIZE
  /-- The bytes returned are the first of those stored. -/
  first : s.returned <+: s.stored.map Prod.snd
  /-- No byte is lost : when `p->lock` is free, the others are in the pipe. -/
  rest : s.lock = none → s.stored.map Prod.snd = s.returned ++ s.pipe.content
  /-- A `pipewrite` that returns a positive number has stored all its bytes in order. -/
  written : ∀ w x, .write w x ∈ s.results → 0 < x →
    x = w.n ∧ bytesOf s.stored w.id = (List.range w.n.toNat).map w.addr
  /-- A `piperead` of some bytes that returns `0` does so with the write end closed, when
  all that was stored is returned. -/
  eof : ∀ a s' n got, step s a = some s' → s'.results = s.results ++ [.read n got 0] → 0 < n →
    s'.pipe.writeopen = false ∧ s'.stored.map Prod.snd = s'.returned

theorem Inv.eof (h : Inv s) {n : ℤ} (hpc : (s.proc p).pc = .woken (.read n [])) (hn : 0 < n) :
    s.pipe.writeopen = false ∧ s.stored.map Prod.snd = s.returned := by
  have hf := h.locks.fact p
  rw [hpc] at hf
  obtain ⟨hempty, hclosed⟩ := hf hn rfl
  have hhand := inHand_of_holds h.locks (by rw [hpc]; rfl)
  rw [hpc] at hhand
  have hcontent := s.pipe.content_eq_nil.2 hempty
  refine ⟨hclosed, ?_⟩
  rw [h.queue.stored, hhand, hcontent]
  simp [Pc.got]

/-- In every state any processes can reach by `pipewrite`, `piperead`, `pipeclose` and
`kill`, the pipe is a queue of bytes. -/
theorem pipe_fifo (data : Fin PIPESIZE → UInt8) (labels : List (Label P)) (s : State P)
    (h : run step (start P data) labels = some s) : Fifo s where
  length := (run_inv h).queue.length
  first := by
    rw [(run_inv h).queue.stored, append_assoc]
    exact prefix_append _ _
  rest hl := by
    have hhand : s.inHand = [] := by
      unfold State.inHand
      rw [hl]
    rw [(run_inv h).queue.stored, hhand, append_nil]
  written w x hr hx := by
    obtain ⟨⟨-, hstored⟩, hret, -⟩ := (run_inv h).calls.done w x hr
    obtain ⟨hn, hi⟩ := hret hx
    refine ⟨hn, ?_⟩
    rw [hstored, ← hi, Int.toNat_natCast]
  eof a s' n got hs hres hn := by
    have hi := run_inv h
    obtain ⟨p, t, hm⟩ := step_move hi.locks hi.calls.index hs
    cases hm.flow with
    | keep _ _ hresults | call _ _ _ hresults | store _ _ _ _ _ _ _ hresults
    | load _ _ _ _ _ hresults => simp [hresults] at hres
    | ret r hbytes _ hread hpipe hstored hresults _ hgot =>
      have hr : r = .read n got 0 := by simpa [hresults] using hres
      obtain ⟨hpc, rfl⟩ := hread n got hr
      obtain ⟨hclosed, hall⟩ := hi.eof hpc hn
      refine ⟨by rw [hpipe]; exact hclosed, ?_⟩
      rw [hstored, hall]
      simp [State.returned, hresults, hr, Result.bytes]

/-- Process `true` writes two bytes, which process `false` reads. -/
theorem pipe_fifo_two_bytes :
    let labels : List (Label Bool) :=
      .write true (fun i => if i = 0 then 7 else 9) 2 :: List.replicate 10 (.turn true) ++
        .read false 5 :: List.replicate 9 (.turn false)
    (run step (start Bool fun _ => 0) labels).map (fun s => (s.returned, s.stored)) =
        some ([7, 9], [(0, 7), (0, 9)]) ∧
      ∀ s, run step (start Bool fun _ => 0) labels = some s → Fifo s := by
  intro labels
  exact ⟨by decide, fun s h => pipe_fifo (fun _ => 0) labels s h⟩

end Xv6.Pipe
