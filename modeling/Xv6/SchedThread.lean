import Xv6.Lib.Transition
import Xv6.SchedInv

/-!
# Instructions keep the CPUs in order

One lemma for each instruction of a thread (`Inv.exec_lock`, `Inv.exec_load` and so on), for
the call of a kernel function (`Inv.call`) and for an interrupt (`Inv.interrupt`).
-/

set_option linter.unusedSectionVars false

open Option Finset

namespace Xv6.Sched

open Ptable (Slot ProcState Chan)

open Transition (enabled)

variable {C : Type*} [DecidableEq C]

/-! ## Steps of a thread -/

variable {strict : Prop} {s s' : State C} {c : C} {p q : Slot} {H : Finset Lock}
  {i : Instr} {k : List Instr} {choice : Choice}

theorem CpuOk.card_le (hc : CpuOk strict s c H) : H.card ≤ (s.cpu c).ncli := by
  simpa using hc.ok.card_le

theorem holds_insert (hc : CpuOk strict s c H) (l l' : Lock) :
    l' ∈ insert l H ↔ Function.update s.holder l (some c) l' = some c := by
  have := hc.holds l'
  by_cases h : l' = l <;> simp [h, this]

theorem holds_erase (hc : CpuOk strict s c H) (l l' : Lock) :
    l' ∈ H.erase l ↔ Function.update s.holder l none l' = some c := by
  have := hc.holds l'
  by_cases h : l' = l <;> simp [h, this]

theorem code_modCpu {f : Cpu → Cpu} (hon : (f (s.cpu c)).on = (s.cpu c).on)
    (hcode : (f (s.cpu c)).code = (s.cpu c).code) : (s.modCpu c f).code c = s.code c := by
  simp [State.code, hon, hcode]

@[simp] theorem setCode_ncli : ((s.setCode c k).cpu c).ncli = (s.cpu c).ncli := by
  rcases setCode_cpu (s := s) (c := c) (k := k) c with h | h <;> simp [h]

@[simp] theorem setCode_interrupts :
    ((s.setCode c k).cpu c).interrupts = (s.cpu c).interrupts := by
  rcases setCode_cpu (s := s) (c := c) (k := k) c with h | h <;> simp [h]

theorem Inv.exec_pushcli (h : Inv strict s) (hcode : s.code c = .pushcli :: k) :
    Inv strict ((s.setCode c k).modCpu c Cpu.pushcli) := by
  obtain ⟨H, hc⟩ := h.cpu c
  have hk : ((s.setCode c k).modCpu c Cpu.pushcli).code c = k :=
    (code_modCpu rfl rfl).trans setCode_code
  have hn : (((s.setCode c k).modCpu c Cpu.pushcli).cpu c).ncli = (s.cpu c).ncli + 1 := by
    simp [Cpu.pushcli]
  have hcheck := hcode ▸ hc.check
  refine h.advance_locks hc hcode (by simp)
    ((Own.setCode k).trans (Own.modCpu ⟨rfl, rfl, rfl, rfl⟩)) (setCode_state k)
    (by rw [hk]; exact id) H (by simpa using hc.holds) (by simp [Cpu.pushcli]) ?_ .inl ?_
  · rw [hn]
    exact Nat.le_succ_of_le hc.card_le
  · rw [hk, hn]
    simpa [Check] using hcheck

theorem popcli_eq_some {x y : Cpu} (h : x.popcli = some y) :
    x.ncli ≠ 0 ∧
      y = { x with ncli := x.ncli - 1, interrupts := decide (x.ncli = 1) && x.intena } := by
  simp only [Cpu.popcli, ite_none_left_eq_some, some.injEq] at h
  exact ⟨fun h0 => h.1 (.inr h0), h.2.symm⟩

theorem Inv.exec_popcli (h : Inv strict s) (hcode : s.code c = .popcli :: k) {y : Cpu}
    (hy : (s.cpu c).popcli = some y) :
    Inv strict ((s.modCpu c fun _ => y).setCode c k) := by
  obtain ⟨H, hc⟩ := h.cpu c
  obtain ⟨h0, rfl⟩ := popcli_eq_some hy
  have hcheck := hcode ▸ hc.check
  simp only [Check, ctx_held, ctx_ncli] at hcheck
  refine h.advance_locks hc hcode (by simp)
    ((Own.modCpu ⟨rfl, rfl, rfl, rfl⟩).trans (Own.setCode k)) (fun q => setCode_state k q)
    (by simp) H (by simpa using hc.holds) ?_ ?_ .inl ?_
  · simp only [setCode_interrupts, setCode_ncli, modCpu_self, Bool.and_eq_true, decide_eq_true_eq]
    omega
  · simp only [setCode_ncli, modCpu_self]
    omega
  · simpa using hcheck.2

theorem Inv.exec_lock (h : Inv strict s) {l : Lock} (hcode : s.code c = .lock l :: k)
    {s1 : State C} (hs : s.lock c l = some s1) : Inv strict (s1.setCode c k) := by
  obtain ⟨H, hc⟩ := h.cpu c
  have hcheck := hcode ▸ hc.check
  simp only [Check, ctx_held, ctx_ncli] at hcheck
  obtain ⟨hfree, rfl⟩ := enabled hs
  have hl : l ∉ H := fun hl => by simp [(hc.holds l).1 hl] at hfree
  refine h.advance_locks hc hcode (by simp) (Own.trans ?_ (Own.setCode k))
    (fun q => setCode_state k q) (by simp) (insert l H) ?_ (by simpa using hc.cli) ?_
    (fun hp => .inl (mem_insert_of_mem hp)) ?_
  · refine ⟨fun _ _ => rfl, rfl, rfl, rfl, fun _ => rfl, fun l' c' hne => ?_,
      fun q _ => ⟨rfl, rfl, rfl⟩, fun _ => rfl⟩
    by_cases hll : l' = l <;> simp [hll, hfree, Ne.symm hne]
  · simpa using holds_insert hc l
  · simp only [card_insert_of_notMem hl, setCode_ncli]
    omega
  · simpa using hcheck.2.2 hl

theorem Inv.exec_unlock (h : Inv strict s) {l : Lock} (hcode : s.code c = .unlock l :: k)
    {s1 : State C} (hs : s.unlock c l = some s1) : Inv strict (s1.setCode c k) := by
  obtain ⟨H, hc⟩ := h.cpu c
  have hcheck := hcode ▸ hc.check
  simp only [Check, ctx_held, ctx_ncli] at hcheck
  obtain ⟨hheld, rfl⟩ := enabled hs
  refine h.advance_locks hc hcode (by simp) (Own.trans ?_ (Own.setCode k))
    (fun q => setCode_state k q) (by simp) (H.erase l) ?_ (by simpa using hc.cli) ?_
    (fun _ => .inr hcheck.1) ?_
  · refine ⟨fun _ _ => rfl, rfl, rfl, rfl, fun _ => rfl, fun l' c' hne => ?_,
      fun q _ => ⟨rfl, rfl, rfl⟩, fun _ => rfl⟩
    by_cases hll : l' = l <;> simp [hll, hheld, Ne.symm hne]
  · simpa using holds_erase hc l
  · simpa using (card_erase_le).trans hc.card_le
  · simpa using hcheck.2 ((hc.holds l).2 hheld)

theorem Inv.exec_iret (h : Inv strict s) (hcode : s.code c = .iret :: k)
    (h0 : (s.cpu c).ncli = 0) :
    Inv strict ((s.setCode c k).modCpu c fun x => { x with interrupts := true }) := by
  obtain ⟨H, hc⟩ := h.cpu c
  have hcheck := hcode ▸ hc.check
  simp only [Check, ctx_held, ctx_ncli] at hcheck
  have hk : ((s.setCode c k).modCpu c fun x => { x with interrupts := true }).code c = k :=
    (code_modCpu rfl rfl).trans setCode_code
  refine h.advance_locks hc hcode (by simp)
    ((Own.setCode k).trans (Own.modCpu ⟨rfl, rfl, rfl, rfl⟩)) (setCode_state k)
    (by rw [hk]; exact id) H (by simpa using hc.holds) (by simpa using h0)
    (by simpa using hc.card_le) .inl ?_
  rw [hk]
  simpa using hcheck.2.2 h0

theorem Inv.goto (h : Inv strict s) {k' : List Instr} (hcode : s.code c = i :: k)
    (hi : i ≠ .setup) (hset : .setup ∈ k → .setup ∈ k')
    (hk : ∀ H, CpuOk strict s c H → Check strict (s.fin c) (s.ctx c H) (i :: k) →
      Check strict (s.fin c) (s.ctx c H) k') : Inv strict (s.setCode c k') := by
  obtain ⟨H, hc⟩ := h.cpu c
  refine h.advance_locks hc hcode hi (Own.setCode k') (setCode_state k') (by simpa using hset) H
    (by simpa using hc.holds) (by simpa using hc.cli) (by simpa using hc.card_le) .inl ?_
  simpa using hk H hc (hcode ▸ hc.check)

theorem Inv.exec_tick (h : Inv strict s) (hcode : s.code c = .tick :: k) (b : Bool) :
    Inv strict (s.setCode c (if b then yield ++ k else k)) := by
  refine h.goto hcode (by simp) (fun hm => ?_) fun H hc hcheck => ?_
  · cases b <;> simp [hm]
  · obtain ⟨⟨hn, hh, hr⟩, hk⟩ := hcheck
    cases b
    · exact hk
    · refine check_yield ?_ hk
      have hs := hc.ok.saved hr
      generalize s.ctx c H = x at *
      cases x
      simp_all

/-- What `wakeup1` and `kill` do to a slot. -/
structure Rouses (g : Proc → Proc) : Prop where
  state : ∀ x, (g x).state = if x.state = .sleeping then .runnable else x.state
  code : ∀ x, (g x).code = x.code
  saved : ∀ x, (g x).saved = x.saved
  np : ∀ x, (g x).np = x.np

theorem rouses_wake : Rouses Proc.wake := by
  constructor <;> intro x <;> simp only [Proc.wake] <;> split <;> simp_all

theorem rouses_kill : Rouses fun x => { x.wake with killed := true } :=
  ⟨rouses_wake.state, rouses_wake.code, rouses_wake.saved, rouses_wake.np⟩

/-- A thread that holds `ptable.lock` wakes a slot. -/
theorem Inv.rouse (h : Inv strict s) (hc : CpuOk strict s c H)
    (hbusy : (s.cpu c).on ≠ none ∨ (s.cpu c).proc = none) (hp : .ptable ∈ H)
    (hr : (s.ctx c H).state = .running) {g : Proc → Proc} (hg : Rouses g) (q : Slot) :
    Inv strict (s.modProc q g) := by
  have hcur : ∀ p, (s.cpu c).proc = some p →
      (s.cpu c).on = some p ∧ (s.proc p).state = .running := by
    intro p hproc
    cases hon : (s.cpu c).on with
    | none => simp [hbusy.resolve_left (by simp [hon])] at hproc
    | some p' =>
      obtain rfl := some.inj ((hc.seat.proc hon).symm.trans hproc)
      exact ⟨rfl, by simpa [ctx_on hon] using hr⟩
  have hsame : ∀ q', (s.proc q').state ≠ .sleeping ∨ q' ≠ q → Same s (s.modProc q g) q' := by
    intro q' hq'
    by_cases he : q' = q
    · subst he
      simp [Same, hg.state, hg.code, hg.saved, hq'.resolve_right (by simp)]
    · simp [Same, modProc_of_ne he]
  have hcode : ∀ q', ((s.modProc q g).proc q').code = (s.proc q').code := by
    intro q'
    by_cases he : q' = q
    · subst he
      simp [hg.code]
    · simp [modProc_of_ne he]
  refine h.act c (fun _ _ => rfl) (fun _ _ _ => Iff.rfl)
    ⟨H, hc.frame rfl (fun _ => Iff.rfl) fun q' hq' => hsame q' (.inl ?_)⟩ rfl
    (fun q' hq' => ?_) (fun p hproc => .inl (hcur p hproc).1)
    (h.forks.frame (fun q' => ?_) (fun q' => by rw [hcode]; exact id)
      fun q' hq' => hsame q' (.inl (by simp [hq'])))
  · simp [(hcur q' hq').2]
  · by_cases hs : (s.proc q').state ≠ .sleeping ∨ q' ≠ q
    · exact .inl (hsame q' hs)
    · obtain ⟨hsl, rfl⟩ : (s.proc q').state = .sleeping ∧ q' = q := by simpa using hs
      have hno := h.not_current ((hc.holds _).1 hp) hq' (by simp [hsl])
      have hpark := h.parked q' (h.off_cpu hno)
      refine .inr ⟨hno, by simp [hg.state, hsl], ?_⟩
      simpa [Parked, hg.state, hg.code, hg.saved, hsl] using hpark
  · by_cases he : q' = q
    · subst he
      simp [hg.np]
    · simp [modProc_of_ne he]

theorem code_modProc {g : Proc → Proc} (hg : ∀ x, (g x).code = x.code) (q : Slot) :
    (s.modProc q g).code c = s.code c := by
  cases hon : (s.cpu c).on with
  | none => simp [State.code, hon]
  | some p =>
    by_cases he : p = q
    · subst he
      simp [State.code, hon, hg]
    · simp [State.code, hon, modProc_of_ne he]

theorem Inv.exec_rouse (h : Inv strict s) (hcode : s.code c = i :: k)
    (hi : ∀ x, Check strict (s.fin c) x (i :: k) →
      (.ptable ∈ x.held ∧ x.state = .running) ∧ Check strict (s.fin c) x k)
    (hset : i ≠ .setup) {g : Proc → Proc} (hg : Rouses g) (q : Slot) :
    Inv strict ((s.modProc q g).setCode c k) := by
  obtain ⟨H, hc⟩ := h.cpu c
  obtain ⟨⟨hp, hr⟩, -⟩ := hi _ (hcode ▸ hc.check)
  have h1 := h.rouse hc (hc.busy (by simp [hcode])) (by simpa using hp) hr hg q
  exact h1.goto ((code_modProc hg.code q).trans hcode) hset id fun H _ hk => (hi _ hk).2

theorem Inv.exec_wake (h : Inv strict s) {ch : Chan} (hcode : s.code c = .wake ch q :: k) :
    Inv strict ((if (s.proc q).chan = some ch then s.modProc q Proc.wake else s).setCode c k) := by
  split
  · exact h.exec_rouse hcode (fun x hx => hx) (by simp) rouses_wake q
  · exact h.goto hcode (by simp) id fun H _ hk => hk.2

theorem Inv.exec_kill (h : Inv strict s) (hcode : s.code c = .kill q :: k) :
    Inv strict ((s.modProc q fun x => { x.wake with killed := true }).setCode c k) :=
  h.exec_rouse hcode (fun x hx => hx) (by simp) rouses_kill q

/-- A step of process `p` that changes its own slot to `x`. -/
theorem Inv.own (h : Inv strict s) (hon : (s.cpu c).on = some p) {x : Proc}
    (hcpu : s'.cpu = s.cpu) (hholder : s'.holder = s.holder)
    (hproc : s'.proc = Function.update s.proc p x) (hnp : x.np = (s.proc p).np)
    (hset : .setup ∈ (s.proc p).code → .setup ∈ x.code)
    (hk : ∀ H, CpuOk strict s c H →
      Check strict settled ⟨(s.cpu c).ncli, H, (s.proc p).state, (s.proc p).saved⟩
        (s.proc p).code →
      Ctx.Ok ⟨(s.cpu c).ncli, H, x.state, x.saved⟩ ∧
        Check strict settled ⟨(s.cpu c).ncli, H, x.state, x.saved⟩ x.code) :
    Inv strict s' := by
  obtain ⟨H, hc⟩ := h.cpu c
  have hcheck := hc.check
  rw [ctx_on hon, fin_on hon, code_on hon] at hcheck
  have hon' : (s'.cpu c).on = some p := by rw [hcpu, hon]
  obtain ⟨hok, hk⟩ := hk H hc hcheck
  refine h.advance hc (.inl (by simp [hon])) ⟨by simp [hcpu], by rw [hcpu], by rw [hcpu],
    by rw [hcpu], by simp [hcpu], by simp [hholder], fun q hq => ?_, fun q => ?_⟩ ?_ H ?_ ?_ ?_ ?_
  · have hne : q ≠ p := fun he => hq (he ▸ hon)
    simp [Same, hproc, hne]
  · by_cases he : q = p
    · subst he
      simp [hproc, hnp]
    · simp [hproc, he]
  · rw [code_on hon, code_on hon', hproc, Function.update_self]
    exact hset
  · simpa [hholder] using hc.holds
  · simpa [hcpu] using hc.cli
  · rw [ctx_on hon', hcpu, hproc, Function.update_self]
    exact hok
  · rw [ctx_on hon', fin_on hon, code_on hon', hcpu, hproc, Function.update_self]
    exact hk

/-- A step of process `p` that changes its own slot to `x` and slot `q`, which is on no CPU,
to `y`. -/
theorem Inv.pair (h : Inv strict s) (hc : CpuOk strict s c H) (hon : (s.cpu c).on = some p)
    {x y : Proc} (hcpu : s'.cpu = s.cpu) (hholder : s'.holder = s.holder)
    (hproc : s'.proc = Function.update (Function.update s.proc q y) p x)
    (hq : ∀ c', (s.cpu c').proc ≠ some q) (hy : y.state ≠ .running) (hpark : Parked strict y)
    (hok : Ctx.Ok ⟨(s.cpu c).ncli, H, x.state, x.saved⟩)
    (hk : Check strict settled ⟨(s.cpu c).ncli, H, x.state, x.saved⟩ x.code)
    (hforks : Forks s') : Inv strict s' := by
  have hon' : (s'.cpu c).on = some p := by rw [hcpu, hon]
  have hcur := hc.seat.proc hon
  have hp : s'.proc p = x := by simp [hproc]
  refine h.act c (fun _ _ => by rw [hcpu]) (fun _ _ _ => by rw [hholder]) ⟨H, ?_⟩ (by rw [hcpu])
    (fun q' hq' => ?_) (fun p' hp' => .inl ?_) hforks
  · have hseat := hc.seat
    refine ⟨by simpa [hholder] using hc.holds, by simpa [hcpu] using hc.cli, ?_, ?_, ?_⟩
    · simpa [Seat, hcpu, hon] using hseat
    · rw [ctx_on hon', hcpu, hp]
      exact hok
    · rw [ctx_on hon', fin_on hon', code_on hon', hcpu, hp]
      exact hk
  · have hne : q' ≠ p := fun he => hq' (he ▸ hcur)
    by_cases he : q' = q
    · subst he
      have hq'' : s'.proc q' = y := by simp [hproc, hne]
      rw [hq'']
      exact .inr ⟨hq, hy, hpark⟩
    · exact .inl (by simp [Same, hproc, hne, he])
  · rw [hon', ← hcur, hp']

/-- An instruction of process `p` that changes only its own slot. -/
theorem Inv.exec_own (h : Inv strict s) (hon : (s.cpu c).on = some p)
    (hcode : (s.proc p).code = i :: k) (hi : i ≠ .setup) {x : Proc}
    (hcpu : s'.cpu = s.cpu) (hholder : s'.holder = s.holder)
    (hproc : s'.proc = Function.update s.proc p x) (hnp : x.np = (s.proc p).np)
    (hset : .setup ∈ k → .setup ∈ x.code)
    (hk : ∀ H, CpuOk strict s c H →
      Ctx.Ok ⟨(s.cpu c).ncli, H, (s.proc p).state, (s.proc p).saved⟩ →
      Check strict settled ⟨(s.cpu c).ncli, H, (s.proc p).state, (s.proc p).saved⟩ (i :: k) →
      Ctx.Ok ⟨(s.cpu c).ncli, H, x.state, x.saved⟩ ∧
        Check strict settled ⟨(s.cpu c).ncli, H, x.state, x.saved⟩ x.code) :
    Inv strict s' := by
  refine h.own hon hcpu hholder hproc hnp (fun hm => hset ?_) fun H hc hcheck => ?_
  · rw [hcode] at hm
    exact (List.mem_cons.1 hm).resolve_left fun he => hi he.symm
  · have hok := hc.ok
    rw [ctx_on hon] at hok
    exact hk H hc hok (hcode ▸ hcheck)

theorem Inv.exec_load (h : Inv strict s) (hon : (s.cpu c).on = some p)
    (hcode : (s.proc p).code = .load :: k) :
    Inv strict ((s.modProc p fun x => { x with code := k }).modCpu c fun x =>
      { x with on := none }) := by
  obtain ⟨H, hc⟩ := h.cpu c
  have hcheck := hc.check
  rw [ctx_on hon, fin_on hon, code_on hon, hcode] at hcheck
  obtain ⟨⟨hn, hh, hl, hs⟩, hk⟩ := hcheck
  dsimp only at hn hh hl hs hk
  have hseat := hc.seat
  simp only [Seat, hon] at hseat
  obtain ⟨hproc, hpc, hcd⟩ := hseat
  refine h.current hproc rfl rfl rfl hproc rfl (by simp [hcode])
    (fun he => h.not_current_of_state (.inl he) c hproc) ⟨H, ?_⟩ (.inr ?_)
  · refine ⟨by simpa using hc.holds, by simpa using hc.cli, ?_, ?_, ?_⟩
    · simp only [Seat, modCpu_self, modProc_cpu, hcd, hpc, Serves]
      exact ⟨fun hne => absurd rfl hne, p, hproc, by simpa using hl⟩
    · simp only [State.ctx, modCpu_self, modProc_cpu, hn, hh]
      exact ⟨le_rfl, .inl ⟨rfl, rfl⟩⟩
    · simp [State.ctx, State.fin, State.code, hcd, hpc, Check, SchedPc.ncli, SchedPc.held, hn, hh]
  · refine ⟨fun hst => ⟨hs, hk fun hz => ?_⟩, fun _ => hs⟩
    simp [hz] at hst

/-- Process `p`, which is not being made, changes what it makes, which is slot `q` alone. -/
theorem Forks.pair (h : Forks s) {x y : Proc}
    (hproc : s'.proc = Function.update (Function.update s.proc q y) p x) (hqp : q ≠ p)
    (hp : (s.proc p).state ≠ .embryo) (hq : ∀ p', p' ≠ p → (s.proc p').np ≠ some q)
    (hy : y.np = none ∨ y.np = (s.proc q).np ∧ y.code = (s.proc q).code)
    (hx : ∀ q', x.np = some q' → q' = q ∧ y.state = .embryo ∧
      (.setup ∉ x.code → y.saved = true ∧ y.code = Sched.forkret)) : Forks s' := by
  have hself : s'.proc p = x := by simp [hproc]
  have hchild : s'.proc q = y := by simp [hproc, hqp]
  have hother : ∀ p', p' ≠ p → p' ≠ q → s'.proc p' = s.proc p' := fun p' h1 h2 => by
    simp [hproc, h1, h2]
  -- a parent other than `p` has its own child, which is neither `p` nor `q`
  have hold : ∀ p' q', p' ≠ p → (s'.proc p').np = some q' →
      (s.proc p').np = some q' ∧ (s'.proc p').code = (s.proc p').code ∧
        s'.proc q' = s.proc q' := by
    intro p' q' hne hnp
    have hnp' : (s.proc p').np = some q' ∧ (s'.proc p').code = (s.proc p').code := by
      by_cases he : p' = q
      · subst he
        rw [hchild] at hnp ⊢
        rcases hy with hy | hy
        · simp [hy] at hnp
        · exact ⟨hy.1 ▸ hnp, hy.2⟩
      · rw [hother p' hne he] at hnp ⊢
        exact ⟨hnp, rfl⟩
    refine ⟨hnp'.1, hnp'.2, hother q' ?_ ?_⟩
    · rintro rfl
      exact hp (h.embryo p' q' hnp'.1)
    · rintro rfl
      exact hq p' hne hnp'.1
  refine ⟨fun p' q' hnp => ?_, fun p' q' hnp hset => ?_, fun p1 p2 q' h1 h2 => ?_⟩
  · by_cases hne : p' = p
    · subst hne
      obtain ⟨rfl, he, -⟩ := hx q' (hself ▸ hnp)
      rw [hchild, he]
    · obtain ⟨hnp', -, hq'⟩ := hold p' q' hne hnp
      rw [hq', h.embryo p' q' hnp']
  · by_cases hne : p' = p
    · subst hne
      obtain ⟨rfl, -, hf⟩ := hx q' (hself ▸ hnp)
      rw [hchild]
      exact hf (hself ▸ hset)
    · obtain ⟨hnp', hcode, hq'⟩ := hold p' q' hne hnp
      rw [hq']
      exact h.forkret p' q' hnp' (hcode ▸ hset)
  · by_cases hne1 : p1 = p <;> by_cases hne2 : p2 = p
    · rw [hne1, hne2]
    · subst hne1
      obtain ⟨rfl, -⟩ := hx q' (hself ▸ h1)
      exact absurd (hold p2 q' hne2 h2).1 (hq p2 hne2)
    · subst hne2
      obtain ⟨rfl, -⟩ := hx q' (hself ▸ h2)
      exact absurd (hold p1 q' hne1 h1).1 (hq p1 hne1)
    · exact h.inj p1 p2 q' (hold p1 q' hne1 h1).1 (hold p2 q' hne2 h2).1

theorem CpuOk.check_on (hc : CpuOk strict s c H) (hon : (s.cpu c).on = some p)
    (hcode : (s.proc p).code = i :: k) :
    Ctx.Ok ⟨(s.cpu c).ncli, H, (s.proc p).state, (s.proc p).saved⟩ ∧
      Check strict settled ⟨(s.cpu c).ncli, H, (s.proc p).state, (s.proc p).saved⟩ (i :: k) := by
  have hok := hc.ok
  have hcheck := hc.check
  rw [ctx_on hon] at hok
  rw [ctx_on hon, fin_on hon, code_on hon, hcode] at hcheck
  exact ⟨hok, hcheck⟩

theorem ne_of_running (hp : (s.proc p).state = .running) (hq : (s.proc q).state ≠ .running) :
    q ≠ p ∧ ∀ f, (s.modProc q f).proc p = s.proc p := by
  have hqp : q ≠ p := by
    rintro rfl
    exact hq hp
  exact ⟨hqp, fun _ => modProc_of_ne hqp.symm⟩

/-- `allocproc` takes slot `q`. -/
theorem Inv.exec_alloc (h : Inv strict s) (hon : (s.cpu c).on = some p)
    (hcode : (s.proc p).code = .alloc :: k) (hq : (s.proc q).state = .unused) :
    Inv strict ((s.modProc q fun x => { x with state := .embryo, saved := false }).modProc p
      fun x => { x with np := some q, code := release .ptable ++ .setup :: k }) := by
  obtain ⟨H, hc⟩ := h.cpu c
  obtain ⟨hok, hp, hr, hcard, hset, hk⟩ := hc.check_on hon hcode
  dsimp only at hr hp hcard hk
  obtain ⟨hqp, hfix⟩ := ne_of_running hr (q := q) (by simp [hq])
  refine h.pair hc hon rfl rfl rfl (h.not_current_of_state (.inr hq)) (by simp)
    (by simp [Parked]) (by simpa [hfix] using hok) ?_
    (h.forks.pair rfl hqp (by simp [hr]) (fun p' _ hnp => ?_) (.inr ⟨rfl, rfl⟩) fun q' hq' => ?_)
  · simp only [hfix]
    refine check_release hr hcard fun _ => ⟨hr, by simp, ?_, hset, hk⟩
    simp only [card_erase_of_mem hp]
    omega
  · simp [h.forks.embryo p' q hnp] at hq
  · exact ⟨(some.inj hq').symm, rfl, fun hm => absurd hm (by simp [release])⟩

/-- The rest of `fork` up to `np->cwd`, or a failure on the way. -/
theorem Inv.exec_setup (h : Inv strict s) (hon : (s.cpu c).on = some p)
    (hcode : (s.proc p).code = .setup :: k) (hnp : (s.proc p).np = some q) :
    Inv strict ((s.modProc q fun x => { x with code := forkret, np := none, saved := true }).modProc
        p fun x => { x with code := acquire .ptable ++ .ready :: (release .ptable ++ k) }) ∧
      Inv strict ((s.modProc q fun x => { x with state := .unused }).modProc p fun x =>
        { x with np := none, code := k }) := by
  obtain ⟨H, hc⟩ := h.cpu c
  obtain ⟨hok, hr, hp, hcard, hset, hk⟩ := hc.check_on hon hcode
  dsimp only at hr hp hcard hk
  have hq := h.forks.embryo p q hnp
  obtain ⟨hqp, hfix⟩ := ne_of_running hr (q := q) (by simp [hq])
  have hno := h.not_current_of_state (.inl hq)
  have hone : ∀ p', p' ≠ p → (s.proc p').np ≠ some q := fun p' hne hnp' =>
    hne (h.forks.inj p' p q hnp' hnp)
  have hpe : (s.proc p).state ≠ .embryo := by simp [hr]
  constructor
  · refine h.pair hc hon rfl rfl rfl hno (by simp [hq]) (by simp [Parked, hq])
      (by simpa [hfix] using hok) ?_
      (h.forks.pair rfl hqp hpe hone (.inl rfl) fun q' hq' => ⟨?_, hq, fun _ => ⟨rfl, rfl⟩⟩)
    · simp only [hfix]
      refine check_acquire hr hcard fun _ => ⟨by simp, hr, by simpa [release] using hset, ?_⟩
      refine check_release hr ?_ fun _ => ?_
      · simp only [card_insert_of_notMem hp]
        omega
      · simpa [erase_insert hp] using hk
    · rw [hfix] at hq'
      exact some.inj (hq'.symm.trans hnp)
  · exact h.pair hc hon rfl rfl rfl hno (by simp) (by simp [Parked]) (by simpa [hfix] using hok)
      (by simpa [hfix] using hk)
      (h.forks.pair rfl hqp hpe hone (.inr ⟨rfl, rfl⟩) fun q' hq' => by cases hq')

theorem Inv.exec_ready (h : Inv strict s) (hon : (s.cpu c).on = some p)
    (hcode : (s.proc p).code = .ready :: k) (hnp : (s.proc p).np = some q) :
    Inv strict ((s.modProc q fun x => { x with state := .runnable }).modProc p fun x =>
      { x with np := none, code := k }) := by
  obtain ⟨H, hc⟩ := h.cpu c
  obtain ⟨hok, hp, hr, hset, hk⟩ := hc.check_on hon hcode
  dsimp only at hr hk
  have hq := h.forks.embryo p q hnp
  obtain ⟨hsaved, hfork⟩ := h.forks.forkret p q hnp (by simpa [hcode] using hset)
  obtain ⟨hqp, hfix⟩ := ne_of_running hr (q := q) (by simp [hq])
  refine h.pair hc hon rfl rfl rfl (h.not_current_of_state (.inl hq)) (by simp) ?_
    (by simpa [hfix] using hok) (by simpa [hfix] using hk)
    (h.forks.pair rfl hqp (by simp [hr]) (fun p' hne hnp' => hne (h.forks.inj p' p q hnp' hnp))
      (.inr ⟨rfl, rfl⟩) fun q' hq' => by cases hq')
  simp only [Parked, hsaved, hfork]
  exact ⟨fun _ => ⟨trivial, check_forkret⟩, fun _ => trivial⟩

/-- `wait` reaps the zombie in slot `q`. -/
theorem Inv.exec_reap (h : Inv strict s) (hon : (s.cpu c).on = some p)
    (hcode : (s.proc p).code = .scan :: k) (hq : (s.proc q).state = .zombie) :
    Inv strict ((s.modProc q fun x => { x with state := .unused, killed := false }).modProc p
      fun x => { x with code := release .ptable ++ k }) := by
  obtain ⟨H, hc⟩ := h.cpu c
  obtain ⟨hok, ⟨hn, hh, hr⟩, hk⟩ := hc.check_on hon hcode
  dsimp only at hn hh hr hk
  subst hh
  obtain ⟨hqp, hfix⟩ := ne_of_running hr (q := q) (by simp [hq])
  have hproc := hc.seat.proc hon
  have hno := h.not_current ((hc.holds .ptable).1 (by simp)) (p := q)
    (by simpa [hproc] using hqp.symm) (by simp [hq])
  refine h.pair hc hon rfl rfl rfl hno (by simp) (by simp [Parked]) (by simpa [hfix] using hok) ?_
    (h.forks.frame (fun p' => ?_) (fun p' => ?_) fun q' hq' => ?_)
  · simp only [hfix]
    refine check_release hr (by simp [hn]) fun _ => ?_
    simpa [hn] using hk
  · by_cases h1 : p' = p
    · subst h1
      simp [hfix]
    · by_cases h2 : p' = q
      · subst h2
        simp [modProc_of_ne h1]
      · simp [modProc_of_ne h1, modProc_of_ne h2]
  · by_cases h1 : p' = p
    · subst h1
      simp [hcode, release]
    · by_cases h2 : p' = q
      · subst h2
        simp [modProc_of_ne h1]
      · simp [modProc_of_ne h1, modProc_of_ne h2]
  · have h1 : q' ≠ p := by
      rintro rfl
      simp [hr] at hq'
    have h2 : q' ≠ q := by
      rintro rfl
      simp [hq] at hq'
    simp [Same, modProc_of_ne h1, modProc_of_ne h2]

theorem test_proc (ch : Chan) (lk : Lock) :
    (s.test p ch lk).proc = Function.update s.proc p
      { s.proc p with episode := some (ch, lk), woken := false } :=
  rfl

theorem Inv.execProc (h : Inv strict s) (hon : (s.cpu c).on = some p)
    (hcode : (s.proc p).code = i :: k) (hs : execProc s c p choice k i = some s') :
    Inv strict s' := by
  cases i with
  | setChan ch =>
    cases hs
    exact h.exec_own hon hcode (by simp) rfl rfl rfl rfl id fun H _ hok hk => ⟨hok, hk.2⟩
  | setState st =>
    cases hs
    exact h.exec_own hon hcode (by simp) rfl rfl rfl rfl id fun H _ hok hk =>
      ⟨⟨hok.card_le, .inr ⟨hk.2.1, hk.1.1⟩⟩, hk.2.2⟩
  | check =>
    obtain ⟨⟨hl, hn, hr, -⟩, rfl⟩ := enabled hs
    refine h.exec_own hon hcode (by simp) rfl rfl rfl rfl id fun H hc hok hk => ⟨hok, ?_⟩
    have hp := (hc.holds .ptable).2 hl
    refine hk.2 hn ?_ hr
    refine (eq_of_subset_of_card_le (by simpa using hp) ?_).symm
    simpa [hn] using hok.card_le
  | saveIntena =>
    cases hs
    exact h.exec_own hon hcode (by simp) rfl rfl rfl rfl id fun H _ hok hk => ⟨hok, hk⟩
  | save =>
    cases hs
    refine h.exec_own hon hcode (by simp) rfl rfl rfl rfl id
      fun H _ hok hk => ⟨⟨hok.card_le, ?_⟩, hk.2⟩
    exact hok.state.imp_left fun hr => absurd hr.1 hk.1
  | load =>
    cases hs
    exact h.exec_load hon hcode
  | restoreIntena =>
    cases hs
    have h1 : Inv strict (s.modProc p fun x => { x with code := k }) :=
      h.exec_own hon hcode (by simp) rfl rfl rfl rfl id fun H _ hok hk => ⟨hok, hk⟩
    obtain ⟨H, hc⟩ := h1.cpu c
    have hon1 : ((s.modProc p fun x => { x with code := k }).cpu c).on = some p := hon
    refine h1.advance hc (.inl (by simp [hon])) (Own.modCpu ⟨rfl, rfl, rfl, rfl⟩)
      (by rw [code_modCpu rfl rfl]; exact id) H hc.holds (by simpa using hc.cli) ?_ ?_
    · simpa [State.ctx, hon] using hc.ok
    · have hk := hc.check
      rw [code_modCpu rfl rfl]
      simpa [State.ctx, hon] using hk
  | alloc =>
    cases choice with
    | slot q =>
      obtain ⟨hq, rfl⟩ := enabled hs
      exact h.exec_alloc hon hcode hq
    | none | sleep =>
      cases hs
      refine h.exec_own hon hcode (by simp) rfl rfl rfl rfl (List.mem_append_right _)
        fun H _ hok hk => ⟨hok, ?_⟩
      obtain ⟨-, hr, hcard, -, hk⟩ := hk
      exact check_release hr hcard fun _ => hk
  | setup =>
    cases hnp : (s.proc p).np with
    | none => simp [Sched.execProc, hnp] at hs
    | some q =>
      cases choice <;> simp only [Sched.execProc, hnp, some.injEq] at hs <;> subst hs
      · exact (h.exec_setup hon hcode hnp).2
      · exact (h.exec_setup hon hcode hnp).1
      · exact (h.exec_setup hon hcode hnp).2
  | ready =>
    cases hnp : (s.proc p).np with
    | none => simp [Sched.execProc, hnp] at hs
    | some q =>
      simp only [Sched.execProc, hnp, some.injEq] at hs
      subst hs
      exact h.exec_ready hon hcode hnp
  | scan =>
    cases choice with
    | slot q =>
      obtain ⟨hq, rfl⟩ := enabled hs
      exact h.exec_reap hon hcode hq
    | none =>
      cases hs
      refine h.exec_own hon hcode (by simp) rfl rfl rfl rfl (List.mem_append_right _)
        fun H _ hok hk => ⟨hok, ?_⟩
      obtain ⟨⟨hn, hh, hr⟩, hk⟩ := hk
      refine check_release hr hok.card_le fun _ => ?_
      dsimp only at hn hh
      simpa [hn, hh] using hk
    | sleep =>
      cases hs
      refine h.exec_own hon hcode (by simp) rfl rfl
        (x := { s.proc p with
          code := sleep (.proc p) .ptable ++ .scan :: k
          episode := some (.proc p, .ptable)
          woken := false }) (by simp [State.modProc, test_proc]) rfl
        (fun hm => List.mem_append_right _ (List.mem_cons_of_mem _ hm))
        fun H _ hok hk => ⟨hok, ?_⟩
      obtain ⟨⟨hn, hh, hr⟩, hk⟩ := hk
      dsimp only at hn hh hr hk
      have hsaved : (s.proc p).saved = false := hok.saved hr
      simp only [sleep, if_true]
      refine check_goToSleep (by simp [hh]) hr (fun _ => ⟨hn, hh⟩) ⟨⟨rfl, rfl, rfl⟩, ?_⟩
      simpa [hr, hsaved, Ctx.resumed] using hk
  | _ => cases hs

/-- An instruction keeps the CPUs in order. -/
theorem Inv.exec (h : Inv strict s) (hcode : s.code c = i :: k)
    (hs : exec s c choice k i = some s') : Inv strict s' := by
  cases i with
  | pushcli =>
    cases hs
    exact h.exec_pushcli hcode
  | popcli =>
    obtain ⟨y, hy, rfl⟩ := map_eq_some_iff.1 hs
    exact h.exec_popcli hcode hy
  | lock l =>
    obtain ⟨s1, hs1, rfl⟩ := map_eq_some_iff.1 hs
    exact h.exec_lock hcode hs1
  | unlock l =>
    obtain ⟨s1, hs1, rfl⟩ := map_eq_some_iff.1 hs
    exact h.exec_unlock hcode hs1
  | wake ch q =>
    cases hs
    exact h.exec_wake hcode
  | kill q =>
    cases hs
    exact h.exec_kill hcode
  | tick =>
    cases hs
    exact h.exec_tick hcode _
  | iret =>
    obtain ⟨h0, rfl⟩ := enabled hs
    exact h.exec_iret hcode h0
  | _ =>
    obtain ⟨p, hon, hs⟩ := of_on (f := fun p => Sched.execProc s c p choice k _) hs
    exact h.execProc hon (code_on hon ▸ hcode) hs

/-- The call of a kernel function does. -/
theorem Inv.call (h : Inv strict s) (hon : (s.cpu c).on = some p) {f : Call}
    (hcode : Rest (s.proc p).code) (hf : f.admissible s c p = true)
    (hstrict : strict → ∀ ch n, f = .sleep ch n → ∀ l, s.holder l = some c → l = .other n) :
    Inv strict ((f.enter s p).modProc p fun x => { x with code := f.body ++ x.code }) := by
  have hadm : ∀ H, CpuOk strict s c H →
      f.Admitted strict ⟨(s.cpu c).ncli, H, (s.proc p).state, (s.proc p).saved⟩ := by
    intro H hc
    cases f with
    | sleep ch n =>
      have hn := (hc.holds (.other n)).2 (by simpa [Call.admissible] using hf)
      refine ⟨hn, fun hst => eq_singleton_iff_unique_mem.2 ⟨hn, fun l hl => ?_⟩⟩
      exact hstrict hst ch n rfl l ((hc.holds l).1 hl)
    | exit wakes =>
      simp only [Call.admissible, Bool.and_eq_true, decide_eq_true_eq] at hf
      exact hf.1
    | wait => simpa [Call.admissible, Call.Admitted] using hf
    | _ => trivial
  have henter : ∃ e w, (f.enter s p).proc = Function.update s.proc p
      { s.proc p with episode := e, woken := w } ∧ (f.enter s p).cpu = s.cpu ∧
        (f.enter s p).holder = s.holder := by
    cases f with
    | sleep ch n => exact ⟨_, _, rfl, rfl, rfl⟩
    | _ => exact ⟨(s.proc p).episode, (s.proc p).woken, by simp [Call.enter], rfl, rfl⟩
  obtain ⟨e, w, hproc, hcpu, hholder⟩ := henter
  refine h.own hon hcpu hholder
    (x := { s.proc p with code := f.body ++ (s.proc p).code, episode := e, woken := w })
    (by simp [State.modProc, hproc]) rfl (List.mem_append_right _) fun H hc hcheck => ?_
  have hok := hc.ok
  rw [ctx_on hon] at hok
  obtain ⟨hr, hs⟩ : (s.proc p).state = .running ∧
      settled ⟨(s.cpu c).ncli, H, (s.proc p).state, (s.proc p).saved⟩ := by
    rcases hcode with hcode | hcode <;> rw [hcode] at hcheck
    · exact hcheck
    · exact ⟨hcheck.2.1, hcheck.1⟩
  exact ⟨hok, check_call hok hr hs (hadm H hc) hcode⟩

/-- An interrupt does. -/
theorem Inv.interrupt (h : Inv strict s) (hi : (s.cpu c).interrupts = true) (lk : Option ℕ)
    (wakes : List Chan) (timer : Bool) :
    Inv strict ((s.setCode c (trap lk wakes timer ++ s.code c)).modCpu c
      fun x => { x with interrupts := false }) := by
  obtain ⟨H, hc⟩ := h.cpu c
  have h0 := hc.cli hi
  have hH : H = ∅ := card_eq_zero.1 (Nat.le_zero.1 (h0 ▸ hc.card_le))
  subst hH
  have hctx : s.ctx c ∅ = ⟨0, ∅, .running, false⟩ := by
    have hst : (s.ctx c ∅).state = .running ∧ (s.ctx c ∅).saved = false :=
      hc.ok.state.resolve_right fun hl => by simpa using hl.2
    rw [← ctx_eta, hst.1, hst.2, h0]
  have hbusy : (s.cpu c).on ≠ none ∨ (s.cpu c).proc = none := by
    by_cases hcode : s.code c = []
    · cases hon : (s.cpu c).on with
      | some p => simp
      | none =>
        have hcheck := hc.check
        have hseat := hc.seat
        simp only [hcode, Check, State.fin, hon, ctx_ncli, h0] at hcheck
        simp only [Seat, hon] at hseat
        have hserves := hseat.2
        refine .inr ?_
        cases hpc : (s.cpu c).pc <;> simp only [hpc, SchedPc.ncli, Serves] at hcheck hserves <;>
          first
            | exact hserves
            | simp at hcheck
    · exact hc.busy hcode
  have hk : ((s.setCode c (trap lk wakes timer ++ s.code c)).modCpu c
      fun x => { x with interrupts := false }).code c = trap lk wakes timer ++ s.code c :=
    (code_modCpu rfl rfl).trans setCode_code
  have hctx' : ((s.setCode c (trap lk wakes timer ++ s.code c)).modCpu c
      fun x => { x with interrupts := false }).ctx c ∅ = s.ctx c ∅ := by
    have hown := Own.setCode (s := s) (c := c) (trap lk wakes timer ++ s.code c)
    cases hon : (s.cpu c).on with
    | none => simp [State.ctx, hown.on, hon]
    | some p => simp [State.ctx, hown.on, hon, setCode_state]
  refine h.advance hc hbusy ((Own.setCode _).trans (Own.modCpu ⟨rfl, rfl, rfl, rfl⟩))
    (by rw [hk]; exact List.mem_append_right _) ∅ (by simpa using hc.holds) (by simp) ?_ ?_
  · rw [hctx']
    exact hc.ok
  · rw [hctx', hk]
    exact check_trap hctx hc.check

end Xv6.Sched
