import Xv6.LogOps

/-!
# Log space

`begin_op` lets an operation in when the blocks already in the header and `MAXOPBLOCKS`
for every operation in progress fit in `LOGSIZE`. `log_write` panics when the header holds
`log.size - 1` blocks, before it looks whether the block is there already. The log of a
mkfs image has `nlog = LOGSIZE` blocks, the header block among them.

The two tests do not agree : three operations of `MAXOPBLOCKS` blocks each are let in
together and their thirtieth block panics. What `log_write` needs is room for `LOGSIZE - 2`
blocks, counted with what each operation may still log (`State.reserved`).
-/

open Function Transition

namespace Xv6.LogOps

variable {P : Type} [DecidableEq P] [Fintype P]

/-- Every operation logs at most `MAXOPBLOCKS` distinct blocks. -/
def Obeys (s : State P) : Label P → Prop
  | .logWrite p b => (absorb b (s.thr p).logged).length ≤ MAXOPBLOCKS
  | _ => True

/-- The blocks an operation in progress may still log. -/
def Thread.rest (t : Thread) : ℕ :=
  if t.pc.inOp = 1 then MAXOPBLOCKS - t.logged.length else 0

/-- The blocks in the header, and those the operations in progress may still log. -/
def State.reserved (s : State P) : ℕ :=
  s.lh.length + ∑ q, (s.thr q).rest

/-- What `begin_op` lets in leaves the reserved blocks below the limit of `log_write`. -/
def Fits (s : State P) : Label P → Prop
  | .enter p => (enter s p).reserved ≤ LOGSIZE - 2
  | _ => True

instance (s : State P) : (l : Label P) → Decidable (Obeys s l)
  | .logWrite p b =>
    inferInstanceAs (Decidable ((absorb b (s.thr p).logged).length ≤ MAXOPBLOCKS))
  | .beginOp _ | .enter _ | .append _ | .endOp _ | .commit _ => .isTrue trivial

instance (s : State P) : (l : Label P) → Decidable (Fits s l)
  | .enter p => inferInstanceAs (Decidable ((enter s p).reserved ≤ LOGSIZE - 2))
  | .beginOp _ | .logWrite _ _ | .append _ | .endOp _ | .commit _ => .isTrue trivial

/-- The invariant of the runs that obey. -/
structure Bounded (s : State P) : Prop where
  inv : Inv s
  logged : ∀ q, (s.thr q).pc.inOp = 1 → (s.thr q).logged.length ≤ MAXOPBLOCKS
  logging : ∀ q b, (s.thr q).pc = .logging b → (absorb b (s.thr q).logged).length ≤ MAXOPBLOCKS

/-- The invariant of the runs that obey and whose admissions fit. -/
structure Roomy (s : State P) : Prop extends Bounded s where
  reserved : s.reserved ≤ LOGSIZE - 2
  live : s.panicked ≠ some "too big a transaction"

section

variable {s s' : State P} {p : P} {l : Label P} {size : ℤ}

theorem Bounded.update (h : Bounded s) (hI : Inv s') {t : Thread}
    (hthr : s'.thr = update s.thr p t)
    (hin : t.pc.inOp = 1 → t.logged.length ≤ MAXOPBLOCKS)
    (hlog : ∀ b, t.pc = .logging b → (absorb b t.logged).length ≤ MAXOPBLOCKS) : Bounded s' := by
  refine ⟨hI, fun q hq => ?_, fun q b hq => ?_⟩ <;> rw [hthr] at hq ⊢ <;> by_cases hqp : q = p
  · subst hqp
    simp only [update_self] at hq ⊢
    exact hin hq
  · simp only [update_of_ne hqp] at hq ⊢
    exact h.logged q hq
  · subst hqp
    simp only [update_self] at hq ⊢
    exact hlog b hq
  · simp only [update_of_ne hqp] at hq ⊢
    exact h.logging q b hq

/-- Every step that obeys keeps this. -/
theorem Bounded.step (h : Bounded s) (hobeys : Obeys s l) (hs : step size s l = some s') :
    Bounded s' := by
  have hI := h.inv.step hs
  obtain ⟨-, ⟨p, rfl, hp, rfl⟩ | ⟨p, rfl, hp, rfl⟩ | ⟨p, b, rfl, hp, rfl⟩ | ⟨p, b, rfl, hp, rfl⟩ |
    ⟨p, rfl, hp, rfl⟩ | ⟨p, c, rfl, hp, rfl⟩⟩ := step_cases hs
  · exact h.update hI rfl (by simp) (by simp)
  · unfold enter at hI ⊢
    split_ifs at hI ⊢
    · exact h
    · exact h
    · exact h.update hI rfl (by simp) (by simp)
  · have hin := h.logged p (by simp [hp])
    unfold logWrite at hI ⊢
    split_ifs at hI ⊢
    · exact ⟨hI, h.logged, h.logging⟩
    · exact ⟨hI, h.logged, h.logging⟩
    · refine h.update hI rfl (fun _ => hin) ?_
      rintro c hc
      cases hc
      exact hobeys
  · unfold append at hI ⊢
    split_ifs at hI ⊢
    · exact ⟨hI, h.logged, h.logging⟩
    · exact h.update hI rfl (fun _ => h.logging p b hp) (by simp)
  · unfold endOp at hI ⊢
    rw [if_neg (by simp [h.inv.not_committing (p := p) (by simp [hp])])] at hI ⊢
    split_ifs at hI ⊢ <;> exact h.update hI rfl (by simp) (by simp)
  · cases c <;> simp only [commitStep] at hI ⊢ <;> (try split_ifs at hI ⊢) <;>
    exact h.update hI rfl (by simp) (by simp)

theorem sum_rest_update (s : State P) (p : P) (t : Thread) :
    ∑ q, (update s.thr p t q).rest + (s.thr p).rest = ∑ q, (s.thr q).rest + t.rest :=
  sum_update_add Thread.rest s.thr p t

theorem Roomy.update (h : Roomy s) (hB : Bounded s') {t : Thread}
    (hthr : s'.thr = update s.thr p t) (hpanic : s'.panicked = s.panicked)
    (hres : s'.lh.length + t.rest ≤ s.lh.length + (s.thr p).rest) : Roomy s' := by
  have hupd := sum_rest_update s p t
  have hle := h.reserved
  refine ⟨hB, ?_, hpanic ▸ h.live⟩
  simp only [State.reserved] at hle ⊢
  rw [hthr]
  omega

omit [DecidableEq P] in
theorem Bounded.append_rest (h : Bounded s) {b : ℕ} (hp : (s.thr p).pc = .logging b) :
    (absorb b s.lh).length + (MAXOPBLOCKS - (absorb b (s.thr p).logged).length) ≤
      s.lh.length + (s.thr p).rest := by
  have hin : (s.thr p).pc.inOp = 1 := by simp [hp]
  have hlog := h.logging p b hp
  -- a block that is new in the header is new in the operation
  have hsub := h.inv.logged p hin
  simp only [Thread.rest, hin, ↓reduceIte, length_absorb] at hlog ⊢
  split_ifs at hlog ⊢ with h1 h2 h2
  · exact le_rfl
  · omega
  · exact absurd (hsub h2) h1
  · omega

/-- Every step that obeys and fits keeps this. -/
theorem Roomy.step (h : Roomy s) (hobeys : Obeys s l) (hfits : Fits s l)
    (hs : step LOGSIZE s l = some s') : Roomy s' := by
  have hB := h.toBounded.step hobeys hs
  obtain ⟨-, ⟨p, rfl, hp, rfl⟩ | ⟨p, rfl, hp, rfl⟩ | ⟨p, b, rfl, hp, rfl⟩ | ⟨p, b, rfl, hp, rfl⟩ |
    ⟨p, rfl, hp, rfl⟩ | ⟨p, c, rfl, hp, rfl⟩⟩ := step_cases hs
  · exact h.update hB rfl rfl (by simp [Thread.rest, State.goto])
  · refine ⟨hB, hfits, ?_⟩
    unfold enter
    split_ifs <;> exact h.live
  · have hle : s.lh.length ≤ LOGSIZE - 2 := le_trans (Nat.le_add_right _ _) h.reserved
    have hout := h.inv.outstanding_pos (p := p) (by simp [hp])
    unfold logWrite at hB ⊢
    rw [if_neg (by simp only [LOGSIZE, MAXOPBLOCKS] at hle ⊢; omega), if_neg (by omega)] at hB ⊢
    exact h.update hB rfl rfl (by simp [Thread.rest, hp, State.goto])
  · have hle : s.lh.length ≤ LOGSIZE - 2 := le_trans (Nat.le_add_right _ _) h.reserved
    rw [append, if_neg (by simp only [LOGSIZE, MAXOPBLOCKS] at hle ⊢; omega)] at hB ⊢
    exact h.update hB rfl rfl (h.append_rest hp)
  · unfold endOp at hB ⊢
    rw [if_neg (by simp [h.inv.not_committing (p := p) (by simp [hp])])] at hB ⊢
    split_ifs at hB ⊢ <;> exact h.update hB rfl rfl (by simp [Thread.rest])
  · cases c <;> simp only [commitStep] at hB ⊢ <;> (try split_ifs at hB ⊢) <;>
    exact h.update hB rfl rfl (by simp [Thread.rest, State.goto])

end

omit [DecidableEq P] in
theorem bounded_init : Bounded (init : State P) :=
  ⟨inv_init, fun _ h => absurd h (by simp [init]), fun _ _ h => absurd h (by simp [init])⟩

omit [DecidableEq P] in
theorem roomy_init : Roomy (init : State P) :=
  ⟨bounded_init, by simp [State.reserved, Thread.rest, init], by simp [init]⟩

/-! ## Reservations that do not fit -/

section

variable {s : State P} {p : P}

/-- No process is in the middle of a `log_write`. -/
def Settled (s : State P) : Prop :=
  ∀ q b, (s.thr q).pc ≠ .logging b

omit [Fintype P] in
theorem step_logWrite (hlive : s.panicked = none) (hp : (s.thr p).pc = .inside)
    (hout : 1 ≤ s.outstanding) (hlt : s.lh.length < LOGSIZE - 1) (b : ℕ) :
    step LOGSIZE s (.logWrite p b) = some (s.goto p (.logging b)) := by
  simp only [step, hlive, hp, logWrite, ne_eq, not_true_eq_false, ↓reduceIte]
  rw [if_neg (by simp only [LOGSIZE, MAXOPBLOCKS] at hlt ⊢; omega), if_neg (by omega)]

omit [Fintype P] in
theorem step_append (hlive : s.panicked = none) (hlt : s.lh.length < LOGSIZE - 1) (p : P) (b : ℕ) :
    step LOGSIZE (s.goto p (.logging b)) (.append p) = some { s with
      lh := absorb b s.lh
      thr := update s.thr p ⟨.inside, absorb b (s.thr p).logged⟩ } := by
  have hroom : ¬(b ∉ s.lh ∧ LOGSIZE ≤ s.lh.length) := by omega
  simp [step, append, State.goto, hlive, hroom]

theorem exists_panic_of_full (h : Bounded s) (hlive : s.panicked = none)
    (hp : (s.thr p).pc = .inside) (hfull : LOGSIZE - 1 ≤ s.lh.length) :
    ∃ ls s', Along (step LOGSIZE) Obeys s ls ∧
      run (step LOGSIZE) s ls = some s' ∧
      s'.panicked = some "too big a transaction" := by
  obtain ⟨b, hb⟩ : ∃ b, Obeys s (.logWrite p b) := by
    have hlen := h.logged p (by simp [hp])
    cases hl : (s.thr p).logged with
    | nil => exact ⟨0, by simp [Obeys, hl, absorb, MAXOPBLOCKS]⟩
    | cons b bs => exact ⟨b, by rw [Obeys, length_absorb, if_pos (by simp [hl])]; exact hlen⟩
  refine ⟨[.logWrite p b], { s with panicked := some "too big a transaction" },
    ⟨hb, fun _ _ => trivial⟩, ?_, rfl⟩
  simp only [run, step, hlive, hp, logWrite, ne_eq, not_true_eq_false, ↓reduceIte]
  rw [if_pos (by simp only [LOGSIZE, MAXOPBLOCKS] at hfull ⊢; omega)]
  rfl

/-- Once more than `LOGSIZE - 2` blocks are reserved, operations that obey can fill the header and
panic. The induction is on the room left in the header : as long as there is some, an operation has
a block left to log. -/
theorem exists_panic_of_reserved : ∀ (k : ℕ) {s : State P}, s.lh.length + k = LOGSIZE - 1 →
    Bounded s → s.panicked = none → Settled s → (s.thr p).pc = .inside →
    LOGSIZE - 2 < s.reserved →
    ∃ ls s', Along (step LOGSIZE) Obeys s ls ∧
      run (step LOGSIZE) s ls = some s' ∧
      s'.panicked = some "too big a transaction"
  | 0, s, hk, h, hlive, _, hp, _ => exists_panic_of_full h hlive hp (by omega)
  | k + 1, s, hk, h, hlive, hset, hp, hres => by
    have hsum : 0 < ∑ q, (s.thr q).rest := by
      simp only [State.reserved] at hres
      omega
    obtain ⟨q, -, hq⟩ := Finset.exists_ne_zero_of_sum_ne_zero hsum.ne'
    have hin : (s.thr q).pc.inOp = 1 := by
      by_contra h0
      simp [Thread.rest, h0] at hq
    have hq' : (s.thr q).pc = .inside := by
      cases hpc : (s.thr q).pc <;> simp_all [Settled]
    obtain ⟨b, hb⟩ := Infinite.exists_notMem_finset s.lh.toFinset
    have hb : b ∉ s.lh := by simpa using hb
    have hbq : b ∉ (s.thr q).logged := fun hbl => hb (h.inv.logged q hin hbl)
    have hroom : (s.thr q).logged.length < MAXOPBLOCKS := by
      simp only [Thread.rest, hin, ↓reduceIte] at hq
      omega
    have hobeys : Obeys s (.logWrite q b) := by
      rw [Obeys, length_absorb, if_neg hbq]
      exact hroom
    have h1 := step_logWrite hlive hq' (h.inv.outstanding_pos hin) (by omega) b
    have h2 := step_append hlive (by omega) q b
    set s1 : State P := { s with
      lh := absorb b s.lh
      thr := update s.thr q ⟨.inside, absorb b (s.thr q).logged⟩ }
    have hB : Bounded s1 := (h.step hobeys h1).step (l := .append q) trivial h2
    have hset' : Settled s1 := by
      intro r c
      by_cases hr : r = q
      · subst hr
        simp [s1]
      · simpa [s1, hr] using hset r c
    have hp' : (s1.thr p).pc = .inside := by
      by_cases hpq : p = q
      · subst hpq
        simp [s1]
      · simpa [s1, hpq] using hp
    have hlen : s1.lh.length = s.lh.length + 1 := by
      simp only [s1, length_absorb, if_neg hb]
    have hres' : LOGSIZE - 2 < s1.reserved := by
      have hupd := sum_rest_update s q ⟨.inside, absorb b (s.thr q).logged⟩
      have hrest : (s.thr q).rest = Thread.rest ⟨.inside, absorb b (s.thr q).logged⟩ + 1 := by
        simp only [Thread.rest, hin, Pc.inOp_eq, ↓reduceIte, length_absorb, if_neg hbq]
        omega
      simp only [State.reserved, hlen] at hres ⊢
      simp only [s1]
      omega
    obtain ⟨ls, s', hal, hrun, hpanic⟩ :=
      exists_panic_of_reserved k (by omega) hB hlive hset' hp' hres'
    refine ⟨.logWrite q b :: .append q :: ls, s', ⟨hobeys, fun s2 hs2 => ⟨?_, ?_⟩⟩, ?_, hpanic⟩
    · trivial
    · intro s3 hs3
      cases h1.symm.trans hs2
      cases h2.symm.trans hs3
      exact hal
    · simpa only [run, h1, h2, Option.bind_some] using hrun

end

/-! ## The reservation -/

/-- In every interleaving of operations of at most `MAXOPBLOCKS` blocks whose admissions leave the
reserved blocks below the limit of `log_write`, `log_write` does not find the transaction too big.
Once an admission does not, the operations let in can log blocks, within their bound, so that it
does. -/
theorem reservation_sufficient :
    (∀ (ls : List (Label P)) (s : State P),
      Along (step LOGSIZE) (fun s l => Obeys s l ∧ Fits s l) init ls →
      run (step LOGSIZE) init ls = some s →
      s.panicked ≠ some "too big a transaction") ∧
    ∀ (ls : List (Label P)) (s : State P) (p : P),
      Along (step LOGSIZE) Obeys init ls →
      run (step LOGSIZE) init ls = some s →
      s.panicked = none → Settled s → (s.thr p).pc = .inside → LOGSIZE - 2 < s.reserved →
      ∃ ls' s', Along (step LOGSIZE) Obeys s ls' ∧
        run (step LOGSIZE) s ls' = some s' ∧
        s'.panicked = some "too big a transaction" := by
  refine ⟨fun ls s hal hr => ?_, fun ls s p hal hr hlive hset hp hres => ?_⟩
  · exact (run_invariant (fun s l s' hI hC hs => Roomy.step hI hC.1 hC.2 hs)
      roomy_init hal hr).live
  · have hB := run_invariant (fun s l s' hI hC hs => Bounded.step hI hC hs)
      bounded_init hal hr
    by_cases hfull : LOGSIZE - 1 ≤ s.lh.length
    · exact exists_panic_of_full hB hlive hp hfull
    · exact exists_panic_of_reserved (LOGSIZE - 1 - s.lh.length) (by omega) hB hlive hset hp hres

/-- The state that three processes reach that call `begin_op`. -/
def threeIn : State (Fin 3) :=
  (run (step LOGSIZE) init threeOps).get (by decide)

/-- The operations of `threeOps` each log ten blocks, and the last one tests before it appends. -/
def thirtyBlocks : List (Label (Fin 3)) :=
  (logThree 10 10 10).dropLast

set_option maxRecDepth 10000 in
/-- Three operations of ten blocks stop the kernel. -/
theorem reservation_insufficient :
    Along (step LOGSIZE) Obeys init thirtyBlocks ∧
    (run (step LOGSIZE) init thirtyBlocks).map State.panicked =
      some (some "too big a transaction") := by
  decide +kernel

theorem reservation_sufficient_instances :
    (∃ s, run (step LOGSIZE) init overlap = some s ∧
      s.panicked ≠ some "too big a transaction") ∧
    ∃ ls' s', run (step LOGSIZE) init threeOps = some threeIn ∧
      threeIn.reserved = 30 ∧ Along (step LOGSIZE) Obeys threeIn ls' ∧
      run (step LOGSIZE) threeIn ls' = some s' ∧
      s'.panicked = some "too big a transaction" := by
  constructor
  · obtain ⟨s, hs⟩ : ∃ s, run (step LOGSIZE) init overlap = some s :=
      Option.isSome_iff_exists.1 (by decide)
    exact ⟨s, hs, reservation_sufficient.1 overlap s (by decide +kernel) hs⟩
  · have hs : run (step LOGSIZE) init threeOps = some threeIn :=
      (Option.some_get (by decide)).symm
    have hin : ∀ q, (threeIn.thr q).pc = .inside := by decide
    obtain ⟨ls', s', hal, hrun, hpanic⟩ := reservation_sufficient.2 threeOps threeIn 0
      (by decide) hs (by decide) (fun q b => by rw [hin q]; simp) (hin 0) (by decide)
    exact ⟨ls', s', hs, by decide, hal, hrun, hpanic⟩

end Xv6.LogOps
