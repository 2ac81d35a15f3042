import Xv6.IdeQueue

/-!
# What a valid buffer holds

`ideintr` reads the data of a block only if `idewait(1)` finds no error in the status
register, and sets `B_VALID` in any case. `stepStatus` is the queued driver with a status at
each interrupt. Where every read succeeds (`ReadsSucceed`) the status makes no difference.

The buffer cache has one buffer for a block (`Recycled` : a buffer gets another block only
where `bget` found none that has it). So no other request for the block comes between the
request of a process and its return, and the buffer still is what the drive has
(`iderw_reads`). With an error on a read it is not (`iderw_reads_error`).
-/

set_option linter.unusedSectionVars false

open Function Transition

namespace Xv6.Ide

variable {P β : Type} [DecidableEq P] [Fintype P] [DecidableEq β] [Fintype β]

/-! ## The status register -/

/-- `ideintr` where the status register shows an error, if `err`. Then `insl` is left out, and
a buffer that is read keeps its data. -/
def ideintrStatus (s : State P β) (err : Bool) (latch : Block) : Option (State P β) :=
  match s.link none with
  | none => ideintr s latch
  | some b => ideintr s (if err then (s.buf b).data else latch)

/-- The system steps, with the status that an interrupt finds. -/
def stepStatus (s : State P β) : Label P β × Bool → Option (State P β)
  | (.intr, err) =>
    match s.ctl with
    | .done _ latch => ideintrStatus s err latch
    | _ => none
  | (l, _) => step s l

/-- An error is one of a write. -/
def ReadsSucceed (s : State P β) : Label P β × Bool → Prop
  | (.intr, true) => ∀ b, s.link none = some b → (s.buf b).dirty = true
  | _ => True

theorem ideintr_of_dirty {s : State P β} {b : β} (hb : s.link none = some b)
    (hd : (s.buf b).dirty = true) (latch latch' : Block) : ideintr s latch = ideintr s latch' := by
  simp only [ideintr, hb, hd, if_true]

/-- Where reads succeed, the status changes nothing. -/
theorem stepStatus_eq {s : State P β} {l : Label P β × Bool} (hl : ReadsSucceed s l) :
    stepStatus s l = step s l.1 := by
  obtain ⟨l, err⟩ := l
  cases l with
  | intr =>
    simp only [stepStatus, step]
    cases s.ctl with
    | done c latch =>
      simp only [ideintrStatus]
      cases hb : s.link none with
      | none => rfl
      | some b =>
        cases err with
        | false => rfl
        | true => exact ideintr_of_dirty hb (hl b hb) _ _
    | _ => rfl
  | _ => rfl

/-! ## One buffer for a block -/

/-- A buffer keeps its block, or gets one that no buffer has. -/
def Recycled (s : State P β) : Label P β → Prop
  | .change b c => c.dev = (s.buf b).dev ∧ c.blockno = (s.buf b).blockno ∨
      ∀ d, ¬((s.buf d).dev = c.dev ∧ (s.buf d).blockno = c.blockno)
  | _ => True

/-- No two buffers have one block of the disk. -/
def Unique (s : State P β) : Prop :=
  ∀ b c, (s.buf b).dev = 1 → (s.buf c).dev = 1 → (s.buf b).blockno = (s.buf c).blockno → b = c

/-- There is one buffer for a block, and no request for the block after that of a process
that waits. -/
structure Alone (s : State P β) : Prop where
  unique : Unique s
  later : ∀ p b k, (s.pc p).waits b k → ∀ j r, k < j → s.reqs[j]? = some r →
    r.2.blockno ≠ (s.buf b).blockno

theorem serve_block (m : ℕ → Block) (b : Buf) :
    (serve m b).2.dev = b.dev ∧ (serve m b).2.blockno = b.blockno := by
  unfold serve
  split_ifs <;> exact ⟨rfl, rfl⟩

theorem serve_data (m : ℕ → Block) (b : Buf) :
    (serve m b).1 b.blockno = (serve m b).2.data := by
  unfold serve
  split_ifs
  · exact update_self ..
  · rfl

theorem serve_of_ne {m : ℕ → Block} {b : Buf} {x : ℕ} (h : b.blockno ≠ x) :
    (serve m b).1 x = m x := by
  unfold serve
  split_ifs
  · exact update_of_ne h.symm _ _
  · rfl

theorem Inv.dev_of_waits {mem : ℕ → Block} {s : State P β} {p : P} {b : β} {k : ℕ} (h : Inv mem s)
    (hp : (s.pc p).waits b k) : (s.buf b).dev = 1 := by
  obtain ⟨c, hc, hdone⟩ := h.waits p b k hp
  have hready := h.ready _ (Inv.mem_reqs hc)
  obtain hk | hk := Nat.lt_or_ge k s.complete
  · rw [hdone hk, (serve_block _ _).1]
    exact hready.dev
  · rw [h.buf_eq hk hc]
    exact hready.dev

namespace Alone

variable {mem : ℕ → Block} {s s' : State P β}

theorem start (h : Start s) (hu : Unique s) : Alone s where
  unique := hu
  later p b k hp := by
    rw [h.pc] at hp
    obtain hp | hp := hp <;> cases hp

theorem keep (h : Alone s)
    (hbuf : ∀ b, (s'.buf b).dev = (s.buf b).dev ∧ (s'.buf b).blockno = (s.buf b).blockno)
    (hreqs : s'.reqs = s.reqs) (hw : ∀ p b k, (s'.pc p).waits b k → (s.pc p).waits b k) :
    Alone s' where
  unique b c hb hc hbc := by
    rw [(hbuf b).1] at hb
    rw [(hbuf c).1] at hc
    rw [(hbuf b).2, (hbuf c).2] at hbc
    exact h.unique b c hb hc hbc
  later p b k hp j r hj hr := by
    rw [hreqs] at hr
    rw [(hbuf b).2]
    exact h.later p b k (hw p b k hp) j r hj hr

theorem setPc (h : Alone s) {p : P} {pc : Pc β} (hw : ∀ b k, pc.waits b k → (s.pc p).waits b k) :
    Alone { s with pc := update s.pc p pc } := by
  refine h.keep (fun _ => ⟨rfl, rfl⟩) rfl fun q b k hq => ?_
  change (update s.pc p pc q).waits b k at hq
  obtain ⟨-, e⟩ | ⟨rfl, e⟩ := update_cases s.pc p pc q <;> rw [e] at hq
  · exact hq
  · exact hw b k hq

theorem change {b : β} {c : Buf} (h : Alone s) (hb : ¬∃ p, (s.pc p).buf = some b)
    (hc : Recycled s (.change b c)) : Alone { s with buf := update s.buf b c } := by
  have hcases := update_cases s.buf b c
  have hfresh : ∀ d, d ≠ b → (s.buf d).dev = 1 → c.dev = 1 → (s.buf d).blockno ≠ c.blockno := by
    intro d hd hdev hcdev hblk
    obtain ⟨hc1, hc2⟩ | hc := hc
    · exact hd (h.unique d b hdev (hc1 ▸ hcdev) (hblk.trans hc2))
    · exact hc d ⟨hdev.trans hcdev.symm, hblk⟩
  refine ⟨fun d d' hd hd' hdd => ?_, fun p d k hp j r hj hr => ?_⟩
  · change (update s.buf b c d).dev = 1 at hd
    change (update s.buf b c d').dev = 1 at hd'
    change (update s.buf b c d).blockno = (update s.buf b c d').blockno at hdd
    obtain ⟨hne, e⟩ | ⟨rfl, e⟩ := hcases d <;> obtain ⟨hne', e'⟩ | ⟨rfl, e'⟩ := hcases d' <;>
      rw [e] at hd hdd <;> rw [e'] at hd' hdd
    · exact h.unique d d' hd hd' hdd
    · exact absurd hdd (hfresh d hne hd hd')
    · exact absurd hdd.symm (hfresh d' hne' hd' hd)
  · have hd : d ≠ b := fun e => hb ⟨p, e ▸ Inv.buf_of_waits hp⟩
    change r.2.blockno ≠ (update s.buf b c d).blockno
    rw [update_of_ne hd]
    exact h.later p d k hp j r hj hr

theorem enqueued {p : P} {b : β} (h : Alone s) (hI : Inv mem s) (hp : s.pc p = .enter b)
    (he : Inv.Enqueued s p b s') : Alone s' := by
  have hcases := update_cases s.pc p (.asleep b s.reqs.length)
  rw [← he.pc] at hcases
  refine ⟨by unfold Unique; rw [he.buf]; exact h.unique, fun q d k hq j r hj hr => ?_⟩
  rw [he.buf]
  rw [he.reqs, List.getElem?_append] at hr
  obtain ⟨hqp, e⟩ | ⟨rfl, e⟩ := hcases q <;> rw [e] at hq
  · split_ifs at hr with hlt
    · exact h.later q d k hq j r hj hr
    · -- the new request is for the buffer of `p`, which has another block
      obtain rfl : r = (b, s.buf b) := List.mem_singleton.1 (List.mem_of_getElem? hr)
      intro hblk
      have hdb := h.unique b d (hI.enter p b hp).dev (hI.dev_of_waits hq) hblk
      refine hqp (hI.distinct q p b ?_ (by rw [hp]; rfl))
      rw [hdb]
      exact Inv.buf_of_waits hq
  · obtain hq | hq := hq <;> cases hq
    rw [if_neg (by omega), List.getElem?_eq_none (by simp; omega)] at hr
    cases hr

/-- Every step keeps this. -/
theorem step (h : Alone s) (hI : Inv mem s) {l : Label P β} (hl : Recycled s l)
    (hs : Ide.step s l = some s') : Alone s' := by
  obtain ⟨b, c, rfl, hb, rfl⟩ | ⟨p, b, rfl, hp, hb, hbusy, hsync, rfl⟩ | ⟨p, b, rfl, hp, he⟩ |
    ⟨c, rfl, hc, rfl⟩ | ⟨c, latch, r, rs, rfl, hc, hr, he⟩ | ⟨p, b, k, rfl, hp, rfl⟩ |
    ⟨p, b, k, rfl, hp, rfl⟩ := hI.step_cases hs
  · exact h.change hb hl
  · refine h.setPc fun b' k hk => ?_
    obtain hk | hk := hk <;> cases hk
  · exact h.enqueued hI hp he
  · exact h.keep (fun _ => ⟨rfl, rfl⟩) rfl fun _ _ _ => id
  · refine h.keep (fun b => ?_) he.reqs fun p b k hw => ?_
    · rw [he.buf]
      obtain ⟨-, e⟩ | ⟨rfl, e⟩ := update_cases s.buf r.1
        (serve (after mem s.reqs s.complete) r.2).2 b <;> rw [e]
      · exact ⟨rfl, rfl⟩
      · rw [hI.same r (by rw [hr]; exact List.mem_cons_self)]
        exact serve_block _ _
    · rw [he.pc] at hw
      exact Inv.wakeup_waits.1 hw
  · refine h.setPc fun b' k' hk => ?_
    obtain hk | hk := hk <;> cases hk
    exact .inl hp
  · refine h.setPc fun b' k' hk => ?_
    split_ifs at hk
    · obtain hk | hk := hk <;> cases hk
    · obtain hk | hk := hk <;> cases hk
      exact .inr hp

/-- After a request the buffer and the disk agree. -/
theorem disk_eq {p : P} {b : β} {k : ℕ} (h : Alone s) (hI : Inv mem s) (hp : (s.pc p).waits b k)
    (hk : k < s.complete) : s.disk 1 (s.buf b).blockno = (s.buf b).data := by
  obtain ⟨c, hc, hdone⟩ := hI.waits p b k hp
  have hlater := h.later p b k hp
  have hbuf := hdone hk
  have hblk : (s.buf b).blockno = c.blockno := by rw [hbuf, (serve_block _ _).2]
  have hafter : ∀ n, k + 1 ≤ n → n ≤ s.reqs.length →
      after mem s.reqs n (s.buf b).blockno = (s.buf b).data := by
    intro n hn
    induction n, hn using Nat.le_induction with
    | base =>
      intro _
      rw [after_succ hc, hblk, serve_data, hbuf]
    | succ n hn ih =>
      intro hle
      have hr : s.reqs[n]? = some s.reqs[n] := List.getElem?_eq_getElem hle
      rw [after_succ hr, serve_of_ne (hlater n _ hn hr)]
      exact ih (Nat.le_of_succ_le hle)
  have hserved : s.complete ≤ s.served := by
    unfold State.served
    split <;> omega
  rw [hI.disk]
  exact hafter _ (by omega) hI.served_le

end Alone

/-- When `iderw` returns a buffer, in particular to `bread`, the buffer is valid and its data is
that of its block on the drive, if no read ended with an error. -/
theorem iderw_reads {s0 s s' : State P β} {ls : List (Label P β × Bool)} {p : P} {b : β} {k : ℕ}
    {err : Bool} (h0 : Start s0) (hu : Unique s0)
    (hC : Along stepStatus (fun s l => Served s l.1 ∧ Recycled s l.1 ∧ ReadsSucceed s l) s0 ls)
    (hr : run stepStatus s0 ls = some s) (hp : s.pc p = .runnable b k)
    (hs : stepStatus s (.resume p, err) = some s') (hout : s'.pc p = .out) :
    (s'.buf b).valid = true ∧ (s'.buf b).data = s'.disk 1 (s'.buf b).blockno := by
  obtain ⟨hI, hA⟩ : Inv (s0.disk 1) s ∧ Alone s := by
    refine run_invariant (I := fun s => Inv (s0.disk 1) s ∧ Alone s) (fun s l s' h hl hs => ?_)
      ⟨Inv.start h0, Alone.start h0 hu⟩ hC hr
    rw [stepStatus_eq hl.2.2] at hs
    exact ⟨h.1.step hl.1 hs, h.2.step h.1 hl.2.1 hs⟩
  obtain ⟨b', k', -, -, -, hp', hk, -, hvalid, -⟩ := hI.refines.returns _ _ hs hout
  cases hp.symm.trans hp'
  refine ⟨hvalid, ?_⟩
  simp only [stepStatus, step, hp] at hs
  cases hs
  exact (hA.disk_eq hI (.inr hp) hk).symm

/-- A buffer that caches nothing, and a drive whose blocks hold ones. -/
def oneBuffer : State (Fin 1) (Fin 1) where
  buf := fun _ => ⟨false, false, false, 2 ^ 32 - 1, 0, zeroBlock⟩
  link := fun _ => none
  havedisk1 := true
  ctl := .idle
  disk := fun _ _ _ => 1
  pc := fun _ => .out
  reqs := []
  complete := 0

/-- `bread` of block 5 up to its return : `bget` recycles the buffer, `iderw` waits for the
controller, whose interrupt finds the status `err`. -/
def readBlock (err : Bool) : List (Label (Fin 1) (Fin 1) × Bool) :=
  [(.change 0 ⟨true, false, false, 1, 5, zeroBlock⟩, false), (.call 0 0, false),
    (.enqueue 0, false), (.finish, false), (.intr, err)]

instance (s : State P β) : ∀ l : Label P β, Decidable (Recycled s l)
  | .change _ _ => inferInstanceAs (Decidable (_ ∨ _))
  | .call _ _ | .enqueue _ | .finish | .intr | .kill _ | .resume _ => .isTrue trivial

instance (s : State P β) : ∀ l : Label P β × Bool, Decidable (ReadsSucceed s l)
  | (.intr, true) => inferInstanceAs (Decidable (∀ _, _))
  | (.intr, false) => .isTrue trivial
  | (.change _ _, _) | (.call _ _, _) | (.enqueue _, _) | (.finish, _) | (.kill _, _)
  | (.resume _, _) => .isTrue trivial

theorem iderw_reads_block : ∃ s s', run stepStatus oneBuffer (readBlock false) = some s ∧
    stepStatus s (.resume 0, false) = some s' ∧ s'.pc 0 = .out ∧
    (s'.buf 0).valid = true ∧ (s'.buf 0).data = s'.disk 1 (s'.buf 0).blockno := by
  have hrun : ((run stepStatus oneBuffer (readBlock false)).any fun s =>
      s.pc 0 = .runnable 0 0 ∧
        (stepStatus s (.resume 0, false)).any fun s' => s'.pc 0 = .out) = true := by decide
  obtain ⟨s, hs, hp⟩ := (Option.any_eq_true _ _).1 hrun
  rw [decide_eq_true_eq] at hp
  obtain ⟨s', hs', hout⟩ := (Option.any_eq_true _ _).1 hp.2
  rw [decide_eq_true_eq] at hout
  exact ⟨s, s', hs, hs', hout, iderw_reads ⟨rfl, rfl, fun _ => rfl, rfl, rfl⟩
    (fun _ _ _ _ _ => Subsingleton.elim _ _) (by decide) hs hp.1 hs' hout⟩

/-- With an error status `bread` returns a valid buffer that was not read : it holds zeros, the
block ones. -/
theorem iderw_reads_error : ((run stepStatus oneBuffer
    (readBlock true ++ [(.resume 0, false)])).any fun s => s.pc 0 = .out ∧
      (s.buf 0).valid = true ∧ (s.buf 0).dev = 1 ∧ (s.buf 0).blockno = 5 ∧
      (s.buf 0).data 0 = 0 ∧ s.disk 1 5 0 = 1) = true := by
  decide

end Xv6.Ide
