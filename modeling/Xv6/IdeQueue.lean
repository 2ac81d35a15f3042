import Xv6.Ide

/-!
# The queued driver serves requests like the memory driver

In every state of a run of the queued driver (`Inv`) the requests that are not finished are, in
order, the buffers on `idequeue`; each has a process that waits for it and the content it had when
it was put there; the controller works for the first of them. The drive is what `memide.c` makes of
the requests the controller has carried out, and a buffer whose request is finished is what
`memide.c` makes of it, until its process returns from `iderw`.
-/

set_option linter.unusedSectionVars false

open Function Transition Linked Option

namespace Xv6.Ide

variable {P β : Type} [DecidableEq P] [Fintype P] [DecidableEq β] [Fintype β]

/-! ## Requests -/

/-- A request that neither driver panics on. -/
structure Buf.Ready (b : Buf) : Prop where
  busy : b.busy = true
  unsynced : b.synced = false
  dev : b.dev = 1
  blockno : b.blockno < FSSIZE

/-- What `memide.c` does with a request that it does not panic on. -/
def serve (mem : ℕ → Block) (b : Buf) : (ℕ → Block) × Buf :=
  if b.dirty then (update mem b.blockno b.data, { b with dirty := false, valid := true })
  else (mem, { b with data := mem b.blockno, valid := true })

theorem memiderw_of_ready {b : Buf} (h : b.Ready) (mem : ℕ → Block) :
    memiderw FSSIZE mem b = some (serve mem b) := by
  unfold memiderw serve
  rw [if_neg (by simp [h.busy]), if_neg (by simp [h.unsynced]), if_neg (by simp [h.dev]),
    if_neg (Nat.not_le.2 h.blockno)]
  split_ifs <;> rfl

/-- The memory after the first `n` requests. -/
def after (mem : ℕ → Block) (reqs : List (β × Buf)) (n : ℕ) : ℕ → Block :=
  (reqs.take n).foldl (fun m r => (serve m r.2).1) mem

theorem after_append {mem : ℕ → Block} {reqs : List (β × Buf)} {n : ℕ} (hn : n ≤ reqs.length)
    (r : β × Buf) : after mem (reqs ++ [r]) n = after mem reqs n := by
  rw [after, after, List.take_append_of_le_length hn]

theorem after_succ {mem : ℕ → Block} {reqs : List (β × Buf)} {n : ℕ} {r : β × Buf}
    (hr : reqs[n]? = some r) : after mem reqs (n + 1) = (serve (after mem reqs n) r.2).1 := by
  rw [after, List.take_add_one, hr, toList_some, List.foldl_append]
  rfl

theorem memidedisk_foldl : ∀ (bs : List Buf) (mem : ℕ → Block), (∀ b ∈ bs, b.Ready) →
    memidedisk FSSIZE mem bs = some (bs.foldl (fun m b => (serve m b).1) mem)
  | [], _, _ => rfl
  | b :: bs, mem, h => by
    rw [memidedisk, memiderw_of_ready (h b List.mem_cons_self), bind_some,
      memidedisk_foldl bs _ fun c hc => h c (List.mem_cons_of_mem b hc), List.foldl_cons]

theorem memidedisk_take {reqs : List (β × Buf)} (h : ∀ r ∈ reqs, r.2.Ready) (mem : ℕ → Block)
    (n : ℕ) : memidedisk FSSIZE mem ((reqs.take n).map Prod.snd) = some (after mem reqs n) := by
  rw [memidedisk_foldl, after, List.foldl_map]
  rintro b hb
  obtain ⟨r, hr, rfl⟩ := List.mem_map.1 hb
  exact h r (List.mem_of_mem_take hr)

/-! ## Commands -/

theorem Buf.Ready.high_bits {b : Buf} (h : b.Ready) : b.blockno >>> 24 = 0 := by
  have hb : b.blockno < 1000 := h.blockno
  rw [Nat.shiftRight_eq_div_pow]
  exact Nat.div_eq_of_lt (by omega)

theorem command_sector {b : Buf} (h : b.Ready) : (command b).sector = b.blockno := by
  have hb : b.blockno < 1000 := h.blockno
  have h8 : ∀ n, n &&& 0xff = n % 2 ^ 8 := fun n => Nat.and_two_pow_sub_one_eq_mod n 8
  have hd : (224 ||| (1 &&& 1) <<< 4 ||| 0 &&& 15) &&& 15 = 0 := by decide
  simp only [Cmd.sector, command, Nat.mul_one, BSIZE, SECTOR_SIZE, Nat.reduceDiv, h.dev,
    h.high_bits, h8, Nat.shiftRight_eq_div_pow, hd]
  omega

theorem command_unit {b : Buf} (h : b.Ready) : (command b).unit = 1 := by
  simp only [Cmd.unit, command, BSIZE, SECTOR_SIZE, Nat.reduceDiv, Nat.mul_one, h.dev, h.high_bits]
  decide

theorem perform_command {b : Buf} (h : b.Ready) (disk : ℕ → ℕ → Block) :
    (perform disk (command b)).1 1 = (serve (disk 1) b).1 ∧
      (b.dirty = false → (perform disk (command b)).2 = disk 1 b.blockno) := by
  unfold perform serve
  cases hd : b.dirty with
  | true =>
    have hw : (command b).write = some b.data := by simp [command, hd]
    simp [hw, command_sector h, command_unit h]
  | false =>
    have hw : (command b).write = none := by simp [command, hd]
    simp [hw, command_sector h, command_unit h]

/-! ## The queue -/

theorem queueEnd_eq {link : Option β → Option β} : ∀ {q : List β} {pp : Option β} {n : ℕ},
    Leads link pp (q.map some) none → q.length < n →
    queueEnd link n pp = some ((pp :: q.map some).getLast (List.cons_ne_nil _ _))
  | _, _, 0, _, hn => absurd hn (Nat.not_lt_zero _)
  | [], pp, n + 1, h, _ => by
    simp only [List.map_nil, Leads] at h
    simp [queueEnd, h]
  | b :: q, pp, n + 1, h, hn => by
    rw [List.map_cons, Leads] at h
    rw [queueEnd, h.1, List.map_cons, List.getLast_cons_cons]
    exact queueEnd_eq h.2 (Nat.lt_of_succ_lt_succ hn)

theorem none_not_mem (q : List β) : none ∉ q.map some := by
  simp

theorem queue_nodup {link : Option β → Option β} {q : List β}
    (h : Leads link none (q.map some) none) : q.Nodup :=
  List.Nodup.of_map some (h.nodup (none_not_mem q))

/-- The requests that are not finished. -/
def State.pending (s : State P β) : List (β × Buf) :=
  s.reqs.drop s.complete

/-- The buffers on the queue. -/
def State.queue (s : State P β) : List β :=
  s.pending.map Prod.fst

/-- Number of requests the controller has carried out. -/
def State.served (s : State P β) : ℕ :=
  match s.ctl with
  | .done _ _ => s.complete + 1
  | _ => s.complete

/-- The controller works for the first request, if there is one. -/
def Works (mem : ℕ → Block) (s : State P β) : Ctl → Prop
  | .idle => s.pending = []
  | .busy c => ∃ r rs, s.pending = r :: rs ∧ c = command r.2
  | .done c latch => ∃ r rs, s.pending = r :: rs ∧ c = command r.2 ∧
      (r.2.dirty = false → latch = after mem s.reqs s.complete r.2.blockno)

/-- A process waits for request `k`, which is for buffer `b`. -/
def Pc.waits (b : β) (k : ℕ) (pc : Pc β) : Prop :=
  pc = .asleep b k ∨ pc = .runnable b k

/-- What holds in every state of a run that starts with `mem` on the drive. -/
structure Inv (mem : ℕ → Block) (s : State P β) : Prop where
  le : s.complete ≤ s.reqs.length
  path : Leads s.link none (s.queue.map some) none
  same : ∀ r ∈ s.pending, s.buf r.1 = r.2
  ready : ∀ r ∈ s.reqs, r.2.Ready
  works : Works mem s s.ctl
  disk : s.disk 1 = after mem s.reqs s.served
  enter : ∀ p b, s.pc p = .enter b → (s.buf b).Ready
  waits : ∀ p b k, (s.pc p).waits b k → ∃ c, s.reqs[k]? = some (b, c) ∧
    (k < s.complete → s.buf b = (serve (after mem s.reqs k) c).2)
  asleep : ∀ p b k, s.pc p = .asleep b k → s.complete ≤ k
  distinct : ∀ p q b, (s.pc p).buf = some b → (s.pc q).buf = some b → p = q
  waiter : ∀ k b c, s.complete ≤ k → s.reqs[k]? = some (b, c) → ∃ p, (s.pc p).waits b k

namespace Inv

variable {mem : ℕ → Block} {s s' : State P β} {p : P} {b : β}

theorem pending_get (k : ℕ) : s.pending[k]? = s.reqs[s.complete + k]? :=
  List.getElem?_drop

theorem first {r : β × Buf} {rs : List (β × Buf)} (h : s.pending = r :: rs) :
    s.reqs[s.complete]? = some r := by
  rw [← Nat.add_zero s.complete, ← pending_get, h, List.getElem?_cons_zero]

theorem exists_waits (h : Inv mem s) (hb : b ∈ s.queue) : ∃ p k, (s.pc p).waits b k := by
  obtain ⟨⟨b, c⟩, hr, rfl⟩ := List.mem_map.1 hb
  obtain ⟨k, hk⟩ := List.getElem?_of_mem hr
  rw [pending_get] at hk
  obtain ⟨p, hp⟩ := h.waiter _ b c (Nat.le_add_right _ k) hk
  exact ⟨p, _, hp⟩

theorem buf_of_waits {pc : Pc β} {k : ℕ} (h : pc.waits b k) : pc.buf = some b := by
  obtain rfl | rfl := h <;> rfl

theorem not_mem_queue (h : Inv mem s) (hb : ∀ p, (s.pc p).buf ≠ some b) : b ∉ s.queue := by
  intro hm
  obtain ⟨p, k, hp⟩ := h.exists_waits hm
  exact hb p (buf_of_waits hp)

theorem not_mem_queue_of_enter (h : Inv mem s) (hp : s.pc p = .enter b) : b ∉ s.queue := by
  intro hm
  obtain ⟨q, k, hq⟩ := h.exists_waits hm
  obtain rfl := h.distinct p q b (by rw [hp]; rfl) (buf_of_waits hq)
  rw [hp] at hq
  obtain hq | hq := hq <;> cases hq

theorem start (h : Start s) : Inv (s.disk 1) s where
  le := by rw [h.complete]; exact Nat.zero_le _
  path := by
    have hq : s.queue = [] := by simp [State.queue, State.pending, h.reqs]
    rw [hq]
    exact h.link
  same r hr := by simp [State.pending, h.reqs] at hr
  ready r hr := by simp [h.reqs] at hr
  works := by
    rw [h.ctl]
    simp [Works, State.pending, h.reqs]
  disk := by simp [after, h.reqs]
  enter p b hp := by rw [h.pc] at hp; cases hp
  waits p b k hp := by rw [h.pc] at hp; obtain hp | hp := hp <;> cases hp
  asleep p b k hp := by rw [h.pc] at hp; cases hp
  distinct p q b hp := by rw [h.pc] at hp; cases hp
  waiter k b c _ hk := by rw [h.reqs] at hk; cases hk

/-! ### Steps outside the lock -/

theorem change (h : Inv mem s) (hb : ¬∃ p, (s.pc p).buf = some b) (c : Buf) :
    Inv mem { s with buf := update s.buf b c } := by
  have hne : ∀ p b', (s.pc p).buf = some b' → b' ≠ b := fun p b' hp e => hb ⟨p, e ▸ hp⟩
  have hq := h.not_mem_queue fun p hp => hb ⟨p, hp⟩
  refine { h with same := fun r hr => ?_, enter := fun p b' hp => ?_, waits := fun p b' k hp => ?_ }
  · have hr' : r.1 ≠ b := fun e => hq (e ▸ List.mem_map_of_mem hr)
    exact (update_of_ne hr' ..).trans (h.same r hr)
  · change (update s.buf b c b').Ready
    rw [update_of_ne (hne p b' (by rw [hp]; rfl))]
    exact h.enter p b' hp
  · obtain ⟨c', hk, hc'⟩ := h.waits p b' k hp
    refine ⟨c', hk, fun hlt => ?_⟩
    exact (update_of_ne (hne p b' (buf_of_waits hp)) ..).trans (hc' hlt)

theorem setPc (h : Inv mem s) {pc : Pc β}
    (hbuf : ∀ b, pc.buf = some b → (s.pc p).buf = some b ∨ ∀ q, (s.pc q).buf ≠ some b)
    (henter : ∀ b, pc = .enter b → (s.buf b).Ready)
    (hwaits : ∀ b k, pc.waits b k → (s.pc p).waits b k)
    (hasleep : ∀ b k, pc = .asleep b k → s.complete ≤ k)
    (hwaiter : ∀ b k, (s.pc p).waits b k → s.complete ≤ k → pc.waits b k) :
    Inv mem { s with pc := update s.pc p pc } := by
  have hcases := update_cases s.pc p pc
  refine { h with enter := ?_, waits := ?_, asleep := ?_, distinct := ?_, waiter := ?_ }
  · intro q b hq
    obtain ⟨-, he⟩ | ⟨-, he⟩ := hcases q
    · exact h.enter q b (he.symm.trans hq)
    · exact henter b (he.symm.trans hq)
  · intro q b k hq
    change Pc.waits b k (update s.pc p pc q) at hq
    obtain ⟨-, he⟩ | ⟨-, he⟩ := hcases q <;> rw [he] at hq
    · exact h.waits q b k hq
    · exact h.waits p b k (hwaits b k hq)
  · intro q b k hq
    obtain ⟨-, he⟩ | ⟨-, he⟩ := hcases q
    · exact h.asleep q b k (he.symm.trans hq)
    · exact hasleep b k (he.symm.trans hq)
  · intro q q' b hq hq'
    change (update s.pc p pc q).buf = some b at hq
    change (update s.pc p pc q').buf = some b at hq'
    obtain ⟨hne, he⟩ | ⟨rfl, he⟩ := hcases q <;> obtain ⟨hne', he'⟩ | ⟨rfl, he'⟩ := hcases q' <;>
      rw [he] at hq <;> rw [he'] at hq'
    · exact h.distinct q q' b hq hq'
    · exact (hbuf b hq').elim (h.distinct q q' b hq) fun hn => absurd hq (hn q)
    · exact (hbuf b hq).elim (h.distinct q q' b · hq') fun hn => absurd hq' (hn q')
  · intro k b c hk hc
    obtain ⟨q, hq⟩ := h.waiter k b c hk hc
    refine ⟨q, ?_⟩
    change Pc.waits b k (update s.pc p pc q)
    obtain ⟨-, he⟩ | ⟨rfl, he⟩ := hcases q <;> rw [he]
    · exact hq
    · exact hwaiter b k hq hk

theorem call (h : Inv mem s) (hp : s.pc p = .out) (hb : ¬∃ q, (s.pc q).buf = some b)
    (hready : (s.buf b).Ready) : Inv mem { s with pc := update s.pc p (.enter b) } := by
  refine h.setPc (fun b' hb' => ?_) (fun b' hb' => ?_) (fun b' k hk => ?_) nofun fun b' k hk => ?_
  · cases hb'
    exact .inr fun q hq => hb ⟨q, hq⟩
  · cases hb'
    exact hready
  · obtain hk | hk := hk <;> cases hk
  · rw [hp] at hk
    obtain hk | hk := hk <;> cases hk

theorem kill {k : ℕ} (h : Inv mem s) (hp : s.pc p = .asleep b k) :
    Inv mem { s with pc := update s.pc p (.runnable b k) } := by
  refine h.setPc (fun b' hb' => .inl ?_) nofun (fun b' k' hk => ?_) nofun fun b' k' hk _ => ?_
  · rw [hp]
    exact hb'
  · obtain hk | hk := hk <;> cases hk
    exact .inl hp
  · rw [hp] at hk
    obtain hk | hk := hk <;> cases hk
    exact .inr rfl

theorem buf_eq {k : ℕ} {c : Buf} (h : Inv mem s) (hk : s.complete ≤ k)
    (hc : s.reqs[k]? = some (b, c)) : s.buf b = c := by
  obtain ⟨j, rfl⟩ := Nat.exists_eq_add_of_le hk
  rw [← pending_get] at hc
  exact h.same (b, c) (List.mem_of_getElem? hc)

theorem mem_reqs {k : ℕ} {c : Buf} (hc : s.reqs[k]? = some (b, c)) : (b, c) ∈ s.reqs :=
  List.mem_of_getElem? hc

/-- The buffer of a process that looks at it is in order exactly when its request is
finished. -/
theorem synced_iff {k : ℕ} (h : Inv mem s) (hp : (s.pc p).waits b k) :
    (s.buf b).synced = true ↔ k < s.complete := by
  obtain ⟨c, hc, hdone⟩ := h.waits p b k hp
  have hready := h.ready _ (mem_reqs hc)
  constructor
  · intro hs
    by_contra hk
    rw [h.buf_eq (Nat.not_lt.1 hk) hc, hready.unsynced] at hs
    cases hs
  · intro hk
    rw [hdone hk, serve]
    have hb := hready.unsynced
    split_ifs with hd
    · rfl
    · simp [Buf.synced, hd]

theorem resume {k : ℕ} (h : Inv mem s) (hp : s.pc p = .runnable b k) :
    Inv mem (waitLoop s p b k) := by
  have hw : (s.pc p).waits b k := .inr hp
  have hsync := h.synced_iff hw
  unfold waitLoop
  by_cases hs : (s.buf b).synced = true
  · rw [if_pos hs]
    refine h.setPc nofun nofun (fun b' k' hk => ?_) nofun fun b' k' hk hle => ?_
    · obtain hk | hk := hk <;> cases hk
    · rw [hp] at hk
      obtain hk | hk := hk <;> cases hk
      exact absurd (hsync.1 hs) (Nat.not_lt.2 hle)
  · rw [if_neg hs]
    refine h.setPc (fun b' hb' => .inl ?_) nofun (fun b' k' hk => ?_) (fun b' k' hk => ?_)
      fun b' k' hk _ => ?_
    · rw [hp]
      exact hb'
    · obtain hk | hk := hk <;> cases hk
      exact hw
    · cases hk
      exact Nat.not_lt.1 fun hlt => hs (hsync.2 hlt)
    · rw [hp] at hk
      obtain hk | hk := hk <;> cases hk
      exact .inl rfl

/-! ### The controller -/

theorem finish {c : Cmd} (h : Inv mem s) (hc : s.ctl = .busy c) :
    Inv mem { s with disk := (perform s.disk c).1, ctl := .done c (perform s.disk c).2 } := by
  have hw := h.works
  rw [hc] at hw
  obtain ⟨r, rs, hr, rfl⟩ := hw
  have hget := first hr
  have hready := h.ready r (List.mem_of_getElem? hget)
  have hdisk : s.disk 1 = after mem s.reqs s.complete := by
    rw [h.disk, State.served, hc]
  obtain ⟨hd, hl⟩ := perform_command hready s.disk
  refine { h with works := ⟨r, rs, hr, rfl, fun hdirty => ?_⟩, disk := ?_ }
  · rw [hl hdirty, hdisk]
  · change (perform s.disk (command r.2)).1 1 = after mem s.reqs (s.complete + 1)
    rw [hd, hdisk, after_succ hget]

/-! ### Into the queue -/

theorem served_le (h : Inv mem s) : s.served ≤ s.reqs.length := by
  have hw := h.works
  have hle := h.le
  unfold State.served
  cases hc : s.ctl with
  | done c latch =>
    rw [hc] at hw
    obtain ⟨r, rs, hr, -⟩ := hw
    have := List.getElem?_eq_some_iff.1 (first hr)
    exact this.1
  | _ => exact hle

theorem append_path (h : Inv mem s) (hb : b ∉ s.queue) :
    ∃ pp, queueEnd (update s.link (some b) none) (Fintype.card β + 1) none = some pp ∧
      Leads (update (update s.link (some b) none) pp (some b)) none
        ((s.queue ++ [b]).map some) none := by
  have hb' : some b ∉ none :: s.queue.map some := by simpa using hb
  have hcongr : Leads (update s.link (some b) none) none (s.queue.map some) none := by
    refine h.path.congr fun x hx => update_of_ne ?_ ..
    rintro rfl
    exact hb' hx
  have hlen : s.queue.length < Fintype.card β + 1 :=
    Nat.lt_succ_of_le (queue_nodup h.path).length_le_card
  have hnd : (none :: s.queue.map some).Nodup :=
    List.nodup_cons.2 ⟨none_not_mem _, h.path.nodup (none_not_mem _)⟩
  refine ⟨_, queueEnd_eq hcongr hlen, ?_⟩
  rw [List.map_append, List.map_singleton]
  exact h.path.snoc hnd hb'

/-- The request of `p` was put in the queue, and the controller was started if it had
nothing to do. -/
structure Enqueued (s : State P β) (p : P) (b : β) (s' : State P β) : Prop where
  buf : s'.buf = s.buf
  path : Leads s'.link none ((s.queue ++ [b]).map some) none
  reqs : s'.reqs = s.reqs ++ [(b, s.buf b)]
  complete : s'.complete = s.complete
  disk : s'.disk = s.disk
  ctl : s'.ctl = if s.pending = [] then .busy (command (s.buf b)) else s.ctl
  pc : s'.pc = update s.pc p (.asleep b s.reqs.length)

theorem ctl_eq_idle (h : Inv mem s) (hq : s.pending = []) : s.ctl = .idle := by
  have hw := h.works
  cases hc : s.ctl with
  | idle => rfl
  | busy | done =>
    rw [hc] at hw
    obtain ⟨r, rs, hr, -⟩ := hw
    rw [hq] at hr
    cases hr

theorem exists_enqueued (h : Inv mem s) (hp : s.pc p = .enter b) :
    ∃ s', enqueue s p b = some s' ∧ Enqueued s p b s' := by
  have hready := h.enter p b hp
  have hnq := h.not_mem_queue_of_enter hp
  obtain ⟨pp, hpp, hpath⟩ := h.append_path hnq
  have hhead := hpath.next_head
  simp only [enqueue, hpp, bind_eq_bind, bind_some, pure_def]
  by_cases hq : s.pending = []
  · have hb : update (update s.link (some b) none) pp (some b) none = some b := by
      rw [hhead, State.queue, hq]
      rfl
    rw [if_pos hb]
    simp only [idestart, if_neg (Nat.not_le.2 hready.blockno), h.ctl_eq_idle hq, bind_some]
    refine ⟨_, rfl, rfl, hpath, rfl, rfl, rfl, (if_pos hq).symm, ?_⟩
    simp [waitLoop, hready.unsynced]
  · have hne : update (update s.link (some b) none) pp (some b) none ≠ some b := by
      obtain ⟨r, rs, hr⟩ := List.exists_cons_of_ne_nil hq
      rw [hhead, State.queue, hr]
      rintro ⟨⟩
      exact hnq (by simp [State.queue, hr])
    rw [if_neg hne]
    refine ⟨_, rfl, rfl, hpath, rfl, rfl, rfl, (if_neg hq).symm, ?_⟩
    simp [waitLoop, hready.unsynced]

theorem pending_enqueued (h : Inv mem s) (he : Enqueued s p b s') :
    s'.pending = s.pending ++ [(b, s.buf b)] := by
  rw [State.pending, he.reqs, he.complete, List.drop_append_of_le_length h.le, State.pending]

theorem works_enqueued (h : Inv mem s) (he : Enqueued s p b s') : Works mem s' s'.ctl := by
  have hpend := h.pending_enqueued he
  rw [he.ctl]
  split_ifs with hq
  · exact ⟨_, [], by rw [hpend, hq]; rfl, rfl⟩
  · have hw := h.works
    cases hc : s.ctl with
    | idle => rw [hc] at hw; exact absurd hw hq
    | busy c =>
      rw [hc] at hw
      obtain ⟨r, rs, hr, rfl⟩ := hw
      exact ⟨r, rs ++ [(b, s.buf b)], by rw [hpend, hr]; rfl, rfl⟩
    | done c latch =>
      rw [hc] at hw
      obtain ⟨r, rs, hr, rfl, hl⟩ := hw
      refine ⟨r, rs ++ [(b, s.buf b)], by rw [hpend, hr]; rfl, rfl, fun hd => ?_⟩
      rw [he.reqs, he.complete, after_append h.le]
      exact hl hd

theorem served_enqueued (h : Inv mem s) (he : Enqueued s p b s') : s'.served = s.served := by
  unfold State.served
  rw [he.ctl, he.complete]
  split_ifs with hq
  · rw [h.ctl_eq_idle hq]
  · rfl

theorem enqueued (h : Inv mem s) (hp : s.pc p = .enter b) (he : Enqueued s p b s') :
    Inv mem s' := by
  have hready := h.enter p b hp
  have hle := h.le
  have hpend := h.pending_enqueued he
  have hcases := update_cases s.pc p (.asleep b s.reqs.length)
  rw [← he.pc] at hcases
  have hget : ∀ {k : ℕ} {x : β × Buf}, s.reqs[k]? = some x → s'.reqs[k]? = some x := by
    intro k x hx
    rw [he.reqs, List.getElem?_append_left (List.getElem?_eq_some_iff.1 hx).1]
    exact hx
  constructor
  case le =>
    rw [he.complete, he.reqs, List.length_append]
    exact Nat.le_add_right_of_le hle
  case path =>
    rw [State.queue, hpend, List.map_append]
    exact he.path
  case same =>
    intro r hr
    rw [hpend, List.mem_append, List.mem_singleton] at hr
    rw [he.buf]
    obtain hr | rfl := hr
    · exact h.same r hr
    · rfl
  case ready =>
    intro r hr
    rw [he.reqs, List.mem_append, List.mem_singleton] at hr
    obtain hr | rfl := hr
    · exact h.ready r hr
    · exact hready
  case works => exact h.works_enqueued he
  case disk =>
    rw [he.disk, he.reqs, h.served_enqueued he, after_append h.served_le]
    exact h.disk
  case enter =>
    intro q b' hq
    rw [he.buf]
    obtain ⟨-, e⟩ | ⟨-, e⟩ := hcases q
    · exact h.enter q b' (e.symm.trans hq)
    · cases e.symm.trans hq
  case waits =>
    intro q b' k hq
    rw [he.buf, he.reqs, he.complete]
    obtain ⟨-, e⟩ | ⟨-, e⟩ := hcases q <;> rw [e] at hq
    · obtain ⟨c, hc, hdone⟩ := h.waits q b' k hq
      rw [← he.reqs]
      refine ⟨c, hget hc, fun hk => ?_⟩
      rw [he.reqs, after_append (Nat.le_trans (Nat.le_of_lt hk) hle)]
      exact hdone hk
    · obtain hq | hq := hq <;> cases hq
      exact ⟨_, List.getElem?_concat_length, fun hk => absurd hk (Nat.not_lt.2 hle)⟩
  case asleep =>
    intro q b' k hq
    rw [he.complete]
    obtain ⟨-, e⟩ | ⟨-, e⟩ := hcases q
    · exact h.asleep q b' k (e.symm.trans hq)
    · cases e.symm.trans hq
      exact hle
  case distinct =>
    have hbuf : ∀ q, (s'.pc q).buf = (s.pc q).buf := by
      intro q
      obtain ⟨-, e⟩ | ⟨rfl, e⟩ := hcases q <;> rw [e]
      rw [hp]
      rfl
    intro q q' b' hq hq'
    rw [hbuf] at hq hq'
    exact h.distinct q q' b' hq hq'
  case waiter =>
    intro k b' c hk hc
    rw [he.complete] at hk
    rw [he.reqs, List.getElem?_append] at hc
    split_ifs at hc with hlt
    · obtain ⟨q, hq⟩ := h.waiter k b' c hk hc
      refine ⟨q, ?_⟩
      obtain ⟨-, e⟩ | ⟨rfl, -⟩ := hcases q
      · rw [e]
        exact hq
      · rw [hp] at hq
        obtain hq | hq := hq <;> cases hq
    · obtain ⟨hk0, hx⟩ := List.getElem?_eq_some_iff.1 hc
      have hk' : k = s.reqs.length := by
        rw [List.length_singleton] at hk0
        omega
      subst hk'
      simp only [Nat.sub_self, List.getElem_cons_zero] at hx
      cases hx
      exact ⟨p, .inl (by rw [he.pc, update_self])⟩

/-! ### Out of the queue -/

/-- The first request was finished, and the controller was started for the next one. -/
structure Completed (s : State P β) (mem : ℕ → Block) (r : β × Buf) (rs : List (β × Buf))
    (s' : State P β) : Prop where
  buf : s'.buf = update s.buf r.1 (serve mem r.2).2
  path : Leads s'.link none ((rs.map Prod.fst).map some) none
  reqs : s'.reqs = s.reqs
  complete : s'.complete = s.complete + 1
  disk : s'.disk = s.disk
  ctl : s'.ctl = match rs with | [] => .idle | r' :: _ => .busy (command r'.2)
  pc : s'.pc = (wakeup s r.1).pc

theorem pending_completed {r : β × Buf} {rs : List (β × Buf)} (hr : s.pending = r :: rs)
    (he : Completed s mem r rs s') : s'.pending = rs := by
  rw [State.pending, he.reqs, he.complete, ← List.drop_drop, ← State.pending, hr]
  rfl

theorem handled_buf {m : ℕ → Block} {b : Buf} {latch : Block}
    (hl : b.dirty = false → latch = m b.blockno) :
    { (if b.dirty then b else { b with data := latch }) with valid := true, dirty := false } =
      (serve m b).2 := by
  unfold serve
  cases hd : b.dirty with
  | true => rfl
  | false => simp [hl hd]

/-- The handler finishes the first request. -/
theorem exists_completed {c : Cmd} {latch : Block} (h : Inv mem s) (hc : s.ctl = .done c latch) :
    ∃ r rs s', s.pending = r :: rs ∧ ideintr s latch = some s' ∧
      Completed s (after mem s.reqs s.complete) r rs s' := by
  have hw := h.works
  rw [hc] at hw
  obtain ⟨r, rs, hr, -, hl⟩ := hw
  have hpath := h.path
  rw [State.queue, hr, List.map_cons, List.map_cons] at hpath
  have hnd : (none :: (some r.1 :: (rs.map Prod.fst).map some)).Nodup :=
    List.nodup_cons.2 ⟨by simp, hpath.nodup (by simp)⟩
  have hunlink : Leads (update s.link none (s.link (some r.1))) none ((rs.map Prod.fst).map some)
      none := hpath.unlink (l := []) hnd
  have hsame := h.same r (by rw [hr]; exact List.mem_cons_self)
  have hbuf := handled_buf hl
  have hnext := hunlink.next_head
  refine ⟨r, rs, ?_⟩
  simp only [ideintr, hpath.1, hsame, hbuf, wakeup]
  cases rs with
  | nil =>
    rw [show update s.link none (s.link (some r.1)) none = none from hnext]
    exact ⟨_, hr, rfl, rfl, hunlink, rfl, rfl, rfl, rfl, rfl⟩
  | cons r' rs =>
    have hne : r'.1 ≠ r.1 := by
      intro e
      simp [e] at hnd
    have hmem : r' ∈ s.pending := by simp [hr]
    have hready := h.ready r' (List.mem_of_mem_drop hmem)
    have hsame' : update s.buf r.1 (serve (after mem s.reqs s.complete) r.2).2 r'.1 = r'.2 := by
      rw [update_of_ne hne]
      exact h.same r' hmem
    rw [show update s.link none (s.link (some r.1)) none = some r'.1 from hnext]
    simp only [idestart, hsame', if_neg (Nat.not_le.2 hready.blockno)]
    exact ⟨_, hr, rfl, rfl, hunlink, rfl, rfl, rfl, rfl, rfl⟩

theorem wakeup_cases (s : State P β) (b : β) (q : P) :
    (∃ k, s.pc q = .asleep b k ∧ (wakeup s b).pc q = .runnable b k) ∨
      (∀ k, s.pc q ≠ .asleep b k) ∧ (wakeup s b).pc q = s.pc q := by
  unfold wakeup
  cases hq : s.pc q with
  | asleep c k =>
    by_cases hcb : c = b
    · subst hcb
      exact .inl ⟨k, rfl, by simp [hq]⟩
    · refine .inr ⟨fun k' e => ?_, by simp [hq, hcb]⟩
      cases e
      exact hcb rfl
  | _ => exact .inr ⟨nofun, by simp [hq]⟩

theorem wakeup_waits {c : β} {k : ℕ} {q : P} :
    ((wakeup s b).pc q).waits c k ↔ (s.pc q).waits c k := by
  obtain ⟨k', hq, e⟩ | ⟨-, e⟩ := wakeup_cases s b q
  · rw [e, hq, Pc.waits, Pc.waits]
    simp
  · rw [e]

theorem wakeup_buf (q : P) : ((wakeup s b).pc q).buf = (s.pc q).buf := by
  obtain ⟨k', hq, e⟩ | ⟨-, e⟩ := wakeup_cases s b q
  · rw [e, hq]
    rfl
  · rw [e]

theorem fst_ne {r : β × Buf} {rs : List (β × Buf)} (h : Inv mem s) (hr : s.pending = r :: rs)
    {x : β × Buf} (hx : x ∈ rs) : x.1 ≠ r.1 := by
  have hnd := queue_nodup h.path
  rw [State.queue, hr, List.map_cons] at hnd
  exact fun e => (List.nodup_cons.1 hnd).1 (e ▸ List.mem_map_of_mem hx)

theorem completed {r : β × Buf} {rs : List (β × Buf)} {c : Cmd} {latch : Block} (h : Inv mem s)
    (hc : s.ctl = .done c latch) (hr : s.pending = r :: rs)
    (he : Completed s (after mem s.reqs s.complete) r rs s') : Inv mem s' := by
  have hpend := pending_completed hr he
  have hget := first hr
  have hlt := (List.getElem?_eq_some_iff.1 hget).1
  constructor
  case le =>
    rw [he.complete, he.reqs]
    exact hlt
  case path =>
    rw [State.queue, hpend]
    exact he.path
  case same =>
    intro x hx
    rw [hpend] at hx
    rw [he.buf, update_of_ne (h.fst_ne hr hx)]
    exact h.same x (by rw [hr]; exact List.mem_cons_of_mem r hx)
  case ready => rw [he.reqs]; exact h.ready
  case works =>
    rw [he.ctl]
    cases rs with
    | nil => exact hpend
    | cons r' rs => exact ⟨r', rs, hpend, rfl⟩
  case disk =>
    have hserved : s'.served = s.served := by
      simp only [State.served, he.ctl, hc, he.complete]
      cases rs <;> rfl
    rw [he.disk, he.reqs, hserved]
    exact h.disk
  case enter =>
    intro q b hq
    have hq' : s.pc q = .enter b := by
      rw [he.pc] at hq
      obtain ⟨k, -, e⟩ | ⟨-, e⟩ := wakeup_cases s r.1 q
      · cases e.symm.trans hq
      · exact e.symm.trans hq
    have hne : b ≠ r.1 := fun e =>
      h.not_mem_queue_of_enter hq' (by simp [State.queue, hr, e])
    rw [he.buf, update_of_ne hne]
    exact h.enter q b hq'
  case waits =>
    intro q b k hq
    rw [he.pc, wakeup_waits] at hq
    obtain ⟨c, hk, hdone⟩ := h.waits q b k hq
    rw [he.reqs, he.complete]
    refine ⟨c, hk, fun hlt' => ?_⟩
    obtain hk' | rfl := Nat.lt_succ_iff_lt_or_eq.1 hlt'
    · -- the buffer is not the one that was finished, whose process waits for another request
      have hne : b ≠ r.1 := by
        rintro rfl
        obtain ⟨q', hq'⟩ := h.waiter s.complete r.1 r.2 le_rfl hget
        obtain rfl := h.distinct q q' _ (buf_of_waits hq) (buf_of_waits hq')
        obtain hq | hq := hq <;> obtain hq' | hq' := hq' <;> rw [hq] at hq' <;> cases hq' <;>
          exact absurd hk' (Nat.lt_irrefl _)
      rw [he.buf, update_of_ne hne]
      exact hdone hk'
    · rw [hget] at hk
      cases hk
      rw [he.buf, update_self]
  case asleep =>
    intro q b k hq
    rw [he.pc] at hq
    rw [he.complete]
    obtain ⟨k', -, e⟩ | ⟨hne, e⟩ := wakeup_cases s r.1 q
    · cases e.symm.trans hq
    · have hq' := e.symm.trans hq
      refine Nat.lt_of_le_of_ne (h.asleep q b k hq') ?_
      rintro rfl
      obtain ⟨c, hk, -⟩ := h.waits q b _ (.inl hq')
      rw [hget] at hk
      cases hk
      exact hne _ hq'
  case distinct =>
    intro q q' b hq hq'
    rw [he.pc, wakeup_buf] at hq hq'
    exact h.distinct q q' b hq hq'
  case waiter =>
    intro k b c hk hx
    rw [he.complete] at hk
    rw [he.reqs] at hx
    obtain ⟨q, hq⟩ := h.waiter k b c (Nat.le_of_succ_le hk) hx
    exact ⟨q, by rw [he.pc, wakeup_waits]; exact hq⟩

/-! ### Runs -/

/-- What a step does, one case for each label. -/
theorem step_cases (h : Inv mem s) {l : Label P β} (hs : Ide.step s l = some s') :
    (∃ b c, l = .change b c ∧ (¬∃ p, (s.pc p).buf = some b) ∧
      s' = { s with buf := update s.buf b c }) ∨
    (∃ p b, l = .call p b ∧ s.pc p = .out ∧ (¬∃ q, (s.pc q).buf = some b) ∧
      (s.buf b).busy = true ∧ (s.buf b).synced = false ∧
      s' = { s with pc := update s.pc p (.enter b) }) ∨
    (∃ p b, l = .enqueue p ∧ s.pc p = .enter b ∧ Enqueued s p b s') ∨
    (∃ c, l = .finish ∧ s.ctl = .busy c ∧
      s' = { s with disk := (perform s.disk c).1, ctl := .done c (perform s.disk c).2 }) ∨
    (∃ c latch r rs, l = .intr ∧ s.ctl = .done c latch ∧ s.pending = r :: rs ∧
      Completed s (after mem s.reqs s.complete) r rs s') ∨
    (∃ p b k, l = .kill p ∧ s.pc p = .asleep b k ∧
      s' = { s with pc := update s.pc p (.runnable b k) }) ∨
    ∃ p b k, l = .resume p ∧ s.pc p = .runnable b k ∧ s' = waitLoop s p b k := by
  cases l <;> simp only [Ide.step] at hs
  case change b c =>
    split_ifs at hs with hb
    cases hs
    exact .inl ⟨b, c, rfl, hb, rfl⟩
  case call p b =>
    split_ifs at hs with h1 h2 h3 h4
    cases hs
    rw [not_or, not_not] at h1
    exact .inr (.inl ⟨p, b, rfl, h1.1, h1.2, by simpa using h2, by simpa using h3, rfl⟩)
  case enqueue p =>
    split at hs
    · rename_i b hp
      obtain ⟨s1, h1, he⟩ := h.exists_enqueued hp
      cases h1.symm.trans hs
      exact .inr (.inr (.inl ⟨p, b, rfl, hp, he⟩))
    · cases hs
  case finish =>
    split at hs
    · rename_i c hc
      cases hs
      exact .inr (.inr (.inr (.inl ⟨c, rfl, hc, rfl⟩)))
    · cases hs
  case intr =>
    split at hs
    · rename_i c latch hc
      obtain ⟨r, rs, s1, hr, h1, he⟩ := h.exists_completed hc
      cases h1.symm.trans hs
      exact .inr (.inr (.inr (.inr (.inl ⟨c, latch, r, rs, rfl, hc, hr, he⟩))))
    · cases hs
  case kill p =>
    split at hs
    · rename_i b k hp
      cases hs
      exact .inr (.inr (.inr (.inr (.inr (.inl ⟨p, b, k, rfl, hp, rfl⟩)))))
    · cases hs
  case resume p =>
    split at hs
    · rename_i b k hp
      cases hs
      exact .inr (.inr (.inr (.inr (.inr (.inr ⟨p, b, k, rfl, hp, rfl⟩)))))
    · cases hs

/-- Every step keeps the invariant. -/
theorem step (h : Inv mem s) {l : Label P β} (hl : Served s l) (hs : Ide.step s l = some s') :
    Inv mem s' := by
  obtain ⟨b, c, rfl, hb, rfl⟩ | ⟨p, b, rfl, hp, hb, hbusy, hsync, rfl⟩ | ⟨p, b, rfl, hp, he⟩ |
    ⟨c, rfl, hc, rfl⟩ | ⟨c, latch, r, rs, rfl, hc, hr, he⟩ | ⟨p, b, k, rfl, hp, rfl⟩ |
    ⟨p, b, k, rfl, hp, rfl⟩ := h.step_cases hs
  · exact h.change hb c
  · exact h.call hp hb ⟨hbusy, hsync, hl.1, hl.2⟩
  · exact h.enqueued hp he
  · exact h.finish hc
  · exact h.completed hc hr he
  · exact h.kill hp
  · exact h.resume hp

end Inv

/-- What a state of a run says of the driver, where `mem` was on the drive at the start. -/
structure Refines (mem : ℕ → Block) (s : State P β) : Prop where
  /-- The links of `idequeue` are the requests that are not finished, in their order. -/
  path : Leads s.link none (s.queue.map some) none
  nodup : s.queue.Nodup
  /-- The controller is idle when the queue is empty. -/
  idle : s.ctl = .idle → s.queue = []
  /-- The command the controller executes is that for the head of the queue. -/
  busy : ∀ c, s.ctl = .busy c → ∃ b q, s.queue = b :: q ∧ c = command (s.buf b)
  /-- So is the command it has finished, before the handler runs. -/
  done : ∀ c latch, s.ctl = .done c latch → ∃ b q, s.queue = b :: q ∧ c = command (s.buf b)
  /-- The handler runs when it is called, and finishes the request at the head. -/
  fifo : ∀ c latch, s.ctl = .done c latch → ∃ s' b, step s .intr = some s' ∧
    s.queue = b :: s'.queue ∧ s'.reqs = s.reqs ∧ (s'.buf b).synced = true
  /-- A process that has the lock can put its request at the end, and then sleeps. -/
  enqueue : ∀ p b, s.pc p = .enter b → ∃ s', step s (.enqueue p) = some s' ∧
    s'.queue = s.queue ++ [b] ∧ s'.reqs = s.reqs ++ [(b, s.buf b)] ∧
    s'.pc p = .asleep b s.reqs.length
  /-- The drive is what `memide.c` makes of the requests the controller has carried out. -/
  disk : memidedisk FSSIZE mem ((s.reqs.take s.served).map Prod.snd) = some (s.disk 1)
  /-- When `iderw` returns, the buffer is valid and clean, and it is what `memide.c` makes of
  the request after the requests before it. -/
  returns : ∀ p s', step s (.resume p) = some s' → s'.pc p = .out →
    ∃ b k c m m', s.pc p = .runnable b k ∧ k < s.complete ∧ s.reqs[k]? = some (b, c) ∧
      (s'.buf b).valid = true ∧ (s'.buf b).dirty = false ∧
      memidedisk FSSIZE mem ((s.reqs.take k).map Prod.snd) = some m ∧
      memiderw FSSIZE m c = some (m', s'.buf b)

section

variable {mem : ℕ → Block} {s : State P β}

theorem Inv.head (h : Inv mem s) {c : Cmd} {r : β × Buf} {rs : List (β × Buf)}
    (hr : s.pending = r :: rs) (hc : c = command r.2) :
    ∃ b q, s.queue = b :: q ∧ c = command (s.buf b) := by
  refine ⟨r.1, rs.map Prod.fst, by rw [State.queue, hr]; rfl, ?_⟩
  rw [hc, h.same r (by rw [hr]; exact List.mem_cons_self)]

theorem Inv.refines (h : Inv mem s) : Refines mem s where
  path := h.path
  nodup := queue_nodup h.path
  idle hc := by
    have hw := h.works
    rw [hc] at hw
    rw [State.queue, hw]
    rfl
  busy c hc := by
    have hw := h.works
    rw [hc] at hw
    obtain ⟨r, rs, hr, hcmd⟩ := hw
    exact h.head hr hcmd
  done c latch hc := by
    have hw := h.works
    rw [hc] at hw
    obtain ⟨r, rs, hr, hcmd, -⟩ := hw
    exact h.head hr hcmd
  fifo c latch hc := by
    obtain ⟨r, rs, s', hr, hs, he⟩ := h.exists_completed hc
    refine ⟨s', r.1, by simp only [Ide.step, hc]; exact hs, ?_, he.reqs, ?_⟩
    · rw [State.queue, State.queue, hr, Inv.pending_completed hr he]
      rfl
    · have hready := h.ready r (List.mem_of_getElem? (Inv.first hr))
      rw [he.buf, update_self, serve]
      split_ifs with hd
      · rfl
      · simp [Buf.synced, hd]
  enqueue p b hp := by
    obtain ⟨s', hs, he⟩ := h.exists_enqueued hp
    refine ⟨s', by simp only [Ide.step, hp]; exact hs, ?_, he.reqs, by rw [he.pc, update_self]⟩
    rw [State.queue, h.pending_enqueued he, List.map_append]
    rfl
  disk := by
    rw [memidedisk_take h.ready, h.disk]
  returns p s' hs hout := by
    simp only [Ide.step] at hs
    split at hs
    · rename_i b k hp
      cases hs
      have hw : (s.pc p).waits b k := .inr hp
      have hsync : (s.buf b).synced = true := by
        by_contra hn
        simp [waitLoop, hn] at hout
      have hk := (h.synced_iff hw).1 hsync
      obtain ⟨c, hc, hdone⟩ := h.waits p b k hw
      have hbuf : (waitLoop s p b k).buf b = s.buf b := rfl
      simp only [Buf.synced, Bool.and_eq_true, Bool.not_eq_true'] at hsync
      refine ⟨b, k, c, after mem s.reqs k, (serve (after mem s.reqs k) c).1, hp, hk, hc, hsync.1,
        hsync.2, memidedisk_take h.ready mem k, ?_⟩
      rw [memiderw_of_ready (h.ready _ (Inv.mem_reqs hc)), hbuf, hdone hk]
    · cases hs

end

/-- The queued driver serves requests as `memide.c` does, in the order in which they were put
in the queue. -/
theorem iderw_refines_memide {s0 s : State P β} {ls : List (Label P β)} (h0 : Start s0)
    (hC : Along step Served s0 ls) (hr : run step s0 ls = some s) : Refines (s0.disk 1) s :=
  (run_invariant (I := Inv (s0.disk 1)) (fun _ _ _ h hl hs => h.step hl hs) (Inv.start h0) hC
    hr).refines

/-- A write and a read of block 5. -/
def twoRequests : State (Fin 2) (Fin 2) where
  buf := ![⟨true, true, true, 1, 5, fun _ => 7⟩, ⟨true, false, false, 1, 5, zeroBlock⟩]
  link := fun _ => none
  havedisk1 := true
  ctl := .idle
  disk := fun _ _ => zeroBlock
  pc := fun _ => .out
  reqs := []
  complete := 0

instance (s : State P β) : ∀ l : Label P β, Decidable (Served s l)
  | .call _ _ => inferInstanceAs (Decidable (_ ∧ _))
  | .change _ _ | .enqueue _ | .finish | .intr | .kill _ | .resume _ => .isTrue trivial

/-- Both requests are served. -/
theorem iderw_refines_memide_two :
    ∃ s, run step twoRequests [.call 0 0, .call 1 1, .enqueue 0, .enqueue 1, .finish, .intr,
        .resume 0, .finish, .intr, .resume 1] = some s ∧
      s.pc 1 = .out ∧ Refines (twoRequests.disk 1) s := by
  have hrun : ((run step twoRequests [.call 0 0, .call 1 1, .enqueue 0, .enqueue 1, .finish, .intr,
      .resume 0, .finish, .intr, .resume 1]).any fun s => s.pc 1 = .out) = true := by decide
  obtain ⟨s, hs, hpc⟩ := (any_eq_true _ _).1 hrun
  exact ⟨s, hs, by simpa using hpc,
    iderw_refines_memide ⟨rfl, rfl, fun _ => rfl, rfl, rfl⟩ (by decide) hs⟩

end Xv6.Ide
