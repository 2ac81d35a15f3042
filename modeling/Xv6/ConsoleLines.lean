import Xv6.Console

/-!
# Lines of console input

The buffer holds the bytes that are committed and not yet taken (`Input.ready`), and behind them
the line that is being typed. `consoleintr` erases and commits in that line alone (`Erased`,
`intrChar_spec`), and `consoleread` takes bytes off the front (`readLoop_spec`). So the bytes taken
and those ready make up the bytes committed, in every state (`Inv.history`), and each call has
taken what it returns, and the `^D` it may have consumed (`Returned`). A call that is killed has
lost the bytes it took (`killed_loses`).
-/

open Transition List

namespace Xv6.Console

open RingBuffer (cell)

/-! ## The buffer -/

namespace Input

variable {i j : Input}

/-- Number of bytes committed and not taken. -/
def nready (i : Input) : ℕ :=
  (i.w - i.nread).toNat

/-- The bytes committed and not taken. -/
def ready (i : Input) : List UInt8 :=
  i.content.take i.nready

/-- The write index is between the read index and the edit index, which are not further apart than
the buffer is long. -/
structure Ok (i : Input) : Prop where
  le : i.nready ≤ i.length
  max : i.length ≤ INPUT_BUF

theorem nready_eq_length_iff (i : Input) : i.nready = i.length ↔ i.nwrite = i.w := by
  unfold nready RingBuffer.length
  rw [← UInt32.toNat_inj, UInt32.toNat_sub, UInt32.toNat_sub]
  have := i.nread.toNat_lt
  have := i.nwrite.toNat_lt
  have := i.w.toNat_lt
  omega

theorem nready_eq_zero_iff (i : Input) : i.nready = 0 ↔ i.nread = i.w := by
  unfold nready
  rw [← UInt32.toNat_inj, UInt32.toNat_sub]
  have := i.nread.toNat_lt
  have := i.w.toNat_lt
  omega

theorem line_eq (h : i.Ok) : i.line = i.content.drop i.nready := by
  have hlen : (i.nwrite - i.w).toNat = i.length - i.nready := by
    have hle := h.le
    have hmax := h.max
    unfold nready RingBuffer.length at *
    rw [UInt32.toNat_sub, UInt32.toNat_sub] at *
    rw [UInt32.toNat_sub]
    have := i.nread.toNat_lt
    have := i.nwrite.toNat_lt
    have := i.w.toNat_lt
    simp only [INPUT_BUF] at *
    omega
  refine ext_getElem (by simp [line, hlen]) fun k _ _ => ?_
  simp only [line, RingBuffer.content, getElem_map, getElem_range, getElem_drop]
  refine congrArg i.data (RingBuffer.cell_eq (by decide) ?_)
  unfold nready
  rw [UInt32.toNat_sub]
  have := i.nread.toNat_lt
  omega

/-- Bytes of the line were taken back. -/
structure Erased (i j : Input) : Prop where
  nread : j.nread = i.nread
  w : j.w = i.w
  data : j.data = i.data
  ready_le : i.nready ≤ j.length
  le : j.length ≤ i.length

theorem Erased.refl (h : i.Ok) : Erased i i :=
  ⟨rfl, rfl, rfl, h.le, le_rfl⟩

theorem Erased.nready_eq (h : Erased i j) : j.nready = i.nready := by
  rw [nready, nready, h.w, h.nread]

theorem Erased.content_eq (h : Erased i j) : j.content = i.content.take j.length := by
  unfold RingBuffer.content
  rw [h.nread, h.data, ← map_take, take_range, Nat.min_eq_left h.le]

theorem Erased.ok (h : Erased i j) (hi : i.Ok) : j.Ok :=
  ⟨h.nready_eq ▸ h.ready_le, h.le.trans hi.max⟩

theorem Erased.ready_eq (h : Erased i j) : j.ready = i.ready := by
  rw [ready, ready, h.content_eq, h.nready_eq, take_take, Nat.min_eq_left h.ready_le]

theorem Erased.unpush (h : i.Ok) (hne : i.nwrite ≠ i.w) :
    Erased i { i with toRingBuffer := i.toRingBuffer.unpush } := by
  have hlt : i.nready ≠ i.length := mt i.nready_eq_length_iff.1 hne
  have hle := h.le
  have hlen := RingBuffer.length_unpush i.toRingBuffer (by omega)
  exact ⟨rfl, rfl, rfl, by dsimp only; omega, by dsimp only; omega⟩

theorem Erased.trans {k : Input} (h : Erased i j) (h' : Erased j k) : Erased i k :=
  ⟨h'.nread.trans h.nread, h'.w.trans h.w, h'.data.trans h.data, h.nready_eq ▸ h'.ready_le,
    h'.le.trans h.le⟩

theorem killLine_erased (fuel : ℕ) : ∀ {i : Input}, i.Ok → Erased i (killLine fuel i) := by
  induction fuel with
  | zero => exact fun h => Erased.refl h
  | succ fuel ih =>
    intro i h
    unfold killLine
    split_ifs with hc
    · have he := Erased.unpush h hc.1
      exact he.trans (ih (he.ok h))
    · exact Erased.refl h

end Input

open Input

variable {i : Input} {c : UInt8}

theorem intrChar_erased (h : i.Ok) (hc : c = ctrl 'U' ∨ c = ctrl 'H' ∨ c = 127) :
    Erased i (intrChar i c).1 ∧ (intrChar i c).2 = [] := by
  have hP : c ≠ ctrl 'P' := by
    rcases hc with rfl | rfl | rfl <;> decide
  unfold intrChar
  rw [if_neg hP]
  split_ifs with hU hH hne
  · exact ⟨killLine_erased _ h, rfl⟩
  · exact ⟨Erased.unpush h hne, rfl⟩
  · exact ⟨Erased.refl h, rfl⟩
  all_goals exact absurd hc (by tauto)

theorem push_spec (h : i.Ok) (hlt : i.length < INPUT_BUF) (c : UInt8) :
    ∀ k, k = { i with toRingBuffer := i.toRingBuffer.push c } →
      k.Ok ∧ k.ready = i.ready ∧ ({ k with w := k.nwrite } : Input).Ok ∧
        ({ k with w := k.nwrite } : Input).ready = i.ready ++ k.line := by
  rintro k rfl
  have hle := h.le
  have hlen := RingBuffer.length_push i.toRingBuffer c (by simp only [INPUT_BUF] at *; omega)
  have hcontent := RingBuffer.content_push (by decide) i.toRingBuffer c hlt (by decide)
  have hok : ({ i with toRingBuffer := i.toRingBuffer.push c } : Input).Ok := by
    refine ⟨?_, ?_⟩
    · show i.nready ≤ (i.toRingBuffer.push c).length
      omega
    · show (i.toRingBuffer.push c).length ≤ INPUT_BUF
      omega
  have hready : ({ i with toRingBuffer := i.toRingBuffer.push c } : Input).ready = i.ready := by
    show (i.toRingBuffer.push c).content.take i.nready = i.content.take i.nready
    rw [hcontent, take_append_of_le_length (by rw [RingBuffer.length_content]; exact hle)]
  refine ⟨hok, hready, ⟨le_rfl, hok.max⟩, ?_⟩
  rw [line_eq hok, ← hready]
  show (i.toRingBuffer.push c).content.take (i.toRingBuffer.push c).length = _
  rw [take_of_length_le (RingBuffer.length_content _).le]
  exact (take_append_drop _ _).symm

theorem intrChar_spec (h : i.Ok) (c : UInt8) :
    (intrChar i c).1.Ok ∧ (intrChar i c).1.ready = i.ready ++ (intrChar i c).2 := by
  by_cases hc : c = ctrl 'U' ∨ c = ctrl 'H' ∨ c = 127
  · obtain ⟨he, hnil⟩ := intrChar_erased h hc
    rw [hnil, append_nil]
    exact ⟨he.ok h, he.ready_eq⟩
  · push Not at hc
    unfold intrChar
    rw [if_neg hc.1, if_neg (by tauto : ¬ (c = ctrl 'H' ∨ c = 127))]
    by_cases hP : c = ctrl 'P'
    · rw [if_pos hP, append_nil]
      exact ⟨h, rfl⟩
    rw [if_neg hP]
    by_cases hput : c ≠ 0 ∧ i.nwrite - i.nread < UInt32.ofNat INPUT_BUF
    · rw [if_pos hput]
      have hlt : i.length < INPUT_BUF := UInt32.lt_iff_toNat_lt.1 hput.2
      dsimp only
      generalize (if c = 13 then newline else c) = c'
      obtain ⟨hok, hready, hok', hready'⟩ := push_spec h hlt c' _ rfl
      split_ifs
      · exact ⟨hok', hready'⟩
      · exact ⟨hok, hready.trans (append_nil _).symm⟩
    · rw [if_neg hput, append_nil]
      exact ⟨h, rfl⟩

/-- `consoleintr` adds to the lines that are ready. -/
theorem consoleintr_spec (cs : List UInt8) : ∀ {i : Input}, i.Ok →
    (consoleintr cs i).1.Ok ∧ (consoleintr cs i).1.ready = i.ready ++ (consoleintr cs i).2 := by
  induction cs with
  | nil => exact fun h => ⟨h, (append_nil _).symm⟩
  | cons c cs ih =>
    intro i h
    obtain ⟨hok, hready⟩ := intrChar_spec h c
    obtain ⟨hok', hready'⟩ := ih hok
    refine ⟨hok', ?_⟩
    rw [consoleintr, hready', hready, append_assoc]

/-! ## `consoleread` -/

theorem pop_spec (h : i.Ok) (hne : i.nread ≠ i.w) :
    ({ i with toRingBuffer := i.toRingBuffer.pop } : Input).Ok ∧
      i.ready = i.toRingBuffer.head ::
        ({ i with toRingBuffer := i.toRingBuffer.pop } : Input).ready := by
  have hpos : i.nready ≠ 0 := mt i.nready_eq_zero_iff.1 hne
  have hle := h.le
  have hlen := RingBuffer.length_pop i.toRingBuffer (by omega)
  have hcontent := RingBuffer.content_pop (by decide) i.toRingBuffer (by omega)
  have hnready : ({ i with toRingBuffer := i.toRingBuffer.pop } : Input).nready + 1 = i.nready := by
    unfold nready at *
    show (i.w - (i.nread + 1)).toNat + 1 = (i.w - i.nread).toNat
    rw [UInt32.toNat_sub] at *
    rw [UInt32.toNat_sub, UInt32.toNat_add, UInt32.toNat_one]
    have := i.nread.toNat_lt
    have := i.w.toNat_lt
    omega
  refine ⟨⟨?_, ?_⟩, ?_⟩
  · show _ ≤ i.toRingBuffer.pop.length
    omega
  · have hmax := h.max
    show i.toRingBuffer.pop.length ≤ INPUT_BUF
    omega
  · rw [ready, ← hnready, hcontent, take_succ_cons]
    rfl

/-- How a part of `consoleread` ends that started with the bytes `got` and took `bytes`. -/
def Outcome.Ok (killed : Bool) (target : ℕ) (got bytes : List UInt8) : Outcome → Prop
  | .sleep n got' => got' = got ++ bytes ∧ 0 < n ∧ n + got'.length = target ∧
      newline ∉ got' ∧ ctrl 'D' ∉ got'
  | .killed => killed = true
  | .returned got' => (got' = got ++ bytes ∧ (0 < target → got' ≠ []) ∧ ctrl 'D' ∉ got' ∨
      got' = [] ∧ got = [] ∧ bytes = [ctrl 'D']) ∧ newline ∉ got'.dropLast

theorem not_mem_dropLast {l : List UInt8} {x : UInt8} (h : x ∉ l) : x ∉ l.dropLast :=
  fun hm => h (mem_of_mem_dropLast hm)

theorem Outcome.Ok.cons {killed : Bool} {target : ℕ} {got bytes : List UInt8} {x : UInt8}
    {o : Outcome} (h : o.Ok killed target (got ++ [x]) bytes) :
    o.Ok killed target got (x :: bytes) := by
  cases o with
  | sleep n got' =>
    obtain ⟨hgot, h⟩ := h
    exact ⟨by rw [hgot, append_assoc, singleton_append], h⟩
  | killed => exact h
  | returned got' =>
    obtain ⟨⟨hgot, h⟩ | ⟨-, hnil, -⟩, hline⟩ := h
    · exact ⟨.inl ⟨by rw [hgot, append_assoc, singleton_append], h⟩, hline⟩
    · exact absurd hnil (append_ne_nil_of_right_ne_nil _ (cons_ne_nil _ _))

/-- Bytes are taken off those that are ready. -/
theorem readLoop_spec (killed : Bool) (target n : ℕ) : ∀ {i : Input} {got : List UInt8}, i.Ok →
    n + got.length = target → newline ∉ got → ctrl 'D' ∉ got →
    (readLoop killed target n i got).1.Ok ∧
      i.ready = (readLoop killed target n i got).2.1 ++ (readLoop killed target n i got).1.ready ∧
      (readLoop killed target n i got).2.2.Ok killed target got
        (readLoop killed target n i got).2.1 := by
  induction n with
  | zero =>
    intro i got h hn hnl hD
    refine ⟨h, rfl, .inl ⟨(append_nil _).symm, fun hpos hnil => ?_, hD⟩,
      not_mem_dropLast hnl⟩
    rw [hnil, length_nil] at hn
    omega
  | succ n ih =>
    intro i got h hn hnl hD
    unfold readLoop
    by_cases hrw : i.nread = i.w
    · rw [if_pos hrw]
      refine ⟨h, rfl, ?_⟩
      cases killed with
      | true => exact rfl
      | false => exact ⟨(append_nil _).symm, Nat.succ_pos n, hn, hnl, hD⟩
    rw [if_neg hrw]
    obtain ⟨hok, hready⟩ := pop_spec h hrw
    dsimp only
    by_cases hc : i.toRingBuffer.head = ctrl 'D'
    · rw [if_pos hc]
      by_cases hlt : n + 1 < target
      · rw [if_pos hlt]
        have hback : i.toRingBuffer.pop.nread - 1 = i.nread := UInt32.add_sub_cancel ..
        rw [hback]
        refine ⟨h, rfl, .inl ⟨(append_nil _).symm, fun _ hnil => ?_, hD⟩,
          not_mem_dropLast hnl⟩
        rw [hnil, length_nil] at hn
        omega
      · rw [if_neg hlt]
        have hnil : got = [] := eq_nil_of_length_eq_zero (by omega)
        exact ⟨hok, hready, .inr ⟨hnil, hnil, by rw [hc]⟩, not_mem_dropLast hnl⟩
    · rw [if_neg hc]
      by_cases hnewline : i.toRingBuffer.head = newline
      · rw [if_pos hnewline]
        refine ⟨hok, hready, .inl ⟨rfl, fun _ => by simp, ?_⟩, ?_⟩
        · simpa [hD] using Ne.symm hc
        · rw [dropLast_concat]
          exact hnl
      · rw [if_neg hnewline]
        obtain ⟨hok', hready', hout⟩ := @ih _ (got ++ [i.toRingBuffer.head]) hok
          (by rw [length_append, length_singleton]; omega)
          (by simpa [hnl] using Ne.symm hnewline) (by simpa [hD] using Ne.symm hc)
        exact ⟨hok', by rw [hready, hready', cons_append], hout.cons⟩

/-! ## The calls -/

/-- The bytes that a call has taken. -/
def takenBy (taken : List (ℕ × UInt8)) (id : ℕ) : List UInt8 :=
  (taken.filter fun x => x.1 == id).map Prod.snd

theorem takenBy_append (taken : List (ℕ × UInt8)) (id id' : ℕ) (bytes : List UInt8) :
    takenBy (taken ++ bytes.map fun b => (id, b)) id' =
      takenBy taken id' ++ if id = id' then bytes else [] := by
  rw [takenBy, filter_append, map_append]
  congr 1
  rw [filter_map, map_map]
  split_ifs with h
  · rw [filter_eq_self.2 fun b _ => by simpa using h]
    exact map_id' bytes
  · rw [filter_eq_nil_iff.2 fun b _ => by simpa using h]
    rfl

theorem takenBy_eq_nil {taken : List (ℕ × UInt8)} {id : ℕ} (h : ∀ x ∈ taken, x.1 < id) :
    takenBy taken id = [] := by
  rw [takenBy, filter_eq_nil_iff.2 fun x hx => by simpa using (h x hx).ne]
  rfl

variable {P : Type} {s : State P} {p : P}

/-- A call that has taken the bytes it has read, with no newline and no `^D` among them. -/
structure Reading (s : State P) (c : Call) : Prop where
  id_lt : c.id < s.calls
  taken : takenBy s.taken c.id = c.got
  length : c.n + c.got.length = c.target
  newline : newline ∉ c.got
  ctrlD : ctrl 'D' ∉ c.got

/-- A call that returned has taken what it returns, or it has taken a `^D` and returns nothing. -/
def Returned (s : State P) (r : Return) : Prop :=
  ∀ got, r.result = some got → (takenBy s.taken r.id = got ∧ (0 < r.target → got ≠ []) ∧
    ctrl 'D' ∉ got ∨ got = [] ∧ takenBy s.taken r.id = [ctrl 'D']) ∧ newline ∉ got.dropLast

/-- What holds in every state. -/
structure Inv (s : State P) : Prop where
  ok : s.input.Ok
  history : s.committed = s.taken.map Prod.snd ++ s.input.ready
  fresh : ∀ x ∈ s.taken, x.1 < s.calls
  reading : ∀ p c, s.call p = some c → Reading s c
  distinct : ∀ p q c d, s.call p = some c → s.call q = some d → c.id = d.id → p = q
  returned : ∀ r ∈ s.returns, r.id < s.calls ∧ (∀ p c, s.call p = some c → c.id ≠ r.id) ∧
    Returned s r

theorem inv_init : Inv (init P) :=
  ⟨(⟨by decide, by decide⟩ : (⟨⟨fun _ => 0, 0, 0⟩, 0⟩ : Input).Ok),
    by simp [init, ready, nready], fun _ hx => absurd hx not_mem_nil,
    fun _ _ h => absurd h (Option.some_ne_none _).symm,
    fun _ _ _ _ h => absurd h (Option.some_ne_none _).symm, fun _ hr => absurd hr not_mem_nil⟩

variable [DecidableEq P]

theorem resume_taken (s : State P) (p : P) (c : Call) (id : ℕ) :
    takenBy (s.resume p c).taken id = takenBy s.taken id ++
      if c.id = id then (readLoop (s.killed p) c.target c.n s.input c.got).2.1 else [] :=
  takenBy_append ..

theorem resume_call_of_ne (s : State P) (c : Call) {q : P} (hq : q ≠ p) :
    (s.resume p c).call q = s.call q :=
  Function.update_of_ne hq _ _

theorem resume_cases (s : State P) (p : P) {c : Call} (hc : Reading s c)
    (hout : (readLoop (s.killed p) c.target c.n s.input c.got).2.2.Ok (s.killed p) c.target c.got
      (readLoop (s.killed p) c.target c.n s.input c.got).2.1) :
    (∃ d, d.id = c.id ∧ (s.resume p c).call p = some d ∧ (s.resume p c).returns = s.returns ∧
      Reading (s.resume p c) d) ∨
    (s.resume p c).call p = none ∧ ∃ r, r.id = c.id ∧
      (s.resume p c).returns = s.returns ++ [r] ∧ Returned (s.resume p c) r := by
  have htaken := resume_taken s p c c.id
  rw [if_pos rfl, hc.taken] at htaken
  have hcall : (s.resume p c).call p = _ := Function.update_self p _ s.call
  cases hr : (readLoop (s.killed p) c.target c.n s.input c.got).2.2 with
  | sleep n got =>
    rw [hr] at hout hcall
    obtain ⟨hgot, -, hlen, hnl, hD⟩ := hout
    refine .inl ⟨{ c with n := n, got := got }, rfl, hcall, ?_, ⟨hc.id_lt, ?_, hlen, hnl, hD⟩⟩
    · simp only [State.resume, hr, append_nil]
    · exact htaken.trans hgot.symm
  | killed =>
    rw [hr] at hcall
    refine .inr ⟨hcall, ⟨c.id, c.target, none⟩, rfl, by simp only [State.resume, hr], ?_⟩
    exact fun _ hgot => absurd hgot (Option.some_ne_none _).symm
  | returned got =>
    rw [hr] at hout hcall
    refine .inr ⟨hcall, ⟨c.id, c.target, some got⟩, rfl, by simp only [State.resume, hr], ?_⟩
    intro got' hgot
    obtain rfl := Option.some.inj hgot
    obtain ⟨hcase, hline⟩ := hout
    refine ⟨hcase.imp (fun h => ⟨htaken.trans h.1.symm, h.2⟩) fun h => ⟨h.1, ?_⟩, hline⟩
    rw [htaken, h.2.2, h.2.1, nil_append]

/-- A process goes on with a call that is its own. -/
theorem Inv.resume (h : Inv s) {c : Call} (hc : Reading s c)
    (hother : ∀ q d, q ≠ p → s.call q = some d → d.id ≠ c.id)
    (hret : ∀ r ∈ s.returns, r.id ≠ c.id) : Inv (s.resume p c) := by
  obtain ⟨hok, hready, hout⟩ := readLoop_spec (s.killed p) c.target c.n h.ok hc.length hc.newline
    hc.ctrlD
  have hsame : ∀ id, id ≠ c.id → takenBy (s.resume p c).taken id = takenBy s.taken id :=
    fun id hid => by rw [resume_taken, if_neg hid.symm, append_nil]
  have hold : ∀ r ∈ s.returns, Returned (s.resume p c) r := fun r hr got hgot => by
    rw [hsame r.id (hret r hr)]
    exact (h.returned r hr).2.2 got hgot
  have hothers : ∀ q d, q ≠ p → (s.resume p c).call q = some d →
      Reading (s.resume p c) d ∧ d.id ≠ c.id := fun q d hq hd => by
    rw [resume_call_of_ne s c hq] at hd
    have hrd := h.reading q d hd
    have hne := hother q d hq hd
    exact ⟨⟨hrd.id_lt, (hsame d.id hne).trans hrd.taken, hrd.length, hrd.newline, hrd.ctrlD⟩, hne⟩
  have hcase := resume_cases s p hc hout
  -- the call of the process has the number of `c`, if it has one still
  have hown : ∀ d, (s.resume p c).call p = some d → d.id = c.id ∧ Reading (s.resume p c) d := by
    intro d hd
    rcases hcase with ⟨d', hid, hd', -, hrd⟩ | ⟨hnone, -⟩
    · obtain rfl := Option.some.inj (hd.symm.trans hd')
      exact ⟨hid, hrd⟩
    · exact absurd (hd.symm.trans hnone) (Option.some_ne_none _)
  refine ⟨hok, ?_, fun x hx => ?_, fun q d hd => ?_, fun q q' d d' hd hd' hid => ?_, fun r hr => ?_⟩
  · show s.committed = (s.taken ++ List.map _ _).map Prod.snd ++ _
    rw [h.history, hready, map_append, map_map, append_assoc]
    congr 2
    exact (map_id' _).symm
  · rcases mem_append.1 hx with hx | hx
    · exact h.fresh x hx
    · obtain ⟨b, -, rfl⟩ := mem_map.1 hx
      exact hc.id_lt
  · by_cases hq : q = p
    · subst hq
      exact (hown d hd).2
    · exact (hothers q d hq hd).1
  · by_cases hq : q = p
    · by_cases hq' : q' = p
      · rw [hq, hq']
      · subst hq
        exact absurd ((hid.symm.trans (hown d hd).1)) (hothers q' d' hq' hd').2
    · by_cases hq' : q' = p
      · subst hq'
        exact absurd (hid.trans (hown d' hd').1) (hothers q d hq hd).2
      · rw [resume_call_of_ne s c hq] at hd
        rw [resume_call_of_ne s c hq'] at hd'
        exact h.distinct q q' d d' hd hd' hid
  · have hkeep : ∀ r ∈ s.returns, r.id < s.calls ∧
        (∀ q d, (s.resume p c).call q = some d → d.id ≠ r.id) ∧ Returned (s.resume p c) r := by
      intro r' hr'
      refine ⟨(h.returned r' hr').1, fun q d hd => ?_, hold r' hr'⟩
      by_cases hq : q = p
      · rw [hq] at hd
        rw [(hown d hd).1]
        exact (hret r' hr').symm
      · rw [resume_call_of_ne s c hq] at hd
        exact (h.returned r' hr').2.1 q d hd
    rcases hcase with ⟨d', -, -, hrets, -⟩ | ⟨hnone, r', hid, hrets, hr'⟩
    · rw [hrets] at hr
      exact hkeep r hr
    · rw [hrets] at hr
      rcases mem_append.1 hr with hr | hr
      · exact hkeep r hr
      · obtain rfl := mem_singleton.1 hr
        refine ⟨hid ▸ hc.id_lt, fun q d hd => ?_, hr'⟩
        by_cases hq : q = p
        · subst hq
          exact absurd (hd.symm.trans hnone) (Option.some_ne_none _)
        · rw [hid]
          exact (hothers q d hq hd).2

/-- Every step keeps the invariant. -/
theorem Inv.step (h : Inv s) {e : Event P} {s' : State P} (hs : step s e = some s') : Inv s' := by
  cases e with
  | intr cs =>
    obtain rfl := Option.some.inj hs
    obtain ⟨hok, hready⟩ := consoleintr_spec cs h.ok
    refine ⟨hok, ?_, h.fresh, fun p c hc => ?_, h.distinct, h.returned⟩
    · show s.committed ++ _ = _
      rw [hready, h.history, append_assoc]
    · have hr := h.reading p c hc
      exact ⟨hr.id_lt, hr.taken, hr.length, hr.newline, hr.ctrlD⟩
  | kill p =>
    obtain rfl := Option.some.inj hs
    refine ⟨h.ok, h.history, h.fresh, fun q c hc => ?_, h.distinct, h.returned⟩
    have hr := h.reading q c hc
    exact ⟨hr.id_lt, hr.taken, hr.length, hr.newline, hr.ctrlD⟩
  | wake p =>
    cases hc : s.call p with
    | none => simp [Console.step, hc] at hs
    | some c =>
      simp only [Console.step, hc, Option.some.injEq] at hs
      subst hs
      refine h.resume (h.reading p c hc) (fun q d hq hd hid => ?_) fun r hr => ?_
      · exact hq (h.distinct q p d c hd hc hid)
      · exact ((h.returned r hr).2.1 p c hc).symm
  | read p n =>
    cases hc : s.call p with
    | some c => simp [Console.step, hc] at hs
    | none =>
      simp only [Console.step, hc, Option.some.injEq] at hs
      subst hs
      have hmono : Inv { s with calls := s.calls + 1 } := by
        refine ⟨h.ok, h.history, fun x hx => Nat.lt_succ_of_lt (h.fresh x hx), fun q c hq => ?_,
          h.distinct, fun r hr => ?_⟩
        · have hr := h.reading q c hq
          exact ⟨Nat.lt_succ_of_lt hr.id_lt, hr.taken, hr.length, hr.newline, hr.ctrlD⟩
        · obtain ⟨hlt, hne, hret⟩ := h.returned r hr
          exact ⟨Nat.lt_succ_of_lt hlt, hne, hret⟩
      refine hmono.resume ⟨Nat.lt_succ_self _, takenBy_eq_nil h.fresh, rfl, not_mem_nil,
        not_mem_nil⟩ (fun q d _ hd => (h.reading q d hd).id_lt.ne) fun r hr => ?_
      exact (h.returned r hr).1.ne

/-! ## Every run -/

/-- The input ring is sound : the indices are in order, erasing stays within the line, the bytes
taken are the first of those committed, and a call returns what it took, up to a newline, or
nothing if it took a `^D`. -/
structure Safe (s : State P) : Prop where
  indices : (s.input.w - s.input.nread).toNat ≤ (s.input.nwrite - s.input.nread).toNat ∧
    (s.input.nwrite - s.input.nread).toNat ≤ INPUT_BUF
  erase : ∀ c, c = ctrl 'U' ∨ c = ctrl 'H' ∨ c = 127 →
    Erased s.input (intrChar s.input c).1 ∧ (intrChar s.input c).2 = []
  taken : s.taken.map Prod.snd <+: s.committed
  returned : ∀ r ∈ s.returns, ∀ got, r.result = some got →
    takenBy s.taken r.id = got ∨ got = [] ∧ takenBy s.taken r.id = [ctrl 'D']
  line : ∀ r ∈ s.returns, ∀ got, r.result = some got → newline ∉ got.dropLast
  eof : ∀ r ∈ s.returns, ∀ got, r.result = some got → 0 < r.target →
    (got = [] ↔ takenBy s.taken r.id = [ctrl 'D'])

omit [DecidableEq P] in
theorem Inv.safe (h : Inv s) : Safe s := by
  refine ⟨⟨h.ok.le, h.ok.max⟩, fun c hc => intrChar_erased h.ok hc, ?_, fun r hr got hgot => ?_,
    fun r hr got hgot => ((h.returned r hr).2.2 got hgot).2, fun r hr got hgot hpos => ?_⟩
  · rw [h.history]
    exact prefix_append _ _
  · exact ((h.returned r hr).2.2 got hgot).1.imp And.left id
  · rcases ((h.returned r hr).2.2 got hgot).1 with ⟨htaken, hne, hD⟩ | ⟨hnil, htaken⟩
    · refine iff_of_false (hne hpos) fun he => hD ?_
      rw [← htaken, he]
      exact mem_singleton_self _
    · exact iff_of_true hnil htaken

/-- In every state that characters and calls of `consoleread` lead to, in any order, the input
ring is sound. -/
theorem console_safe {es : List (Event P)} (h : run step (init P) es = some s) : Safe s :=
  (run_invariant (fun _ _ _ hi _ hs => hi.step hs) inv_init (along_true _ _) h).safe

/-- A line is typed, and a process reads it. -/
theorem console_safe_line : ∃ s, run step (init (Fin 2)) [.intr [97, 10], .read 0 5] = some s ∧
    Safe s := by
  have hrun : (run step (init (Fin 2)) [.intr [97, 10], .read 0 5]).isSome := by decide +kernel
  obtain ⟨s, hs⟩ := Option.isSome_iff_exists.1 hrun
  exact ⟨s, hs, console_safe hs⟩

/-- 128 characters fill the buffer. A process that wants more takes them and sleeps, and is killed.
The next process is returned what is typed after them, which is not where the bytes committed
start. -/
theorem killed_loses : ∃ s, run step (init (Fin 2)) [.intr (List.replicate 128 97), .read 0 200,
      .kill 0, .wake 0, .intr [98, 10], .read 1 200] = some s ∧ (∀ p, s.call p = none) ∧
    s.returns.flatMap (fun r => r.result.getD []) = [98, 10] ∧ ¬ [98, 10] <+: s.committed := by
  have hrun : (run step (init (Fin 2)) [.intr (List.replicate 128 97), .read 0 200, .kill 0,
      .wake 0, .intr [98, 10], .read 1 200]).any (fun s => (∀ p, s.call p = none) ∧
        s.returns.flatMap (fun r => r.result.getD []) = [98, 10] ∧ ¬ [98, 10] <+: s.committed) := by
    decide +kernel
  obtain ⟨s, hs, h⟩ := (Option.any_eq_true _ _).1 hrun
  exact ⟨s, hs, of_decide_eq_true h⟩

end Xv6.Console
