import Xv6.Bio

/-!
# The buffer cache is coherent

In every state of a run the links of `bcache` form a circular list of all buffers (`Ring`). `Held`
says who holds which buffer, and what a process that is in a call knows of its buffer. `Coherent`
compares buffers and disk with what was last stored : a valid buffer has it, and so has the disk,
unless a buffer for the block is dirty or was changed by its holder. `Inv.step` puts the layers
together.
-/

set_option linter.unusedSectionVars false

open Function Transition Linked List

namespace Xv6.Bio

open Ide (Buf serve)

variable {P β : Type} [DecidableEq P] [DecidableEq β] [Fintype β]

/-! ## The list of buffers -/

/-- The buffers are in the list once each, in the order `l`. -/
structure Links.Lists (L : Links β) (l : List β) : Prop where
  ring : Ring L.next L.prev none (l.map some)
  all : ∀ b, b ∈ l

theorem Links.insert_eq (L : Links β) (b : β) : L.insert b =
    ⟨update (update L.next (some b) (L.next none)) none (some b),
      update (update L.prev (some b) none) (L.next none) (some b)⟩ := by
  simp [Links.insert, update_of_ne]

theorem ring_insert {L : Links β} {b : β} {l : List β}
    (h : Ring L.next L.prev none (l.map some)) (hb : b ∉ l) :
    Ring (L.insert b).next (L.insert b).prev none ((b :: l).map some) := by
  rw [Links.insert_eq, map_cons]
  exact h.insert (by simpa using hb)

theorem ring_remove {L : Links β} {b : β} {l1 l2 : List β}
    (h : Ring L.next L.prev none ((l1 ++ b :: l2).map some)) :
    Ring (L.remove b).next (L.remove b).prev none ((l1 ++ l2).map some) := by
  rw [map_append, map_cons] at h
  have hne : L.next (some b) ≠ some b := by
    intro e
    have hm := getLast_mem (cons_ne_nil (none : Option β) (l2.map some).reverse)
    rw [← h.next_of_mem, e] at hm
    have hnd := (nodup_cons.1 h.nodup).2
    simp only [mem_cons, reduceCtorEq, mem_reverse, false_or] at hm
    exact (nodup_cons.1 (nodup_append.1 hnd).2.1).1 hm
  have hprev : update L.prev (L.next (some b)) (L.prev (some b)) (some b) = L.prev (some b) :=
    update_of_ne hne.symm ..
  rw [Links.remove, hprev, map_append]
  exact h.remove

theorem binit_lists {bs : List β} (hnd : bs.Nodup) (hall : ∀ b, b ∈ bs) :
    (binit bs).Lists bs.reverse := by
  have hfold : ∀ (bs l : List β) (L : Links β), Ring L.next L.prev none (l.map some) →
      bs.Nodup → (∀ b ∈ bs, b ∉ l) →
      Ring (bs.foldl Links.insert L).next (bs.foldl Links.insert L).prev none
        ((bs.reverse ++ l).map some) := by
    intro bs
    induction bs with
    | nil => exact fun l L h _ _ => h
    | cons b bs ih =>
      intro l L h hnd hl
      obtain ⟨hb, hnd⟩ := nodup_cons.1 hnd
      rw [foldl_cons, reverse_cons, append_assoc, singleton_append]
      refine ih (b :: l) _ (ring_insert h (hl b mem_cons_self)) hnd fun c hc => ?_
      rw [mem_cons, not_or]
      exact ⟨fun e => hb (e ▸ hc), hl c (mem_cons_of_mem b hc)⟩
  refine ⟨?_, fun b => mem_reverse.2 (hall b)⟩
  have h := hfold bs [] ⟨fun _ => none, fun _ => none⟩ ⟨rfl, rfl, by simp⟩ hnd (by simp)
  rw [append_nil] at h
  exact h

theorem Links.Lists.release {L : Links β} {l : List β} (h : L.Lists l) (b : β) :
    ∃ l', ((L.remove b).insert b).Lists l' := by
  obtain ⟨l1, l2, rfl⟩ := append_of_mem (h.all b)
  have hnd : (l1 ++ b :: l2).Nodup := List.Nodup.of_map some (nodup_cons.1 h.ring.nodup).2
  have hb : b ∉ l1 ++ l2 := by
    have := (nodup_middle.1 hnd)
    exact (nodup_cons.1 this).1
  refine ⟨b :: (l1 ++ l2), ring_insert (ring_remove h.ring) hb, fun c => ?_⟩
  have hc := h.all c
  simp only [mem_append, mem_cons] at hc ⊢
  tauto

theorem Links.Lists.length_lt {L : Links β} {l : List β} (h : L.Lists l) :
    l.length < Fintype.card β + 1 :=
  Nat.lt_succ_of_le
    (List.Nodup.of_map some (nodup_cons.1 h.ring.nodup).2).length_le_card

theorem scan_eq {link : Option β → Option β} {p : β → Bool} : ∀ {l : List β} {a : Option β} {n : ℕ},
    Leads link a (l.map some) none → l.length < n → scan link p n (link a) = some (l.find? p)
  | _, _, 0, _, hn => absurd hn (Nat.not_lt_zero _)
  | [], a, n + 1, h, _ => by
    rw [show link a = none from h]
    rfl
  | b :: l, a, n + 1, h, hn => by
    rw [show link a = some b from h.1, scan, find?_cons]
    cases hp : p b with
    | true => rfl
    | false => exact scan_eq h.2 (Nat.lt_of_succ_lt_succ hn)

theorem scan_some {link : Option β → Option β} {p : β → Bool} {b : β} : ∀ {n : ℕ} {a : Option β},
    scan link p n a = some (some b) → p b = true
  | 0, _, h => nomatch h
  | _ + 1, none, h => nomatch h
  | n + 1, some c, h => by
    rw [scan] at h
    split_ifs at h with hc
    · cases h
      exact hc
    · exact scan_some h

/-! ## Who holds what -/

/-- What a process knows, where `holds` are its buffers. -/
def PcOk (buf : β → Buf) (holds : β → Bool) : Pc β → Prop
  | .out => True
  | .asleep dev _ _ => Real dev
  | .runnable dev _ => Real dev
  | .reading dev blockno b =>
    holds b = true ∧ caches dev blockno (buf b) = true ∧ (buf b).valid = false
  | .writing b => holds b = true ∧ (buf b).valid = true ∧ (buf b).dirty = true
  | .got dev blockno b =>
    holds b = true ∧ caches dev blockno (buf b) = true ∧ (buf b).valid = true

/-- Buffers and their holders. -/
structure Held (buf : β → Buf) (holds : P → β → Bool) (pc : P → Pc β) : Prop where
  busy : ∀ b, (buf b).busy = true ↔ ∃ p, holds p b = true
  one : ∀ p q b, holds p b = true → holds q b = true → p = q
  valid : ∀ p b, holds p b = true → (buf b).valid = true ∨ ∃ dev blockno,
    pc p = .reading dev blockno b
  ok : ∀ p, PcOk buf (holds p) (pc p)

/-- The buffer that a process has in a call. -/
def Pc.buf : Pc β → Option β
  | .reading _ _ b | .writing b | .got _ _ b => some b
  | _ => none

theorem PcOk.congr {buf buf' : β → Buf} {holds holds' : β → Bool} {pc : Pc β}
    (h : PcOk buf holds pc)
    (hb : ∀ b, pc.buf = some b → holds b = true → buf' b = buf b ∧ holds' b = true) :
    PcOk buf' holds' pc := by
  cases pc with
  | out => trivial
  | asleep => exact h
  | runnable => exact h
  | reading dev blockno b | writing b | got dev blockno b =>
    obtain ⟨e, hh⟩ := hb b rfl h.1
    exact ⟨hh, by rw [e]; exact h.2⟩

section

variable {buf : β → Buf} {holds : P → β → Bool} {pc : P → Pc β} {p : P} {b : β} {c : Buf}
  {pc' : Pc β}

theorem Held.move (h : Held buf holds pc)
    (hread : ∀ dev blockno x, pc p ≠ .reading dev blockno x) (hok : PcOk buf (holds p) pc') :
    Held buf holds (update pc p pc') where
  busy := h.busy
  one := h.one
  valid q x hx := by
    obtain hv | ⟨dev, blockno, hq⟩ := h.valid q x hx
    · exact .inl hv
    · refine .inr ⟨dev, blockno, ?_⟩
      rw [update_of_ne, hq]
      rintro rfl
      exact hread _ _ _ hq
  ok q := by
    obtain ⟨-, e⟩ | ⟨rfl, e⟩ := update_cases pc p pc' q <;> rw [e]
    · exact h.ok q
    · exact hok

/-- A process changes a buffer that no other process holds, and moves on. -/
theorem Held.change (h : Held buf holds pc) (hold : Bool)
    (hother : ∀ q, q ≠ p → holds q b = false)
    (hread : ∀ dev blockno x, pc p = .reading dev blockno x → x = b)
    (hbusy : c.busy = hold)
    (hvalid : hold = true → c.valid = true ∨ ∃ dev blockno, pc' = .reading dev blockno b)
    (hok : PcOk (update buf b c) (update (holds p) b hold) pc') :
    Held (update buf b c) (update holds p (update (holds p) b hold)) (update pc p pc') := by
  have hq : ∀ q x, q ≠ p → holds q x = true → x ≠ b := by
    rintro q x hq hx rfl
    rw [hother q hq] at hx
    cases hx
  have hoff : ∀ q x, x ≠ b → update holds p (update (holds p) b hold) q x = holds q x := by
    intro q x hx
    obtain ⟨-, e⟩ | ⟨rfl, e⟩ := update_cases holds p (update (holds p) b hold) q <;> rw [e]
    rw [update_of_ne hx]
  have hon : ∀ q, update holds p (update (holds p) b hold) q b = true → q = p := by
    intro q hqb
    by_contra hne
    rw [update_of_ne hne, hother q hne] at hqb
    cases hqb
  constructor
  case busy =>
    intro x
    by_cases hx : x = b
    · subst hx
      rw [update_self, hbusy]
      constructor
      · exact fun e => ⟨p, by rw [update_self, update_self, e]⟩
      · rintro ⟨q, hqx⟩
        obtain rfl := hon q hqx
        rwa [update_self, update_self] at hqx
    · rw [update_of_ne hx, h.busy]
      exact exists_congr fun q => by rw [hoff q x hx]
  case one =>
    intro q q' x hqx hqx'
    by_cases hx : x = b
    · subst hx
      exact (hon q hqx).trans (hon q' hqx').symm
    · rw [hoff _ _ hx] at hqx hqx'
      exact h.one q q' x hqx hqx'
  case valid =>
    intro q x hqx
    obtain ⟨hne, e⟩ | ⟨rfl, e⟩ := update_cases holds p (update (holds p) b hold) q <;>
      rw [e] at hqx
    · rw [update_of_ne (hq q x hne hqx), update_of_ne hne]
      exact h.valid q x hqx
    · rw [update_self]
      by_cases hx : x = b
      · subst hx
        rw [update_self] at hqx ⊢
        exact hvalid hqx
      · rw [update_of_ne hx] at hqx ⊢
        obtain hv | ⟨dev, blockno, hr⟩ := h.valid q x hqx
        · exact .inl hv
        · exact absurd (hread _ _ _ hr) hx
  case ok =>
    intro q
    obtain ⟨hne, e⟩ | ⟨rfl, e⟩ := update_cases pc p pc' q <;> rw [e]
    · rw [update_of_ne hne]
      exact (h.ok q).congr fun x _ hx => ⟨update_of_ne (hq q x hne hx) .., hx⟩
    · rw [update_self]
      exact hok

theorem Held.not_holds_other (h : Held buf holds pc) (hp : holds p b = true) (q : P)
    (hq : q ≠ p) : holds q b = false := by
  by_contra hqb
  exact hq (h.one q p b (by simpa using hqb) hp)

theorem Held.alter (h : Held buf holds pc) (hp : holds p b = true)
    (hread : ∀ dev blockno x, pc p = .reading dev blockno x → x = b) (hbusy : c.busy = true)
    (hvalid : c.valid = true) (hok : PcOk (update buf b c) (holds p) pc') :
    Held (update buf b c) holds (update pc p pc') := by
  have hrow : update (holds p) b true = holds p := by rw [← hp, update_eq_self]
  have hall : update holds p (update (holds p) b true) = holds := by rw [hrow, update_eq_self]
  have hc := h.change true (h.not_holds_other hp) hread hbusy (fun _ => .inl hvalid)
    (by rw [hrow]; exact hok)
  rwa [hall] at hc

/-- Processes that sleep in `bget` become runnable. -/
theorem Held.wake (h : Held buf holds pc) {pc' : P → Pc β}
    (hpc : ∀ q, pc' q = pc q ∨ ∃ dev blockno x, pc q = .asleep dev blockno x ∧
      pc' q = .runnable dev blockno) : Held buf holds pc' where
  busy := h.busy
  one := h.one
  valid q x hx := by
    obtain hv | ⟨dev, blockno, hq⟩ := h.valid q x hx
    · exact .inl hv
    · refine .inr ⟨dev, blockno, ?_⟩
      obtain e | ⟨_, _, _, e, -⟩ := hpc q
      · rw [e, hq]
      · rw [hq] at e
        cases e
  ok q := by
    obtain e | ⟨dev, blockno, x, e, e'⟩ := hpc q
    · rw [e]
      exact h.ok q
    · have := h.ok q
      rw [e] at this
      rw [e']
      exact this

end

/-! ## Buffers, disk and what was stored -/

/-- A buffer agrees with what was stored, and with the disk where it has to. -/
structure Good (disk stored : ℕ → ℕ → Block) (c : Buf) (unsaved : Bool) : Prop where
  dirty : c.dirty = true → c.valid = true
  real : c.busy = true ∨ c.valid = true → Real c.dev
  data : c.valid = true → c.data = stored c.dev c.blockno
  invalid : Real c.dev → c.valid = false →
    disk c.dev c.blockno = stored c.dev c.blockno ∧ unsaved = false
  clean : c.valid = true → c.dirty = false → unsaved = false →
    disk c.dev c.blockno = stored c.dev c.blockno
  saved : c.busy = false → unsaved = false

/-- The buffers, the disk and what was stored. -/
structure Coherent (buf : β → Buf) (disk stored : ℕ → ℕ → Block) (unsaved : β → Bool) :
    Prop where
  unique : ∀ b c, Real (buf b).dev → (buf b).dev = (buf c).dev →
    (buf b).blockno = (buf c).blockno → b = c
  good : ∀ b, Good disk stored (buf b) (unsaved b)
  absent : ∀ dev blockno, Real dev → (∀ b, caches dev blockno (buf b) = false) →
    disk dev blockno = stored dev blockno

theorem caches_iff {dev blockno : ℕ} {c : Buf} :
    caches dev blockno c = true ↔ c.dev = dev ∧ c.blockno = blockno := by
  simp [caches]

section

variable {buf : β → Buf} {disk stored disk' stored' : ℕ → ℕ → Block} {unsaved : β → Bool}
  {b : β} {c : Buf} {u : Bool}

theorem Good.congr (h : Good disk stored c u) (hd : Real c.dev → disk' c.dev c.blockno =
    disk c.dev c.blockno) (hs : Real c.dev → stored' c.dev c.blockno = stored c.dev c.blockno) :
    Good disk' stored' c u where
  dirty := h.dirty
  real := h.real
  data hv := by rw [hs (h.real (.inr hv))]; exact h.data hv
  invalid hr hv := by rw [hd hr, hs hr]; exact h.invalid hr hv
  clean hv hdirty hu := by
    have hr := h.real (.inr hv)
    rw [hd hr, hs hr]
    exact h.clean hv hdirty hu
  saved := h.saved

theorem key_update {x : β} (hdev : c.dev = (buf b).dev) (hblockno : c.blockno = (buf b).blockno) :
    (update buf b c x).dev = (buf x).dev ∧ (update buf b c x).blockno = (buf x).blockno := by
  by_cases hx : x = b
  · subst hx
    rw [update_self]
    exact ⟨hdev, hblockno⟩
  · rw [update_of_ne hx]
    exact ⟨rfl, rfl⟩

/-- A buffer changes, and the disk and what was stored change for its block only. -/
theorem Coherent.change (h : Coherent buf disk stored unsaved) (hreal : Real (buf b).dev)
    (hdev : c.dev = (buf b).dev) (hblockno : c.blockno = (buf b).blockno)
    (hoff : ∀ dev blockno, dev ≠ c.dev ∨ blockno ≠ c.blockno →
      disk' dev blockno = disk dev blockno ∧ stored' dev blockno = stored dev blockno)
    (hgood : Good disk' stored' c u) :
    Coherent (update buf b c) disk' stored' (update unsaved b u) := by
  have hkey := fun x => key_update (x := x) hdev hblockno
  constructor
  case unique =>
    intro x y hx hd hbl
    rw [(hkey x).1] at hx
    rw [(hkey x).1, (hkey y).1] at hd
    rw [(hkey x).2, (hkey y).2] at hbl
    exact h.unique x y hx hd hbl
  case good =>
    intro x
    by_cases hx : x = b
    · subst hx
      rw [update_self, update_self]
      exact hgood
    · rw [update_of_ne hx, update_of_ne hx]
      have hne : Real (buf x).dev → (buf x).dev ≠ c.dev ∨ (buf x).blockno ≠ c.blockno := by
        intro hr
        by_contra hn
        rw [not_or, not_not, not_not, hdev, hblockno] at hn
        exact hx (h.unique x b hr hn.1 hn.2)
      exact (h.good x).congr (fun hr => (hoff _ _ (hne hr)).1) fun hr => (hoff _ _ (hne hr)).2
  case absent =>
    intro dev blockno hr hno
    have hno' : ∀ x, caches dev blockno (buf x) = false := by
      intro x
      have := hno x
      rw [Bool.eq_false_iff, ne_eq, caches_iff, (hkey x).1, (hkey x).2] at this
      rw [Bool.eq_false_iff, ne_eq, caches_iff]
      exact this
    have hne : dev ≠ c.dev ∨ blockno ≠ c.blockno := by
      have hb := hno' b
      rw [Bool.eq_false_iff, ne_eq, caches_iff, ← hdev, ← hblockno, not_and_or] at hb
      exact hb.imp Ne.symm Ne.symm
    rw [(hoff dev blockno hne).1, (hoff dev blockno hne).2]
    exact h.absent dev blockno hr hno'

theorem update_on (f : ℕ → ℕ → Block) (dev blockno : ℕ) (data : Block) :
    update f dev (update (f dev) blockno data) dev blockno = data := by
  rw [update_self, update_self]

theorem update_off (f : ℕ → ℕ → Block) {dev blockno d n : ℕ} (data : Block)
    (hne : d ≠ dev ∨ n ≠ blockno) : update f dev (update (f dev) blockno data) d n = f d n := by
  by_cases hd : d = dev
  · subst hd
    rw [update_self, update_of_ne (hne.resolve_left fun hn => hn rfl)]
  · rw [update_of_ne hd]

theorem Coherent.flags (h : Coherent buf disk stored unsaved) (hreal : Real (buf b).dev)
    (hdev : c.dev = (buf b).dev) (hblockno : c.blockno = (buf b).blockno)
    (hgood : Good disk stored c (unsaved b)) : Coherent (update buf b c) disk stored unsaved := by
  have hc := h.change hreal hdev hblockno (fun _ _ _ => ⟨rfl, rfl⟩) hgood
  rwa [update_eq_self] at hc

/-- A spare buffer is recycled for a block that no buffer caches. -/
theorem Coherent.recycle {dev blockno : ℕ} (h : Coherent buf disk stored unsaved)
    (hspare : spare (buf b) = true) (hreal : Real dev)
    (hno : ∀ x, caches dev blockno (buf x) = false) :
    Coherent (update buf b { buf b with
      dev := dev, blockno := blockno, busy := true, valid := false, dirty := false })
      disk stored unsaved := by
  simp only [spare, Bool.and_eq_true, Bool.not_eq_true'] at hspare
  have hb := h.good b
  have hu := hb.saved hspare.1
  have hold : Real (buf b).dev →
      disk (buf b).dev (buf b).blockno = stored (buf b).dev (buf b).blockno := by
    intro hr
    cases hv : (buf b).valid with
    | true => exact hb.clean hv hspare.2 hu
    | false => exact (hb.invalid hr hv).1
  have hother : ∀ x, ¬((buf x).dev = dev ∧ (buf x).blockno = blockno) := by
    intro x hx
    have := hno x
    rw [caches_iff.2 hx] at this
    cases this
  constructor
  case unique =>
    intro x y hx hd hbl
    by_cases hxb : x = b <;> by_cases hyb : y = b
    · rw [hxb, hyb]
    · subst hxb
      rw [update_self, update_of_ne hyb] at hd hbl
      exact absurd ⟨hd.symm, hbl.symm⟩ (hother y)
    · subst hyb
      rw [update_self, update_of_ne hxb] at hd hbl
      exact absurd ⟨hd, hbl⟩ (hother x)
    · rw [update_of_ne hxb] at hx
      rw [update_of_ne hxb, update_of_ne hyb] at hd hbl
      exact h.unique x y hx hd hbl
  case good =>
    intro x
    by_cases hx : x = b
    · subst hx
      rw [update_self]
      exact ⟨nofun, fun _ => hreal, nofun, fun _ _ => ⟨h.absent dev blockno hreal hno, hu⟩,
        nofun, nofun⟩
    · rw [update_of_ne hx]
      exact h.good x
  case absent =>
    intro dev' blockno' hr hno'
    by_cases hkey : (buf b).dev = dev' ∧ (buf b).blockno = blockno'
    · obtain ⟨rfl, rfl⟩ := hkey
      exact hold hr
    · refine h.absent dev' blockno' hr fun x => ?_
      by_cases hx : x = b
      · subst hx
        rw [Bool.eq_false_iff, ne_eq, caches_iff]
        exact hkey
      · have := hno' x
        rwa [update_of_ne hx] at this

end

/-! ## Steps -/

/-- What holds in every state of a run. -/
structure Inv (s : State P β) : Prop where
  lists : ∃ l, s.links.Lists l
  held : Held s.buf s.holds s.pc
  coherent : Coherent s.buf s.disk s.stored s.unsaved

namespace Inv

variable {s s' : State P β} {p : P} {b : β}

theorem start (h : Start s) : Inv s := by
  obtain ⟨bs, hnd, hall, hlinks⟩ := h.links
  have hdev : ∀ b, ¬Real (s.buf b).dev := by
    intro b
    rw [(h.buf b).2.2.2]
    decide
  refine ⟨⟨bs.reverse, by rw [hlinks]; exact binit_lists hnd hall⟩, ?_, ?_⟩
  · refine ⟨fun b => ?_, fun p q b hp => ?_, fun p b hp => ?_, fun p => ?_⟩
    · simp [(h.buf b).1, h.holds]
    · rw [h.holds] at hp
      cases hp
    · rw [h.holds] at hp
      cases hp
    · rw [h.pc]
      trivial
  · refine ⟨fun b c hb => absurd hb (hdev b), fun b => ?_, fun dev blockno _ _ => ?_⟩
    · obtain ⟨hbusy, hvalid, hdirty, -⟩ := h.buf b
      exact ⟨by simp [hdirty], by simp [hbusy, hvalid], by simp [hvalid],
        fun hr => absurd hr (hdev b), by simp [hvalid], fun _ => h.unsaved b⟩
    · rw [h.stored]

theorem not_holds (h : Inv s) (hb : (s.buf b).busy = false) (q : P) : s.holds q b = false := by
  by_contra hq
  have := (h.held.busy b).2 ⟨q, by simpa using hq⟩
  rw [hb] at this
  cases this

/-- `bread` from a process that is in no other call. -/
theorem bread (h : Inv s) {dev blockno : ℕ} (hreal : Real dev)
    (hread : ∀ d n x, s.pc p ≠ .reading d n x) (hs : Bio.bread s p dev blockno = some s') :
    Inv s' := by
  obtain ⟨l, hl⟩ := h.lists
  have hfwd := scan_eq (p := fun b => caches dev blockno (s.buf b)) hl.ring.next hl.length_lt
  have hprev := hl.ring.prev
  rw [← map_reverse] at hprev
  have hbwd := scan_eq (p := fun b => spare (s.buf b)) hprev
    (by rw [length_reverse]; exact hl.length_lt)
  have hread' : ∀ d n x y, s.pc p = .reading d n x → x = y := fun d n x y e =>
    absurd e (hread d n x)
  simp only [Bio.bread, hfwd, hbwd] at hs
  cases hfind : l.find? (fun b => caches dev blockno (s.buf b)) with
  | some b =>
    have hcache := find?_some hfind
    have hkey := caches_iff.1 hcache
    simp only [hfind] at hs
    split_ifs at hs with hbusy
    · cases hs
      exact ⟨⟨l, hl⟩, h.held.move hread hreal, h.coherent⟩
    · cases hs
      simp only [Bool.not_eq_true] at hbusy
      have hg := h.coherent.good b
      have hrealb : Real (s.buf b).dev := by rw [hkey.1]; exact hreal
      refine ⟨⟨l, hl⟩, ?_, ?_⟩
      · refine h.held.change true (fun q _ => h.not_holds hbusy q) (fun d n x => hread' d n x b) rfl
          (fun _ => ?_) ?_
        · cases (s.buf b).valid with
          | true => exact .inl rfl
          | false => exact .inr ⟨dev, blockno, rfl⟩
        · cases hv : (s.buf b).valid with
          | true | false =>
            exact ⟨update_self .., by rw [update_self]; exact hcache, by rw [update_self]⟩
      · exact h.coherent.flags (c := { s.buf b with busy := true }) hrealb rfl rfl
          ⟨hg.dirty, fun _ => hrealb, hg.data, hg.invalid, hg.clean, nofun⟩
  | none =>
    have hno : ∀ x, caches dev blockno (s.buf x) = false := fun x => by
      simpa using find?_eq_none.1 hfind x (hl.all x)
    simp only [hfind] at hs
    cases hfind' : l.reverse.find? (fun b => spare (s.buf b)) with
    | none => simp only [hfind', reduceCtorEq] at hs
    | some b =>
      have hspare := find?_some hfind'
      simp only [hfind'] at hs
      cases hs
      have hbusy : (s.buf b).busy = false := by
        simp only [spare, Bool.and_eq_true, Bool.not_eq_true'] at hspare
        exact hspare.1
      refine ⟨⟨l, hl⟩, ?_, h.coherent.recycle hspare hreal hno⟩
      refine h.held.change true (fun q _ => h.not_holds hbusy q) (fun d n x => hread' d n x b) rfl
        (fun _ => .inr ⟨dev, blockno, rfl⟩) ?_
      exact ⟨update_self .., by rw [update_self]; simp [caches], by rw [update_self]⟩

theorem of_may (h : Inv s) (hm : s.may p b = true) : s.holds p b = true ∧
    (s.buf b).busy = true ∧ (s.buf b).valid = true ∧
    ∀ dev blockno x, s.pc p = .reading dev blockno x → x = b := by
  simp only [State.may, Bool.and_eq_true] at hm
  have hread : ∀ dev blockno x, s.pc p ≠ .reading dev blockno x := by
    intro dev blockno x e
    rw [e] at hm
    exact absurd hm.1 (by simp [Pc.free])
  refine ⟨hm.2, (h.held.busy b).2 ⟨p, hm.2⟩, ?_, fun dev blockno x e => absurd e (hread _ _ _)⟩
  obtain hv | ⟨dev, blockno, e⟩ := h.held.valid p b hm.2
  · exact hv
  · exact absurd e (hread _ _ _)

theorem iderw_eq (hs : iderw s b = some s') :
    s' = { s.setBuf b (serve (s.disk (s.buf b).dev) (s.buf b)).2 with
      disk := update s.disk (s.buf b).dev (serve (s.disk (s.buf b).dev) (s.buf b)).1 } := by
  simp only [iderw] at hs
  split_ifs at hs
  cases hs
  rfl

theorem io_reading (h : Inv s) {dev blockno : ℕ} (hp : s.pc p = .reading dev blockno b)
    (hs : iderw s b = some s') : Inv (s'.setPc p (.got dev blockno b)) := by
  obtain rfl := iderw_eq hs
  have hok := h.held.ok p
  rw [hp] at hok
  obtain ⟨hh, hcache, hvalid⟩ := hok
  have hbusy := (h.held.busy b).2 ⟨p, hh⟩
  have hg := h.coherent.good b
  have hreal := hg.real (.inl hbusy)
  have hdirty : (s.buf b).dirty = false := by
    by_contra hd
    have := hg.dirty (by simpa using hd)
    rw [hvalid] at this
    cases this
  obtain ⟨hdisk, hu⟩ := hg.invalid hreal hvalid
  have hserve : serve (s.disk (s.buf b).dev) (s.buf b) = (s.disk (s.buf b).dev,
      { s.buf b with data := s.disk (s.buf b).dev (s.buf b).blockno, valid := true }) := by
    simp [serve, hdirty]
  rw [hserve, update_eq_self]
  refine ⟨h.lists, ?_, ?_⟩
  · refine h.held.alter hh (fun d n x e => ?_) hbusy rfl ⟨hh, ?_, ?_⟩
    · rw [hp] at e
      cases e
      rfl
    · rw [update_self]
      exact hcache
    · rw [update_self]
  · exact h.coherent.flags
      (c := { s.buf b with data := s.disk (s.buf b).dev (s.buf b).blockno, valid := true })
      hreal rfl rfl ⟨fun _ => rfl, fun _ => hreal, fun _ => hdisk, by simp, fun _ _ _ => hdisk,
        hg.saved⟩

theorem io_writing (h : Inv s) (hp : s.pc p = .writing b) (hs : iderw s b = some s') :
    Inv (s'.setPc p .out) := by
  obtain rfl := iderw_eq hs
  have hok := h.held.ok p
  rw [hp] at hok
  obtain ⟨hh, hvalid, hdirty⟩ := hok
  have hbusy := (h.held.busy b).2 ⟨p, hh⟩
  have hg := h.coherent.good b
  have hreal := hg.real (.inl hbusy)
  have hserve : serve (s.disk (s.buf b).dev) (s.buf b) =
      (update (s.disk (s.buf b).dev) (s.buf b).blockno (s.buf b).data,
        { s.buf b with dirty := false, valid := true }) := by
    simp [serve, hdirty]
  rw [hserve]
  refine ⟨h.lists, ?_, ?_⟩
  · refine h.held.alter hh (fun d n x e => ?_) hbusy rfl trivial
    rw [hp] at e
    cases e
  · have hnow := (update_on s.disk (s.buf b).dev (s.buf b).blockno (s.buf b).data).trans
      (hg.data hvalid)
    have hc : Coherent (update s.buf b { s.buf b with dirty := false, valid := true })
        (update s.disk (s.buf b).dev (update (s.disk (s.buf b).dev) (s.buf b).blockno
          (s.buf b).data)) s.stored (update s.unsaved b (s.unsaved b)) :=
      h.coherent.change hreal rfl rfl (fun dev blockno hne => ⟨update_off _ _ hne, rfl⟩)
        ⟨fun hd => (by cases hd), fun _ => hreal,
          fun _ => hg.data hvalid, fun _ hv => (by cases hv),
          fun _ _ _ => hnow, hg.saved⟩
    rwa [update_eq_self] at hc

theorem store (h : Inv s) (hm : s.may p b = true) (data : Block) :
    Inv { (s.setBuf b { s.buf b with data := data }).setPc p .out with
      stored := update s.stored (s.buf b).dev
        (update (s.stored (s.buf b).dev) (s.buf b).blockno data)
      unsaved := update s.unsaved b true } := by
  obtain ⟨hh, hbusy, hvalid, hread⟩ := h.of_may hm
  have hg := h.coherent.good b
  have hreal := hg.real (.inl hbusy)
  refine ⟨h.lists, h.held.alter hh hread hbusy hvalid trivial, ?_⟩
  refine h.coherent.change hreal rfl rfl (fun dev blockno hne => ⟨rfl, update_off _ _ hne⟩)
    ⟨hg.dirty, fun _ => hreal, fun _ => (update_on ..).symm, fun _ hv => ?_, nofun, fun hb => ?_⟩
  · exact absurd (hvalid.symm.trans hv) (by decide)
  · exact absurd (hbusy.symm.trans hb) (by decide)

theorem mark (h : Inv s) (hm : s.may p b = true) {pc : Pc β} (hpc : pc = .out ∨ pc = .writing b) :
    Inv { (s.setBuf b { s.buf b with dirty := true }).setPc p pc with
      unsaved := update s.unsaved b false } := by
  obtain ⟨hh, hbusy, hvalid, hread⟩ := h.of_may hm
  have hg := h.coherent.good b
  have hreal := hg.real (.inl hbusy)
  refine ⟨h.lists, h.held.alter hh hread hbusy hvalid ?_, ?_⟩
  · obtain rfl | rfl := hpc
    · trivial
    · exact ⟨hh, by rw [update_self]; exact hvalid, by rw [update_self]⟩
  · refine h.coherent.change hreal rfl rfl (fun _ _ _ => ⟨rfl, rfl⟩)
      ⟨fun _ => hvalid, fun _ => hreal, hg.data, fun _ hv => ?_, nofun, fun _ => rfl⟩
    rw [hvalid] at hv
    cases hv

theorem brelse (h : Inv s) (hm : s.may p b = true) (hu : s.unsaved b = false)
    (hs : Bio.brelse s p b = some s') : Inv s' := by
  obtain ⟨hh, hbusy, hvalid, hread⟩ := h.of_may hm
  have hg := h.coherent.good b
  have hreal := hg.real (.inl hbusy)
  obtain ⟨l, hl⟩ := h.lists
  simp only [Bio.brelse] at hs
  split_ifs at hs
  cases hs
  refine ⟨hl.release b, ?_, ?_⟩
  · have hc : Held (update s.buf b { s.buf b with busy := false })
        (update s.holds p (update (s.holds p) b false)) (update s.pc p .out) :=
      h.held.change false (h.held.not_holds_other hh) hread rfl nofun trivial
    refine hc.wake fun q => ?_
    simp only [wakeup, State.setPc, State.setHolds, State.setBuf]
    split
    · rename_i dev blockno c hq
      split_ifs
      · exact .inr ⟨dev, blockno, c, hq, rfl⟩
      · exact .inl hq.symm
    · exact .inl rfl
  · exact h.coherent.flags (c := { s.buf b with busy := false }) hreal rfl rfl
      ⟨hg.dirty, fun _ => hreal, hg.data, hg.invalid, hg.clean, fun _ => hu⟩

/-- Every step keeps the invariant. -/
theorem step (h : Inv s) {l : Label P β} (hl : Disciplined s l) (hs : Bio.step s l = some s') :
    Inv s' := by
  cases l <;> simp only [Bio.step] at hs
  case bread p dev blockno =>
    split_ifs at hs with hp
    refine h.bread hl (fun d n x e => ?_) hs
    rw [e] at hp
    exact absurd hp (by simp [Pc.free])
  case wake p =>
    split at hs
    · rename_i dev blockno b hp
      cases hs
      have hok := h.held.ok p
      rw [hp] at hok
      exact ⟨h.lists, h.held.move (fun d n x e => by rw [hp] at e; cases e) hok, h.coherent⟩
    · cases hs
  case retry p =>
    split at hs
    · rename_i dev blockno hp
      have hok := h.held.ok p
      rw [hp] at hok
      exact h.bread hok (fun d n x e => by rw [hp] at e; cases e) hs
    · cases hs
  case io p =>
    split at hs
    · rename_i dev blockno b hp
      obtain ⟨s1, h1, rfl⟩ := Option.map_eq_some_iff.1 hs
      exact h.io_reading hp h1
    · rename_i b hp
      obtain ⟨s1, h1, rfl⟩ := Option.map_eq_some_iff.1 hs
      exact h.io_writing hp h1
    · cases hs
  case store p b data =>
    obtain ⟨hm, rfl⟩ := enabled hs
    exact h.store hm data
  case bwrite p b =>
    split_ifs at hs with hm
    cases hs
    exact h.mark hm (.inr rfl)
  case logWrite p b =>
    obtain ⟨hm, rfl⟩ := enabled hs
    exact h.mark hm (.inl rfl)
  case brelse p b =>
    split_ifs at hs with hm
    exact h.brelse hm hl hs

end Inv

/-! ## Runs -/

/-- What a state of a run says of the buffer cache. -/
structure CacheOk (s : State P β) : Prop where
  /-- The links form a circular doubly linked list that has every buffer once. -/
  ring : ∃ l : List β, Ring s.links.next s.links.prev none (l.map some) ∧ l.Nodup ∧ ∀ b, b ∈ l
  /-- No two buffers cache one block. -/
  unique : ∀ b c, Real (s.buf b).dev → (s.buf b).dev = (s.buf c).dev →
    (s.buf b).blockno = (s.buf c).blockno → b = c
  /-- A buffer is busy when a process holds it, and then one process does. -/
  busy : ∀ b, (s.buf b).busy = true ↔ ∃ p, s.holds p b = true
  one : ∀ p q b, s.holds p b = true → s.holds q b = true → p = q
  /-- A buffer that is given to another block was neither busy nor dirty. -/
  recycled : ∀ l s' b, step s l = some s' →
    (s'.buf b).dev ≠ (s.buf b).dev ∨ (s'.buf b).blockno ≠ (s.buf b).blockno →
    (s.buf b).busy = false ∧ (s.buf b).dirty = false
  /-- `bread` returned a buffer that the process holds, with what was last stored for the
  block. -/
  returned : ∀ p dev blockno b, s.pc p = .got dev blockno b → s.holds p b = true ∧
    (s.buf b).dev = dev ∧ (s.buf b).blockno = blockno ∧ (s.buf b).valid = true ∧
    (s.buf b).data = s.stored dev blockno

section

variable {s s' : State P β} {b : β}

theorem bread_recycled {p : P} {dev blockno : ℕ} (hs : bread s p dev blockno = some s') (x : β) :
    ((s'.buf x).dev = (s.buf x).dev ∧ (s'.buf x).blockno = (s.buf x).blockno) ∨
      spare (s.buf x) = true := by
  simp only [bread] at hs
  split at hs
  · cases hs
  · split_ifs at hs
    · cases hs
      exact .inl ⟨rfl, rfl⟩
    · cases hs
      exact .inl (key_update rfl rfl)
  · split at hs
    · rename_i y hscan
      cases hs
      by_cases hx : x = y
      · subst hx
        exact .inr (scan_some (p := fun b => spare (s.buf b)) hscan)
      · refine .inl ?_
        simp only [gotten, State.setPc, State.setHolds, State.setBuf, update_of_ne hx, and_self]
    · cases hs

theorem iderw_key (hs : iderw s b = some s') (x : β) :
    (s'.buf x).dev = (s.buf x).dev ∧ (s'.buf x).blockno = (s.buf x).blockno := by
  obtain rfl := Inv.iderw_eq hs
  refine key_update ?_ ?_ <;> (unfold serve; split_ifs <;> rfl)

theorem step_recycled {l : Label P β} (hs : step s l = some s') (x : β) :
    ((s'.buf x).dev = (s.buf x).dev ∧ (s'.buf x).blockno = (s.buf x).blockno) ∨
      spare (s.buf x) = true := by
  cases l with
  | bread p dev blockno =>
    simp only [step] at hs
    split_ifs at hs
    exact bread_recycled hs x
  | wake p =>
    simp only [step] at hs
    split at hs
    · cases hs
      exact .inl ⟨rfl, rfl⟩
    · cases hs
  | retry p =>
    simp only [step] at hs
    split at hs
    · exact bread_recycled hs x
    · cases hs
  | io p =>
    simp only [step] at hs
    split at hs
    · obtain ⟨s1, h1, rfl⟩ := Option.map_eq_some_iff.1 hs
      exact .inl (iderw_key h1 x)
    · obtain ⟨s1, h1, rfl⟩ := Option.map_eq_some_iff.1 hs
      exact .inl (iderw_key h1 x)
    · cases hs
  | store | bwrite | logWrite =>
    simp only [step] at hs
    split_ifs at hs
    cases hs
    exact .inl (key_update rfl rfl)
  | brelse p b =>
    simp only [step, brelse] at hs
    split_ifs at hs
    cases hs
    exact .inl (key_update rfl rfl)

theorem Inv.cacheOk (h : Inv s) : CacheOk s where
  ring := by
    obtain ⟨l, hl⟩ := h.lists
    exact ⟨l, hl.ring, List.Nodup.of_map some (nodup_cons.1 hl.ring.nodup).2, hl.all⟩
  unique := h.coherent.unique
  busy := h.held.busy
  one := h.held.one
  recycled l s' b hs hne := by
    obtain hkeep | hspare := step_recycled hs b
    · exact absurd hkeep (by rw [not_and_or]; exact hne)
    · simpa only [spare, Bool.and_eq_true, Bool.not_eq_true'] using hspare
  returned p dev blockno b hp := by
    have hok := h.held.ok p
    rw [hp] at hok
    obtain ⟨hh, hcache, hvalid⟩ := hok
    obtain ⟨rfl, rfl⟩ := caches_iff.1 hcache
    exact ⟨hh, rfl, rfl, hvalid, (h.coherent.good b).data hvalid⟩

end

/-- The buffer cache is coherent in every state that a disciplined run reaches. -/
theorem bcache_coherent {s0 s : State P β} {ls : List (Label P β)} (h0 : Start s0)
    (hC : Along step Disciplined s0 ls) (hr : run step s0 ls = some s) : CacheOk s :=
  (run_invariant (I := Inv) (fun _ _ _ h hl hs => h.step hl hs) (Inv.start h0) hC hr).cacheOk

/-- A cache of two buffers, after `binit`. -/
def twoBuffers : State (Fin 2) (Fin 2) where
  links := binit [0, 1]
  buf := fun _ => ⟨false, false, false, NODEV, 0, zeroBlock⟩
  havedisk1 := true
  disk := fun _ _ => zeroBlock
  pc := fun _ => .out
  holds := fun _ _ => false
  stored := fun _ _ => zeroBlock
  unsaved := fun _ => false

instance (s : State P β) : ∀ l : Label P β, Decidable (Disciplined s l)
  | .bread _ dev _ => inferInstanceAs (Decidable (Real dev))
  | .brelse _ b => inferInstanceAs (Decidable (s.unsaved b = false))
  | .wake _ | .retry _ | .io _ | .store _ _ _ | .bwrite _ _ | .logWrite _ _ => .isTrue trivial

/-- A process gets what another stored. -/
theorem bcache_coherent_two :
    ∃ s, run step twoBuffers [.bread 0 1 5, .bread 1 1 5, .io 0, .store 0 0 fun _ => 7,
        .logWrite 0 0, .brelse 0 0, .retry 1] = some s ∧ s.pc 1 = .got 1 5 0 ∧ CacheOk s := by
  have hrun : ((run step twoBuffers [.bread 0 1 5, .bread 1 1 5, .io 0, .store 0 0 fun _ => 7,
      .logWrite 0 0, .brelse 0 0, .retry 1]).any fun s => s.pc 1 = .got 1 5 0) = true := by decide
  obtain ⟨s, hs, hpc⟩ := (Option.any_eq_true _ _).1 hrun
  refine ⟨s, hs, by simpa using hpc, bcache_coherent ?_ (by decide) hs⟩
  exact ⟨⟨[0, 1], by decide, by decide, rfl⟩, fun _ => ⟨rfl, rfl, rfl, rfl⟩, fun _ => rfl,
    fun _ _ => rfl, rfl, fun _ => rfl⟩

end Xv6.Bio
