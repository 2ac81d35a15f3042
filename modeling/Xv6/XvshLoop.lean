import Mathlib.Data.List.GetD
import Xv6.XvshCmd

/-!
# The loop of `main` of `xvsh`

Which input keeps `main` inside its line buffer. Before each `read` the buffer is zeroed, up to a
first byte that a `read` of one byte left (`Idle`). What `read` returns then makes a string of the
buffer, or fills it without a null byte; `main` cuts the last character off the string, and
`process_one_cmd` counts down from its last but one. So the string needs two characters.
-/

open List

namespace Xv6.XvshBuf

open Prog Cstring Runs
open Xvsh (MAXLINE SPACE AMP Word exitWord isAmp)

variable {m : Mem} {E : Stop → Mem → Prop} {l s : List UInt8} {r : Input}

/-- The buffer before a `read`. -/
structure Idle (m : Mem) : Prop where
  size : m.size = MAXLINE
  zero : ∀ i, 0 < i → i < MAXLINE → m.buf i = 0

/-- What `read` may return : nothing, one byte, or bytes that start with two characters and have a
null byte among them or leave room for one. -/
def Input.Safe (r : Input) : Prop :=
  r.n = 0 ∨ r.n = 1 ∨ ∃ c d l, r.bytes = some (c :: d :: l) ∧ c ≠ 0 ∧ d ≠ 0 ∧
    (l.length + 2 < MAXLINE ∨ 0 ∈ l)

/-! ## The string in the buffer -/

theorem strlenLoop_full {k n : ℕ} (hsize : n + k = m.size)
    (h : ∀ i, n ≤ i → i < m.size → m.buf i ≠ 0) :
    wp (strlenLoop k n) (fun _ _ => False) (fun x _ => ∃ i, x = .buf i) m := by
  induction k generalizing n with
  | zero => exact ⟨_, rfl⟩
  | succ k ih =>
    rw [strlenLoop, wp_bind, wp_load (by omega), if_neg (h n (Nat.le_refl n) (by omega))]
    exact ih (by omega) fun i hi => h i (by omega)

theorem process_one_cmd_nil {e : Env} (h : IsStr m.buf 0 []) (hsize : 0 < m.size) :
    wp (process_one_cmd e) (fun _ _ => False) (fun x _ => ∃ i, x = .buf i) m := by
  rw [process_one_cmd, wp_bind, scanTokens]
  refine wp_seq (strlen_spec h hsize) ?_
  rintro _ _ ⟨rfl, rfl⟩
  exact ⟨-1, rfl⟩

/-! ## A turn of the loop -/

theorem wp_turn {Q : Unit → Mem → Prop} (hn : r.n ≠ 0 ∧ r.n ≠ 1) (hsize : s.length < m.size)
    (h : IsStr (r.fill m.buf) 0 s) (hs : s ≠ [])
    (hQ : wp (process_one_cmd r.env)
      (fun _ m' => Q () { m' with
        buf := fun i => if i < m'.size then 0 else m'.buf i
        calls := m'.calls ++ [.printf "xvsh> " .none] }) E
      { m with buf := Function.update (r.fill m.buf) (s.length - 1) 0 }) :
    wp (turn r) Q E m := by
  have hpos := length_pos_iff.2 hs
  have hcast : ((s.length : ℤ) - 1) = ((s.length - 1 : ℕ) : ℤ) := by omega
  rw [turn, wp_bind, wp_modify, if_neg hn.1, if_neg hn.2]
  refine wp_seq (strlen_spec h hsize) ?_
  rintro _ _ ⟨rfl, rfl⟩
  rw [hcast, wp_bind, wp_store (by simp only; omega)]
  exact wp_seq hQ fun _ _ hq => hq

/-- A line of at most one character leaves the buffers. -/
theorem turn_short (hn : r.n ≠ 0 ∧ r.n ≠ 1) (hsize : s.length < m.size)
    (h : IsStr (r.fill m.buf) 0 s) (hs : s.length ≤ 1) :
    wp (turn r) (fun _ _ => False) (fun x _ => ∃ i, x = .buf i) m := by
  by_cases hne : s = []
  · subst hne
    rw [turn, wp_bind, wp_modify, if_neg hn.1, if_neg hn.2]
    refine wp_seq (strlen_spec h hsize) ?_
    rintro _ _ ⟨rfl, rfl⟩
    exact ⟨-1, rfl⟩
  · refine wp_turn hn hsize h hne (process_one_cmd_nil ?_ (Nat.zero_lt_of_lt hsize))
    have hcut := h.cut (i := s.length - 1) (by omega)
    have hnil : s.take (s.length - 1) = [] := by rw [Nat.sub_eq_zero_of_le hs, take_zero]
    rwa [Nat.zero_add, hnil] at hcut

/-- A longer line is processed. -/
theorem turn_long (hn : r.n ≠ 0 ∧ r.n ≠ 1) (hm : m.size = MAXLINE) (hsize : s.length < MAXLINE)
    (h : IsStr (r.fill m.buf) 0 s) (hs : 2 ≤ s.length) :
    wp (turn r) (fun _ => Idle) (fun x _ => x = .exit ∨ x = .exec) m := by
  have hcut := h.cut (i := s.length - 1) (by omega)
  rw [Nat.zero_add] at hcut
  refine wp_turn hn (hm ▸ hsize) h (ne_nil_of_length_pos (by omega)) ?_
  have hlen : (s.take (s.length - 1)).length = s.length - 1 := by
    rw [length_take]
    omega
  refine wp_mono' (process_one_cmd_spec hcut (by simp only; omega)
    (ne_nil_of_length_pos (by omega))) ?_ fun x m' hx => hx.1
  rintro _ m' ⟨hsize', -⟩
  exact ⟨hsize'.trans hm, fun i _ hi => if_pos (by rw [hsize', hm]; exact hi)⟩

theorem isStr_fill {b : List UInt8} (hm : Idle m) (hr : r.bytes = some (s ++ b))
    (hpos : 0 < (s ++ b).length) (hs : (0 : UInt8) ∉ s) (hb : ∀ x ∈ b.head?, x = 0)
    (hlen : s.length < MAXLINE) : IsStr (r.fill m.buf) 0 s := by
  have hfill : ∀ i, r.fill m.buf i = (s ++ b).getD i (m.buf i) := fun i => by
    rw [Input.fill, hr]
  refine ⟨fun i hi => ?_, ?_, hs⟩
  · rw [Nat.zero_add, hfill, getD_append _ _ _ _ hi, getD_eq_getElem _ _ hi]
  · rw [Nat.zero_add, hfill]
    obtain rfl | ⟨b, rfl⟩ := head?_eq_sep hb
    · rw [append_nil] at hpos ⊢
      rw [getD_eq_default _ _ (Nat.le_refl _)]
      exact hm.zero _ hpos hlen
    · rw [getD_append_right _ _ _ _ (Nat.le_refl _), Nat.sub_self]
      rfl

theorem exists_string (l : List UInt8) :
    ∃ s b, l = s ++ b ∧ (0 : UInt8) ∉ s ∧ ∀ x ∈ b.head?, x = 0 := by
  induction l using Runs.induction_on (0 : UInt8) with
  | nil => exact ⟨[], [], rfl, by simp, by simp⟩
  | sep_cons l _ => exact ⟨[], 0 :: l, rfl, by simp, by simp⟩
  | run w r _ hw hr _ => exact ⟨w, r, rfl, hw, hr⟩

theorem Input.bytes_of_one (r : Input) (hn : r.n = 1) : ∃ c, r.bytes = some [c] := by
  unfold Input.n at hn
  cases hr : r.bytes with
  | none =>
    rw [hr] at hn
    exact absurd hn (by decide)
  | some l =>
    rw [hr] at hn
    obtain ⟨c, rfl⟩ := length_eq_one_iff.1 (Int.ofNat.inj hn)
    exact ⟨c, rfl⟩

/-- A safe line leaves the shell idle, or ends in `exit` or `exec`. -/
theorem turn_safe (hm : Idle m) (hr : r.Safe) :
    wp (turn r) (fun _ => Idle) (fun x _ => x = .exit ∨ x = .exec) m := by
  rcases hr with hn | hn | ⟨c, d, l, hr, hc, hd, hl⟩
  · rw [turn, wp_bind, wp_modify, if_pos hn]
    exact .inl rfl
  · rw [turn, wp_bind, wp_modify, if_neg (by omega), if_pos hn]
    refine ⟨hm.size, fun i hi hi' => ?_⟩
    obtain ⟨c, hc⟩ := r.bytes_of_one hn
    show r.fill m.buf i = 0
    rw [Input.fill, hc]
    show [c].getD i (m.buf i) = 0
    rw [getD_eq_default _ _ hi]
    exact hm.zero i hi hi'
  · have hn : r.n = l.length + 2 := by rw [Input.n, hr]; simp; omega
    have hlen := r.short _ hr
    obtain ⟨s, b, rfl, hs, hb⟩ := exists_string l
    simp only [length_cons, length_append] at hlen hl
    have hlt : s.length + 2 < MAXLINE := by
      obtain rfl | ⟨b, rfl⟩ := head?_eq_sep hb
      · simpa [hs] using hl
      · rw [length_cons] at hlen
        omega
    refine turn_long (s := c :: d :: s) (by omega) hm.size hlt ?_ (by simp)
    refine isStr_fill (b := b) hm hr (by simp) ?_ hb hlt
    simp [Ne.symm hc, Ne.symm hd, hs]

theorem exists_short {mem : ℕ → UInt8} (h : mem 0 = 0 ∨ mem 1 = 0) :
    ∃ s, IsStr mem 0 s ∧ s.length ≤ 1 := by
  by_cases h0 : mem 0 = 0
  · exact ⟨[], IsStr.nil h0, Nat.zero_le 1⟩
  · exact ⟨[mem 0], IsStr.cons_iff.2 ⟨rfl, h0, IsStr.nil (h.resolve_left h0)⟩, Nat.le_refl 1⟩

/-- Any other line leaves the buffers. -/
theorem turn_unsafe (hm : Idle m) (hr : ¬ r.Safe) :
    wp (turn r) (fun _ _ => False) (fun x _ => ∃ i, x = .buf i) m := by
  have hn : r.n ≠ 0 ∧ r.n ≠ 1 := ⟨fun h => hr (.inl h), fun h => hr (.inr (.inl h))⟩
  have hshort : r.fill m.buf 0 = 0 ∨ r.fill m.buf 1 = 0 →
      wp (turn r) (fun _ _ => False) (fun x _ => ∃ i, x = .buf i) m := by
    intro h
    obtain ⟨s, hs, hlen⟩ := exists_short h
    refine turn_short hn ?_ hs hlen
    rw [hm.size]
    exact Nat.lt_of_le_of_lt hlen (by decide)
  cases hbytes : r.bytes with
  | none =>
    refine hshort (.inr ?_)
    rw [Input.fill, hbytes]
    exact hm.zero 1 Nat.one_pos (by decide)
  | some l =>
    have hfill : ∀ i, r.fill m.buf i = l.getD i (m.buf i) := fun i => by rw [Input.fill, hbytes]
    have hlen : l.length ≠ 0 ∧ l.length ≠ 1 := by
      rw [Input.n, hbytes] at hn
      exact ⟨fun h => hn.1 (by simp [h]), fun h => hn.2 (by simp [h])⟩
    obtain ⟨c, l, rfl⟩ := exists_cons_of_length_pos (Nat.pos_of_ne_zero hlen.1)
    obtain ⟨d, l, rfl⟩ := exists_cons_of_length_pos (l := l) (by
      rw [length_cons] at hlen
      omega)
    by_cases hc : c = 0
    · exact hshort (.inl ((hfill 0).trans hc))
    by_cases hd : d = 0
    · exact hshort (.inr ((hfill 1).trans hd))
    -- the buffer is full, and no byte of it is null
    have hfull : ¬ (l.length + 2 < MAXLINE ∨ 0 ∈ l) := fun h =>
      hr (.inr (.inr ⟨c, d, l, hbytes, hc, hd, h⟩))
    rw [not_or] at hfull
    rw [turn, wp_bind, wp_modify, if_neg hn.1, if_neg hn.2, strlen, wp_bind, wp_bind, wp_get]
    refine wp_mono (strlenLoop_full (Nat.zero_add _) fun i _ hi => ?_) fun _ _ => False.elim
    show r.fill m.buf i ≠ 0
    rw [show Mem.size _ = m.size from rfl, hm.size] at hi
    have hlt : i < (c :: d :: l).length := by
      simp only [length_cons]
      omega
    rw [hfill, getD_eq_getElem _ _ hlt]
    intro h0
    have hmem := getElem_mem hlt
    rw [h0] at hmem
    simp [Ne.symm hc, Ne.symm hd, hfull.2] at hmem

/-! ## Runs of the loop -/

theorem forM_turn_iff (hm : Idle m) (rs : List Input) :
    (∀ i m', forM rs turn m ≠ .error (.buf i) m') ↔
      ∀ pre r post, rs = pre ++ r :: post → (∃ m', forM pre turn m = .ok () m') → r.Safe := by
  induction rs generalizing m with
  | nil => simp [pure, EStateM.pure]
  | cons r rs ih =>
    by_cases hr : r.Safe
    · have hspec := turn_safe hm hr
      cases ht : turn r m with
      | ok u m1 =>
        rw [forM_cons_ok ht, ih (wp_ok hspec ht)]
        constructor
        · rintro h (_ | ⟨r', pre⟩) r'' post hsplit hpre
          · rwa [← (List.cons.inj hsplit).1]
          · obtain ⟨rfl, hrs⟩ := List.cons.inj hsplit
            rw [forM_cons_ok ht] at hpre
            exact h pre r'' post hrs hpre
        · intro h pre r'' post hsplit hpre
          refine h (r :: pre) r'' post (by rw [hsplit, cons_append]) ?_
          rwa [forM_cons_ok ht]
      | error x m1 =>
        rw [forM_cons_error ht]
        constructor
        · rintro - (_ | ⟨r', pre⟩) r'' post hsplit hpre
          · rwa [← (List.cons.inj hsplit).1]
          · obtain ⟨rfl, -⟩ := List.cons.inj hsplit
            rw [forM_cons_error ht] at hpre
            obtain ⟨m', hm'⟩ := hpre
            cases hm'
        · intro _ i m' heq
          cases heq
          simpa using wp_error hspec ht
    · have hspec := turn_unsafe hm hr
      constructor
      · intro h
        cases ht : turn r m with
        | ok u m1 => exact (wp_ok hspec ht).elim
        | error x m1 =>
          obtain ⟨i, rfl⟩ := wp_error hspec ht
          exact absurd (forM_cons_error ht) (h i m1)
      · intro h
        exact absurd (h [] r rs rfl ⟨m, rfl⟩) hr

/-- `main` uses no index outside the line buffer if and only if every `read` that it makes returns
what is safe. -/
theorem main_in_bounds_iff (rs : List Input) :
    (∀ i m', main rs start ≠ .error (.buf i) m') ↔
      ∀ pre r post, rs = pre ++ r :: post → (∃ m', main pre start = .ok () m') → r.Safe :=
  forM_turn_iff (m := { start with calls := [.printf "xvsh> " .none] }) ⟨rfl, fun _ _ _ => rfl⟩ rs

/-- The index `-1` is used when the first `read` fails. -/
theorem main_out_of_bounds : ∃ m',
    main [⟨none, by simp, ⟨true, false, 2, true⟩⟩] start = .error (.buf (-1)) m' :=
  ⟨_, rfl⟩

end Xv6.XvshBuf
