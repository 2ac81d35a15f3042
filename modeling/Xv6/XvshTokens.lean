import Mathlib.Data.List.Count
import Mathlib.Data.List.Sort
import Xv6.Lib.Runs
import Xv6.XvshBuf

/-!
# The tokens of a command line of `xvsh`

What `process_one_cmd` makes of a line. The calls of `strtok` yield the maximal runs of characters
other than the space, one by one : `Left` says what is left of the line for the next call, and
`strtok_spec` that a call takes the first run of it and leaves the others, with the characters
before it as they were. The number of entries that `malloc` is asked for comes from the spaces of
the line, and each run but the first has one of them before it.
-/

open Function List

namespace Xv6.XvshBuf

open Prog Cstring Runs
open Xvsh (MAXLINE SPACE AMP Word exitWord isAmp)

variable {m m' : Mem} {E : Stop → Mem → Prop} {l r w : List UInt8} {i j k n p q s : ℕ}

/-! ## Memory -/

theorem wp_load {Q : UInt8 → Mem → Prop} (hi : i < m.size) :
    wp (load i) Q E m ↔ Q (m.buf i) m := by
  simp [load, hi]

theorem wp_store {Q : Unit → Mem → Prop} {c : UInt8} (hi : i < m.size) :
    wp (store i c) Q E m ↔ Q () { m with buf := update m.buf i c } := by
  simp [store, hi]

theorem wp_setTok {Q : Unit → Mem → Prop} {t : Option ℕ} (hi : i < m.cap) :
    wp (setTok i t) Q E m ↔ Q () { m with tok := update m.tok i t } := by
  simp [setTok, hi]

theorem wp_getTok {Q : Option ℕ → Mem → Prop} (hi : i < m.cap) :
    wp (getTok i) Q E m ↔ Q (m.tok i) m := by
  simp [getTok, hi]

@[simp] theorem wp_setLast {Q : Unit → Mem → Prop} {t : Option ℕ} :
    wp (setLast t) Q E m ↔ Q () { m with last := t } :=
  wp_modify _

@[simp] theorem wp_call {Q : Unit → Mem → Prop} {c : Call} :
    wp (call c) Q E m ↔ Q () { m with calls := m.calls ++ [c] } :=
  wp_modify _

/-! ## Loops over the string -/

theorem strlenLoop_spec (h : IsStr m.buf p l) (hk : l.length < k) (hsize : p + l.length < m.size) :
    wp (strlenLoop k p) (fun n m' => n = p + l.length ∧ m' = m) E m := by
  induction l generalizing p k with
  | nil =>
    obtain ⟨k, rfl⟩ := Nat.exists_eq_add_of_lt hk
    have h0 : m.buf p = 0 := h.null
    rw [strlenLoop, wp_bind, wp_load (by simpa using hsize), if_pos h0]
    exact ⟨rfl, rfl⟩
  | cons c l ih =>
    obtain ⟨hp, hc, h'⟩ := IsStr.cons_iff.1 h
    rw [length_cons] at hk hsize
    obtain ⟨k, rfl⟩ := Nat.exists_eq_add_of_lt hk
    rw [strlenLoop, wp_bind, wp_load (by omega), hp, if_neg hc]
    refine wp_mono (ih h' (by omega) (by omega)) ?_
    rintro n _ ⟨rfl, rfl⟩
    exact ⟨by rw [length_cons]; omega, rfl⟩

theorem strlen_spec (h : IsStr m.buf 0 l) (hsize : l.length < m.size) :
    wp strlen (fun n m' => n = l.length ∧ m' = m) E m := by
  rw [strlen, wp_bind, wp_get]
  simpa using strlenLoop_spec h hsize (by omega)

theorem countLoop_spec (h : IsStr m.buf 0 l) (hsize : l.length < m.size) (hi : i < l.length) :
    wp (countLoop i n) (fun r m' => r = n + (l.take (i + 1)).tail.count SPACE ∧ m' = m) E m := by
  induction i generalizing n with
  | zero =>
    obtain ⟨c, l, rfl⟩ := exists_cons_of_length_pos hi
    exact ⟨by simp, rfl⟩
  | succ i ih =>
    have hc : m.buf (i + 1) = l[i + 1] := by simpa using h.char (i + 1) hi
    rw [countLoop, wp_bind, wp_load (by omega), hc]
    refine wp_mono (ih (by omega)) ?_
    rintro r _ ⟨rfl, rfl⟩
    refine ⟨?_, rfl⟩
    have htake : l.take (i + 1) ≠ [] := ne_nil_of_length_pos (by rw [length_take]; omega)
    rw [take_succ_eq_append_getElem hi, tail_append_of_ne_nil htake, count_append]
    split_ifs with hsp
    · rw [hsp, count_singleton_self]
      omega
    · rw [count_singleton, if_neg (by simpa using hsp)]
      rfl

/-- `num_tok` is one more than the number of spaces that are not the first character. -/
theorem countTok_spec (h : IsStr m.buf 0 l) (hsize : l.length < m.size) (hne : l ≠ []) :
    wp (countTok (l.length - 1)) (fun n m' => n = l.tail.count SPACE + 1 ∧ m' = m) E m := by
  have hpos := length_pos_iff.2 hne
  have hcast : ((l.length : ℤ) - 1) = ((l.length - 1 : ℕ) : ℤ) := by omega
  rw [hcast]
  refine wp_mono (countLoop_spec h hsize (i := l.length - 1) (by omega)) ?_
  rintro n _ ⟨rfl, rfl⟩
  rw [Nat.sub_add_cancel hpos, take_length]
  exact ⟨Nat.add_comm _ _, rfl⟩

/-! ## `strtok` -/

variable {a delim : List UInt8} {t : Option ℕ}

/-- Delimiters are skipped. -/
theorem skip_spec (h : IsStr m.buf s (a ++ l)) (h0 : (0 : UInt8) ∉ delim)
    (ha : ∀ c ∈ a, c ∈ delim) (hl : ∀ c ∈ l.head?, c ∉ delim) (hk : a.length < k)
    (hsize : s + a.length < m.size) :
    wp (skip delim k s) (fun r m' => r = (l.headD 0, s + a.length) ∧ m' = m) E m := by
  induction a generalizing s k with
  | nil =>
    obtain ⟨k, rfl⟩ := Nat.exists_eq_add_of_lt hk
    rw [nil_append] at h
    have hhead : l.headD 0 ∉ delim := by
      cases l with
      | nil => exact h0
      | cons c l => exact hl c rfl
    rw [skip, wp_bind, wp_load (by simpa using hsize), h.head, if_neg hhead]
    exact ⟨rfl, rfl⟩
  | cons c a ih =>
    rw [length_cons] at hk hsize
    obtain ⟨k, rfl⟩ := Nat.exists_eq_add_of_lt hk
    rw [cons_append, IsStr.cons_iff] at h
    rw [skip, wp_bind, wp_load (by omega), h.1, if_pos (ha c mem_cons_self)]
    refine wp_mono (ih h.2.2 (fun d hd => ha d (mem_cons_of_mem c hd)) (by omega)
      (by omega)) ?_
    rintro r _ ⟨rfl, rfl⟩
    exact ⟨by rw [length_cons, Nat.add_right_comm, Nat.add_assoc], rfl⟩

/-- The memory after the token that ends at `e`, which is cut off if a delimiter follows. -/
def Mem.cut (m : Mem) (e : ℕ) (r : List UInt8) : Mem :=
  match r with
  | [] => { m with last := none }
  | _ :: _ => { m with buf := update m.buf e 0, last := some (e + 1) }

/-- The characters of a token are passed over. -/
theorem scan_spec (h : IsStr m.buf s (w ++ r)) (hw : ∀ c ∈ w, c ∉ delim)
    (hr : ∀ c ∈ r.head?, c ∈ delim) (hk : w.length < k) (hsize : s + w.length < m.size) :
    wp (scan delim k s) (fun last m' => { m' with last := last } = m.cut (s + w.length) r)
      E m := by
  induction w generalizing s k with
  | nil =>
    obtain ⟨k, rfl⟩ := Nat.exists_eq_add_of_lt hk
    rw [scan, wp_bind, wp_load (by simpa using hsize)]
    cases r with
    | nil =>
      have h0 : m.buf s = 0 := h.null
      rw [if_pos h0]
      rfl
    | cons c r =>
      obtain ⟨hp, hc, -⟩ := IsStr.cons_iff.1 h
      rw [hp, if_neg hc, if_pos (hr c rfl), wp_bind, wp_store (by simpa using hsize)]
      rfl
  | cons c w ih =>
    rw [length_cons] at hk hsize
    obtain ⟨k, rfl⟩ := Nat.exists_eq_add_of_lt hk
    rw [cons_append, IsStr.cons_iff] at h
    rw [scan, wp_bind, wp_load (by omega), h.1, if_neg h.2.1, if_neg (hw c mem_cons_self)]
    refine wp_mono (ih h.2.2 (fun d hd => hw d (mem_cons_of_mem c hd)) (by omega)
      (by omega)) ?_
    intro last m' hm'
    rw [hm', length_cons, Nat.add_right_comm, Nat.add_assoc]

/-- There is no string left. -/
theorem strtok_null (ht : (t <|> m.last) = none) :
    wp (strtok t delim) (fun p m' => p = none ∧ m' = { m with last := none }) E m := by
  have hlast : m.last = none := by
    cases t with
    | none => exact ht
    | some _ => cases ht
  rw [strtok, wp_bind, wp_get, ht]
  exact ⟨rfl, by rw [← hlast]⟩

/-- Only delimiters are left. -/
theorem strtok_end (ht : (t <|> m.last) = some s) (h : IsStr m.buf s a)
    (h0 : (0 : UInt8) ∉ delim) (ha : ∀ c ∈ a, c ∈ delim) (hsize : s + a.length < m.size) :
    wp (strtok t delim) (fun p m' => p = none ∧ m' = { m with last := none }) E m := by
  have h' : IsStr m.buf s (a ++ []) := by rwa [append_nil]
  rw [strtok, wp_bind, wp_get, ht]
  refine wp_seq (skip_spec h' h0 ha (by simp) (by omega) hsize) ?_
  rintro _ _ ⟨rfl, rfl⟩
  exact ⟨rfl, rfl⟩

/-- The token `w` after delimiters is taken. -/
theorem strtok_take (ht : (t <|> m.last) = some s) (h : IsStr m.buf s (a ++ (w ++ r)))
    (h0 : (0 : UInt8) ∉ delim) (ha : ∀ c ∈ a, c ∈ delim) (hne : w ≠ [])
    (hw : ∀ c ∈ w, c ∉ delim) (hr : ∀ c ∈ r.head?, c ∈ delim)
    (hsize : s + (a ++ (w ++ r)).length < m.size) :
    wp (strtok t delim) (fun p m' => p = some (s + a.length) ∧
      m' = m.cut (s + a.length + w.length) r) E m := by
  obtain ⟨c, w, rfl⟩ := exists_cons_of_ne_nil hne
  have hc : c ≠ 0 := fun h0 => h.plain (by simp [h0])
  have htok : IsStr m.buf (s + a.length) (c :: (w ++ r)) := by
    simpa using h.drop (i := a.length) (by simp)
  have hrest := (IsStr.cons_iff.1 htok).2.2
  simp only [length_append, length_cons] at hsize
  rw [strtok, wp_bind, wp_get, ht]
  refine wp_seq (skip_spec h h0 ha (fun d hd => ?_) (by omega) (by omega)) ?_
  · rw [← Option.some.inj hd]
    exact hw c mem_cons_self
  · rintro _ m ⟨rfl, rfl⟩
    rw [cons_append, headD_cons]
    dsimp only
    rw [if_neg hc]
    refine wp_seq (scan_spec hrest (fun d hd => hw d (mem_cons_of_mem c hd)) hr (by omega)
      (by omega)) ?_
    intro last m' hm'
    rw [wp_bind, wp_setLast, wp_pure, hm', length_cons, Nat.add_right_comm (s + a.length),
      Nat.add_assoc (s + a.length)]
    exact ⟨rfl, rfl⟩

/-- What is left for `strtok` is the string `l` at `q`, or nothing. -/
def Left (m : Mem) (q : ℕ) (l : List UInt8) : Option ℕ → Prop
  | none => l = []
  | some s => s = q ∧ IsStr m.buf q l ∧ q + l.length < m.size

/-- The string with a token cut off, and what is left after the delimiter. -/
theorem cut_spec (h : IsStr m.buf p (w ++ r)) (hsize : p + (w ++ r).length < m.size) :
    IsStr (m.cut (p + w.length) r).buf p w ∧
      Left (m.cut (p + w.length) r) (p + w.length + 1) r.tail (m.cut (p + w.length) r).last ∧
      ∀ x < p, (m.cut (p + w.length) r).buf x = m.buf x := by
  rw [length_append] at hsize
  cases r with
  | nil =>
    rw [append_nil] at h
    exact ⟨h, rfl, fun _ _ => rfl⟩
  | cons c r =>
    rw [length_cons] at hsize
    have hcut := h.cut (i := w.length) (by simp)
    rw [take_left] at hcut
    have hrest : IsStr m.buf (p + w.length) (c :: r) := by
      simpa using h.drop (i := w.length) (by simp)
    refine ⟨hcut, ⟨rfl, ?_, ?_⟩, fun x hx => update_of_ne (by omega) _ _⟩
    · exact (IsStr.cons_iff.1 hrest).2.2.update (.inl (Nat.lt_succ_self _)) 0
    · show p + w.length + 1 + r.length < m.size
      omega

/-- `strtok` took the token `w` at `p` from the string at `q`, and left what has the runs `rs`. -/
structure Took (m m' : Mem) (q p : ℕ) (w : Word) (rs : List (ℕ × Word)) : Prop where
  nonempty : w ≠ []
  le : q ≤ p
  size : p < m.size
  str : IsStr m'.buf p w
  left : ∃ q' l', Left m' q' l' m'.last ∧ runs SPACE q' l' = rs ∧ p + w.length < q'
  frame : ∀ x < q, m'.buf x = m.buf x
  rest : m' = { m with buf := m'.buf, last := m'.last }

/-- The token at the front of a string with spaces before it. -/
theorem took_cut (h : IsStr m.buf q (List.replicate n SPACE ++ (w ++ r)))
    (hsize : q + (List.replicate n SPACE ++ (w ++ r)).length < m.size) (hne : w ≠ [])
    (hr : ∀ x ∈ r.head?, x = SPACE) :
    Took m (m.cut (q + n + w.length) r) q (q + n) w (runs SPACE (q + n + w.length) r) := by
  have hw : IsStr m.buf (q + n) (w ++ r) := by
    simpa using h.drop (i := n) (by simp)
  rw [length_append, length_replicate] at hsize
  obtain ⟨hstr, hleft, hframe⟩ := cut_spec hw (by omega)
  have hpos := length_pos_iff.2 hne
  rw [length_append] at hsize
  refine ⟨hne, by omega, by omega, hstr, ⟨_, _, hleft, ?_, Nat.lt_succ_self _⟩,
    fun x hx => hframe x (by omega), ?_⟩
  · obtain rfl | ⟨r, rfl⟩ := head?_eq_sep hr <;> simp
  · cases r <;> rfl

/-- A call of `strtok` takes the first run of what is left. -/
theorem strtok_spec (hl : Left m q l (t <|> m.last)) :
    wp (strtok t [SPACE]) (fun p m' =>
      (runs SPACE q l = [] → p = none ∧ m' = { m with last := none }) ∧
      ∀ x rs, runs SPACE q l = x :: rs → p = some x.1 ∧ Took m m' q x.1 x.2 rs) E m := by
  have h0 : (0 : UInt8) ∉ [SPACE] := by decide
  have hspaces : ∀ n, ∀ c ∈ List.replicate n SPACE, c ∈ [SPACE] := fun n c hc =>
    mem_singleton.2 (eq_of_mem_replicate hc)
  cases ht : (t <|> m.last) with
  | none =>
    rw [ht] at hl
    obtain rfl : l = [] := hl
    refine wp_mono (strtok_null ht) fun p m' h => ⟨fun _ => h, fun x rs hx => ?_⟩
    rw [runs_nil] at hx
    cases hx
  | some s =>
    rw [ht] at hl
    obtain ⟨rfl, hstr, hsize⟩ := hl
    rcases split_first SPACE l with ⟨n, rfl⟩ | ⟨n, w, r, rfl, hne, hw, hr⟩
    · refine wp_mono (strtok_end ht hstr h0 (hspaces n) hsize) fun p m' h => ⟨fun _ => h, ?_⟩
      intro x rs hx
      rw [runs_replicate] at hx
      cases hx
    · have hplain : ∀ c ∈ w, c ∉ [SPACE] := fun c hc => by
        rw [mem_singleton]
        exact ne_of_mem_of_not_mem hc hw
      have htook := took_cut hstr hsize hne hr
      refine wp_mono (strtok_take ht hstr h0 (hspaces n) hne hplain
        (fun c hc => mem_singleton.2 (hr c hc)) hsize) ?_
      rw [runs_replicate_append, runs_append hne hw hr, length_replicate]
      rintro _ _ ⟨rfl, rfl⟩
      refine ⟨fun h => absurd h (cons_ne_nil _ _), fun x rs hx => ?_⟩
      obtain ⟨rfl, rfl⟩ := List.cons.inj hx
      exact ⟨rfl, htook⟩

/-! ## The array of tokens -/

/-- The value of `bg` after the tokens `rs` from index `i` on. -/
def lastAmp (i : ℕ) (rs : List (ℕ × Word)) (bg : ℕ) : ℕ :=
  (rs.zipIdx i).foldl (fun bg x => if isAmp x.1.2 then x.2 else bg) bg

theorem lastAmp_cons {x : ℕ × Word} {rs : List (ℕ × Word)} {bg : ℕ} :
    lastAmp i (x :: rs) bg = lastAmp (i + 1) rs (if isAmp x.2 then i else bg) :=
  rfl

/-- The entry of a token after the first. -/
def entry (x : ℕ × Word) : Option ℕ :=
  if isAmp x.2 then none else some x.1

/-- The loop took the runs `rs` from the string at `q` and put them into `tok` from `i` on. -/
structure Filled (m m' : Mem) (q i : ℕ) (rs : List (ℕ × Word)) : Prop where
  str : ∀ x ∈ rs, IsStr m'.buf x.1 x.2
  tok : ∀ j x, rs[j]? = some x → m'.tok (i + j) = entry x
  null : m'.tok (i + rs.length) = none
  before : ∀ j < i, m'.tok j = m.tok j
  frame : ∀ x < q, m'.buf x = m.buf x
  size : m'.size = m.size
  cap : m'.cap = m.cap
  calls : m'.calls = m.calls

/-- The first entry, and the others. -/
theorem Took.filled {m1 m2 m3 : Mem} {q2 : ℕ} {x : ℕ × Word} {rs : List (ℕ × Word)}
    (h : Took m m1 q x.1 x.2 rs) (hq : x.1 + x.2.length < q2)
    (htok : m2 = { m1 with tok := update m1.tok i (entry x) })
    (hrs : Filled m2 m3 q2 (i + 1) rs) : Filled m m3 q i (x :: rs) := by
  have htok1 : m1.tok = m.tok := by rw [h.rest]
  have hx : x.1 < q2 := by omega
  subst htok
  refine ⟨?_, ?_, ?_, ?_, ?_, ?_, ?_, ?_⟩
  · intro y hy
    rcases mem_cons.1 hy with rfl | hy
    · exact h.str.congr fun z _ hz => hrs.frame z (by omega)
    · exact hrs.str y hy
  · intro j y hj
    cases j with
    | zero =>
      obtain rfl := Option.some.inj hj
      exact (hrs.before i (Nat.lt_succ_self i)).trans (update_self _ _ _)
    | succ j =>
      rw [Nat.add_comm j, ← Nat.add_assoc]
      exact hrs.tok j y hj
  · rw [length_cons, Nat.add_comm rs.length, ← Nat.add_assoc]
    exact hrs.null
  · intro j hj
    rw [hrs.before j (by omega), ← htok1]
    exact update_of_ne (by omega) _ _
  · intro z hz
    have hle := h.le
    rw [hrs.frame z (by omega)]
    exact h.frame z hz
  · rw [hrs.size, h.rest]
  · rw [hrs.cap, h.rest]
  · rw [hrs.calls, h.rest]

theorem headD_eq_amp : (w.headD 0 = AMP) = (isAmp w = true) := by
  cases w with
  | nil => simp [isAmp, AMP]
  | cons c w => simp [isAmp]

/-- The loop puts the runs that are left into `tok`, if there is room for them. -/
theorem tokLoop_spec {rs : List (ℕ × Word)} {bg : ℕ} (hl : Left m q l m.last)
    (hrs : runs SPACE q l = rs) (hk : rs.length < k) (hcap : i + k = m.cap) :
    wp (tokLoop k i bg) (fun bg' m' => bg' = lastAmp i rs bg ∧ Filled m m' q i rs) E m := by
  induction rs generalizing m q l k i bg with
  | nil =>
    obtain ⟨k, rfl⟩ := Nat.exists_eq_add_of_lt hk
    rw [tokLoop]
    refine wp_seq (strtok_spec (t := none) hl) ?_
    rintro p m' ⟨hnil, -⟩
    obtain ⟨rfl, rfl⟩ := hnil hrs
    rw [wp_bind, wp_setTok (by simp only; omega), wp_pure]
    refine ⟨rfl, by simp, by simp, ?_, ?_, fun _ _ => rfl, rfl, rfl, rfl⟩
    · exact update_self _ _ _
    · intro j hj
      exact update_of_ne (by omega) _ _
  | cons x rs ih =>
    obtain ⟨k, rfl⟩ := Nat.exists_eq_add_of_lt hk
    rw [tokLoop]
    refine wp_seq (strtok_spec (t := none) hl) ?_
    rintro p m1 ⟨-, hcons⟩
    obtain ⟨rfl, htook⟩ := hcons x rs hrs
    obtain ⟨q', l', hleft, hrs', hq'⟩ := htook.left
    have hcap1 : m1.cap = m.cap := by rw [htook.rest]
    have hsize1 : m1.size = m.size := by rw [htook.rest]
    rw [length_cons] at hk hcap
    have hi : i < m1.cap := by omega
    rw [wp_bind, wp_setTok hi]
    dsimp only
    rw [wp_bind, wp_load (hsize1 ▸ htook.size), htook.str.head, lastAmp_cons]
    simp only [headD_eq_amp]
    split_ifs with hamp
    · rw [wp_bind, wp_setTok (by exact hi), update_idem]
      refine wp_mono (ih hleft hrs' (by rw [length_cons]; omega)
        (by simp only [length_cons]; omega)) ?_
      rintro bg' m' ⟨rfl, hfill⟩
      refine ⟨rfl, htook.filled hq' ?_ hfill⟩
      rw [entry, if_pos hamp]
    · refine wp_mono (ih hleft hrs' (by rw [length_cons]; omega)
        (by simp only [length_cons]; omega)) ?_
      rintro bg' m' ⟨rfl, hfill⟩
      refine ⟨rfl, htook.filled hq' ?_ hfill⟩
      rw [entry, if_neg hamp]

/-- The maximal runs of characters other than the space of a line, in order. -/
structure IsRuns (l : List UInt8) (rs : List (ℕ × Word)) : Prop where
  sorted : rs.Pairwise (·.1 < ·.1)
  mem : ∀ p w, (p, w) ∈ rs ↔ IsRun SPACE l p w

theorem isRuns_runs (l : List UInt8) : IsRuns l (runs SPACE 0 l) where
  sorted := pairwise_runs SPACE 0 l
  mem p w := by simp [mem_runs]

/-- There is one list of the maximal runs of a line. -/
theorem IsRuns.eq_runs {rs : List (ℕ × Word)} (h : IsRuns l rs) : rs = runs SPACE 0 l := by
  have : Std.Antisymm fun x y : ℕ × Word => x.1 < y.1 :=
    ⟨fun x y hxy hyx => absurd hyx (Nat.lt_asymm hxy)⟩
  have : Std.Irrefl fun x y : ℕ × Word => x.1 < y.1 := ⟨fun x => Nat.lt_irrefl x.1⟩
  refine h.sorted.eq_of_mem_iff (isRuns_runs l).sorted fun x => ?_
  rw [h.mem x.1 x.2, (isRuns_runs l).mem x.1 x.2]

/-- The runs `rs` of the line are in `tok`. -/
structure Scanned (m m' : Mem) (rs : List (ℕ × Word)) : Prop where
  str : ∀ x ∈ rs, IsStr m'.buf x.1 x.2
  first : m'.tok 0 = rs.head?.map Prod.fst
  tok : ∀ j x, rs[j + 1]? = some x → m'.tok (j + 1) = entry x
  null : m'.tok rs.length = none
  fits : ∀ x ∈ rs, x.1 + x.2.length < m'.size
  room : 0 < m'.cap
  size : m'.size = m.size
  calls : m'.calls = m.calls

/-- The scan for tokens takes the runs of the line. -/
theorem scanTokens_spec {e : Env} (h : IsStr m.buf 0 l) (hsize : l.length < m.size) (hne : l ≠ [])
    (he : e.malloc = true) :
    wp (scanTokens e) (fun bg m' => bg = lastAmp 1 (runs SPACE 0 l).tail 0 ∧
      Scanned m m' (runs SPACE 0 l)) E m := by
  rw [scanTokens]
  refine wp_seq (strlen_spec h hsize) ?_
  rintro _ _ ⟨rfl, rfl⟩
  refine wp_seq (countTok_spec h hsize hne) ?_
  rintro num_tok m ⟨hnum, rfl⟩
  have hlen : (runs SPACE 0 l).length ≤ num_tok := hnum ▸ length_runs_le SPACE 0 l
  rw [if_pos he, wp_bind, wp_modify]
  refine wp_seq (strtok_spec (t := some 0) (q := 0) (l := l) ⟨rfl, h, by simpa using hsize⟩) ?_
  rintro t m1 ⟨hnil, hcons⟩
  cases hrs : runs SPACE 0 l with
  | nil =>
    obtain ⟨rfl, rfl⟩ := hnil hrs
    rw [wp_bind, wp_setTok (Nat.succ_pos _)]
    refine wp_mono (tokLoop_spec (q := 0) (l := []) rfl runs_nil (by simp; omega)
      (Nat.add_comm _ _)) ?_
    rintro bg m' ⟨rfl, hfill⟩
    have h0 : m'.tok 0 = none := (hfill.before 0 Nat.one_pos).trans rfl
    exact ⟨rfl, by simp, h0, by simp, h0, by simp, hfill.cap ▸ Nat.succ_pos _, hfill.size,
      hfill.calls⟩
  | cons x rs =>
    rw [hrs, length_cons] at hlen
    obtain ⟨rfl, htook⟩ := hcons x rs hrs
    obtain ⟨q', l', hleft, hrs', hq'⟩ := htook.left
    have hcap1 : m1.cap = num_tok + 1 := by rw [htook.rest]
    rw [wp_bind, wp_setTok (by omega)]
    refine wp_mono (tokLoop_spec hleft hrs' (by omega) (by simp only; omega)) ?_
    rintro bg m' ⟨rfl, hfill⟩
    have hsize' : m'.size = m.size := by rw [hfill.size, htook.rest]
    refine ⟨rfl, ?_, ?_, ?_, ?_, ?_, ?_, hsize', ?_⟩
    · intro y hy
      rcases mem_cons.1 hy with rfl | hy
      · exact htook.str.congr fun z _ hz => hfill.frame z (by omega)
      · exact hfill.str y hy
    · exact (hfill.before 0 Nat.one_pos).trans rfl
    · intro j y hj
      rw [Nat.add_comm]
      exact hfill.tok j y hj
    · rw [length_cons, Nat.add_comm]
      exact hfill.null
    · intro y hy
      have hle := ((isRuns_runs l).mem y.1 y.2).1 (hrs ▸ hy)
      exact hsize' ▸ Nat.lt_of_le_of_lt hle.add_length_le hsize
    · rw [hfill.cap]
      show 0 < m1.cap
      omega
    · rw [hfill.calls, htook.rest]

/-! ## The last `&` -/

/-- `bg` is the index of the last token after the first that starts with `&`, or zero. -/
def IsLastAmp (rs : List (ℕ × Word)) (bg : ℕ) : Prop :=
  (bg = 0 ∨ 0 < bg ∧ ∃ p w, rs[bg]? = some (p, w) ∧ isAmp w) ∧
    ∀ (j : ℕ) p w, 0 < j → bg < j → rs[j]? = some (p, w) → ¬ isAmp w

/-- The value of `bg` is the one before or an index of a token with `&`, and no later token has
`&`. -/
theorem lastAmp_spec (rs : List (ℕ × Word)) (i bg : ℕ) :
    (lastAmp i rs bg = bg ∧ ∀ (j : ℕ) p w, rs[j]? = some (p, w) → ¬ isAmp w) ∨
      ∃ k : ℕ, lastAmp i rs bg = i + k ∧ (∃ p w, rs[k]? = some (p, w) ∧ isAmp w) ∧
        ∀ (j : ℕ) p w, k < j → rs[j]? = some (p, w) → ¬ isAmp w := by
  induction rs generalizing i bg with
  | nil => exact .inl ⟨rfl, by simp⟩
  | cons x rs ih =>
    rw [lastAmp_cons]
    rcases ih (i + 1) (if isAmp x.2 then i else bg) with ⟨heq, hnone⟩ | ⟨k, heq, hk, hlater⟩
    · by_cases hx : isAmp x.2
      · rw [if_pos hx] at heq ⊢
        refine .inr ⟨0, heq, ⟨x.1, x.2, rfl, hx⟩, ?_⟩
        intro j p w hj hw
        obtain ⟨j, rfl⟩ := Nat.exists_eq_succ_of_ne_zero (Nat.ne_of_gt hj)
        exact hnone j p w hw
      · rw [if_neg hx] at heq ⊢
        refine .inl ⟨heq, ?_⟩
        intro j p w hw
        cases j with
        | zero =>
          obtain rfl := Option.some.inj hw
          exact hx
        | succ j => exact hnone j p w hw
    · refine .inr ⟨k + 1, by rw [heq]; omega, hk, ?_⟩
      intro j p w hj hw
      obtain ⟨j, rfl⟩ := Nat.exists_eq_succ_of_ne_zero (Nat.ne_zero_of_lt hj)
      exact hlater j p w (Nat.lt_of_succ_lt_succ hj) hw

theorem isLastAmp_lastAmp (rs : List (ℕ × Word)) : IsLastAmp rs (lastAmp 1 rs.tail 0) := by
  have htail : ∀ j, rs.tail[j]? = rs[j + 1]? := fun j => by simp
  rcases lastAmp_spec rs.tail 1 0 with ⟨heq, hnone⟩ | ⟨k, heq, hk, hlater⟩
  · rw [heq]
    refine ⟨.inl rfl, fun j p w hj _ hw => ?_⟩
    obtain ⟨j, rfl⟩ := Nat.exists_eq_succ_of_ne_zero (Nat.ne_of_gt hj)
    exact hnone j p w ((htail j).trans hw)
  · rw [heq, Nat.add_comm 1 k]
    refine ⟨.inr ⟨Nat.succ_pos k, htail k ▸ hk⟩, fun j p w _ hj hw => ?_⟩
    obtain ⟨j, rfl⟩ := Nat.exists_eq_succ_of_ne_zero (Nat.ne_zero_of_lt hj)
    exact hlater j p w (Nat.lt_of_succ_lt_succ hj) ((htail j).trans hw)

/-! ## The tokens of the list model -/

/-- The tokens of the list model are the runs. -/
theorem strtoks_eq {fuel : ℕ} (h : l.length < fuel) :
    Xvsh.strtoks fuel (some l) = (runs SPACE q l).map Prod.snd := by
  induction fuel generalizing l q with
  | zero => exact absurd h (Nat.not_lt_zero _)
  | succ fuel ih =>
    rw [Xvsh.strtoks, Xvsh.strtok]
    rcases split_first SPACE l with ⟨n, rfl⟩ | ⟨n, w, r, rfl, hne, hw, hr⟩
    · have hdrop : (List.replicate n SPACE).dropWhile (· = SPACE) = [] := by
        simp
      rw [hdrop, runs_replicate]
      rfl
    · obtain ⟨c, w, rfl⟩ := exists_cons_of_ne_nil hne
      have hc : c ≠ SPACE := fun h0 => hw (by simp [h0])
      have hdrop : (List.replicate n SPACE ++ (c :: w ++ r)).dropWhile (· = SPACE) =
          c :: (w ++ r) := by
        rw [dropWhile_append_of_pos (by simp), cons_append,
          dropWhile_cons_of_neg (by simpa using hc)]
      have htake := takeWhile_append hw hr
      have hrest := dropWhile_append hw hr
      rw [cons_append] at htake hrest
      rw [hdrop]
      dsimp only
      rw [htake, hrest, runs_replicate_append, runs_append hne hw hr, map_cons]
      simp only [length_append, length_cons] at h
      obtain rfl | ⟨r, rfl⟩ := head?_eq_sep hr
      · cases fuel <;> simp [Xvsh.strtoks]
      · rw [length_cons] at h
        dsimp only
        rw [ih (q := q + n + (c :: w).length + 1) (by omega), runs_sep]

theorem parse_bg (line : Xvsh.Line) :
    (Xvsh.parse line).bg = lastAmp 1 (runs SPACE 0 line.chars).tail 0 := by
  rw [Xvsh.parse, strtoks_eq (q := 0) (Nat.lt_succ_self _)]
  cases runs SPACE 0 line.chars with
  | nil => rfl
  | cons x rs =>
    simp [lastAmp, zipIdx_map, foldl_map]

/-- The scan puts the tokens of the list model into `tok`. -/
theorem scanTokens_parse {e : Env} {line : Xvsh.Line} (h : IsStr m.buf 0 line.chars)
    (hsize : line.chars.length < m.size) (hne : line.chars ≠ []) (he : e.malloc = true) :
    wp (scanTokens e) (fun bg m' => bg = (Xvsh.parse line).bg ∧
      ∀ (j : ℕ) t, (Xvsh.parse line).tok[j]? = some t →
        (m'.tok j).map (readStr m'.buf m'.size) = t) E m := by
  refine wp_mono (scanTokens_spec h hsize hne he) ?_
  rintro _ m' ⟨rfl, hscan⟩
  refine ⟨(parse_bg line).symm, fun j t ht => ?_⟩
  have hread : ∀ x ∈ runs SPACE 0 line.chars, readStr m'.buf m'.size x.1 = x.2 := by
    intro x hx
    have hfit := hscan.fits x hx
    exact (hscan.str x hx).readStr_eq (by omega)
  rw [Xvsh.parse, strtoks_eq (q := 0) (Nat.lt_succ_self _)] at ht
  have hfirst := hscan.first
  have htok := hscan.tok
  generalize runs SPACE 0 line.chars = rs at ht hread hfirst htok
  cases rs with
  | nil =>
    cases j with
    | zero =>
      rw [hfirst]
      exact Option.some.inj ht
    | succ j => cases ht
  | cons x rs =>
    cases j with
    | zero =>
      rw [hfirst, ← Option.some.inj ht, ← hread x mem_cons_self]
      rfl
    | succ j =>
      simp only [map_cons, map_map, getElem?_cons_succ, getElem?_map,
        Option.map_eq_some_iff] at ht
      obtain ⟨y, hy, rfl⟩ := ht
      have hstr := hread y (mem_cons_of_mem x (mem_of_getElem? hy))
      rw [htok j y hy, entry, comp_apply]
      split_ifs with hamp
      · rfl
      · rw [Option.map_some, hstr]

def ampLine : Xvsh.Line :=
  ⟨[97, SPACE, AMP], by simp [SPACE, AMP, Xvsh.NEWLINE], by decide⟩

theorem scanTokens_parse_amp :
    ∃ bg m', scanTokens ⟨true, false, 2, true⟩
        ⟨fun i => ampLine.chars.getD i 0, 4, none, fun _ => none, 0, []⟩ = .ok bg m' ∧
      bg = (Xvsh.parse ampLine).bg ∧ ∀ (j : ℕ) t, (Xvsh.parse ampLine).tok[j]? = some t →
        (m'.tok j).map (readStr m'.buf m'.size) = t := by
  have hstr : IsStr (fun i => ampLine.chars.getD i 0) 0 ampLine.chars :=
    ⟨by decide, rfl, by decide⟩
  exact exists_ok_of_wp (scanTokens_parse hstr (by decide) (by decide) rfl)

end Xv6.XvshBuf
