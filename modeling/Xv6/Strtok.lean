import Xv6.XvshTokens

/-!
# `strtok`

What a sequence of calls of `strtok` returns, for any delimiters : the maximal runs of characters
that are not delimiters, from the left, and null after the last one (`strtok_splits`). The calls
read no byte after the null byte of the string. The runs are those of the string with `none` in the
place of its delimiters (`tokens`).
-/

open List

namespace Xv6.XvshBuf

open Prog Cstring Runs

variable {m : Mem} {E : Stop → Mem → Prop} {a delim l r w : List UInt8} {q : ℕ} {c : UInt8}

/-- A character, or `none` if it is a delimiter. -/
def mark (delim : List UInt8) (c : UInt8) : Option UInt8 :=
  if c ∈ delim then none else some c

/-- The maximal runs of characters that are not delimiters, of the string `l` at `q`. -/
def tokens (delim : List UInt8) (q : ℕ) (l : List UInt8) : List (ℕ × List UInt8) :=
  (runs none q (l.map (mark delim))).map fun x => (x.1, x.2.filterMap id)

/-- `k` calls of `strtok`, the first of them with `s` and the others with the null pointer. -/
def strtokCalls (delim : List UInt8) : ℕ → Option ℕ → M (List (Option ℕ))
  | 0, _ => pure []
  | k + 1, s => do
    let p ← strtok s delim
    let ps ← strtokCalls delim k none
    pure (p :: ps)

/-! ## Tokens -/

theorem map_mark_of_mem (h : ∀ c ∈ a, c ∈ delim) :
    a.map (mark delim) = List.replicate a.length none := by
  rw [← map_const']
  exact map_congr_left fun c hc => if_pos (h c hc)

theorem map_mark_of_not_mem (h : ∀ c ∈ w, c ∉ delim) : w.map (mark delim) = w.map some :=
  map_congr_left fun c hc => if_neg (h c hc)

theorem tokens_of_mem (h : ∀ c ∈ a, c ∈ delim) : tokens delim q a = [] := by
  rw [tokens, map_mark_of_mem h, runs_replicate, map_nil]

theorem tokens_cons_of_mem (h : c ∈ delim) : tokens delim q (c :: l) = tokens delim (q + 1) l := by
  rw [tokens, map_cons, mark, if_pos h, runs_sep, tokens]

/-- The first token and the rest. -/
theorem tokens_append (ha : ∀ c ∈ a, c ∈ delim) (hne : w ≠ []) (hw : ∀ c ∈ w, c ∉ delim)
    (hr : ∀ c ∈ r.head?, c ∈ delim) : tokens delim q (a ++ (w ++ r)) =
      (q + a.length, w) :: tokens delim (q + a.length + w.length + 1) r.tail := by
  have hhead : ∀ x ∈ (r.map (mark delim)).head?, x = none := by
    intro x hx
    rw [head?_map, Option.mem_map] at hx
    obtain ⟨c, hc, rfl⟩ := hx
    exact if_pos (hr c hc)
  have hrest : tokens delim (q + a.length + w.length) r =
      tokens delim (q + a.length + w.length + 1) r.tail := by
    cases r with
    | nil => rw [tail_nil, tokens_of_mem (by simp), tokens_of_mem (by simp)]
    | cons c r => exact tokens_cons_of_mem (hr c rfl)
  rw [← hrest, tokens, map_append, map_append, map_mark_of_mem ha,
    map_mark_of_not_mem hw, runs_replicate_append,
    runs_append (by simpa using hne) (by simp) hhead, map_cons, length_map]
  simp [tokens, filterMap_map]

theorem split_token (delim l : List UInt8) :
    (∀ c ∈ l, c ∈ delim) ∨ ∃ a w r, l = a ++ (w ++ r) ∧ (∀ c ∈ a, c ∈ delim) ∧ w ≠ [] ∧
      (∀ c ∈ w, c ∉ delim) ∧ ∀ c ∈ r.head?, c ∈ delim := by
  induction l with
  | nil => exact .inl (by simp)
  | cons c l ih =>
    by_cases hc : c ∈ delim
    · rcases ih with h | ⟨a, w, r, rfl, ha, h⟩
      · exact .inl (forall_mem_cons.2 ⟨hc, h⟩)
      · exact .inr ⟨c :: a, w, r, rfl, forall_mem_cons.2 ⟨hc, ha⟩, h⟩
    · right
      rcases ih with h | ⟨a, w, r, rfl, ha, hne, hw, hr⟩
      · exact ⟨[], [c], l, rfl, by simp, by simp, by simpa using hc,
          fun d hd => h d (mem_of_mem_head? hd)⟩
      · cases a with
        | nil => exact ⟨[], c :: w, r, rfl, by simp, by simp, forall_mem_cons.2 ⟨hc, hw⟩, hr⟩
        | cons d a =>
          exact ⟨[], [c], d :: a ++ (w ++ r), rfl, by simp, by simp, by simpa using hc,
            by simpa using ha d mem_cons_self⟩

theorem map_some_filterMap {u : List (Option UInt8)} (h : none ∉ u) :
    (u.filterMap id).map some = u := by
  induction u with
  | nil => rfl
  | cons x u ih =>
    rw [mem_cons, not_or] at h
    obtain ⟨c, rfl⟩ := Option.ne_none_iff_exists'.1 (Ne.symm h.1)
    exact congrArg (some c :: ·) (ih h.2)

/-- The tokens are the runs between delimiters. -/
theorem mem_tokens {p : ℕ} : (p, w) ∈ tokens delim q l ↔
    ∃ i, p = q + i ∧ IsRun none (l.map (mark delim)) i (w.map some) := by
  rw [tokens, mem_map]
  constructor
  · rintro ⟨⟨p', u⟩, hu, h⟩
    obtain ⟨rfl, rfl⟩ := Prod.mk.inj h
    obtain ⟨i, hi, hrun⟩ := mem_runs.1 hu
    exact ⟨i, hi, by rwa [map_some_filterMap hrun.plain]⟩
  · rintro ⟨i, rfl, hrun⟩
    exact ⟨(q + i, w.map some), mem_runs.2 ⟨i, rfl, hrun⟩, by simp [filterMap_map]⟩

theorem pairwise_tokens (delim : List UInt8) (q : ℕ) (l : List UInt8) :
    (tokens delim q l).Pairwise (·.1 < ·.1) := by
  rw [tokens, pairwise_map]
  exact pairwise_runs none q _

/-! ## The calls -/

/-- The results of `k` calls : the tokens one by one, and then null. -/
def results : ℕ → List (ℕ × List UInt8) → List (Option ℕ)
  | 0, _ => []
  | k + 1, [] => none :: results k []
  | k + 1, x :: ts => some x.1 :: results k ts

/-- The calls return the tokens in order. -/
theorem strtokCalls_spec (h0 : (0 : UInt8) ∉ delim) {k : ℕ} {t : Option ℕ}
    (hl : Left m q l (t <|> m.last)) :
    wp (strtokCalls delim k t) (fun ps m' => ps = results k (tokens delim q l) ∧
      (∀ x ∈ (tokens delim q l).take k, IsStr m'.buf x.1 x.2) ∧
      ∀ x < q, m'.buf x = m.buf x) E m := by
  induction k generalizing m q l t with
  | zero => exact ⟨rfl, by simp, fun _ _ => rfl⟩
  | succ k ih =>
    rw [strtokCalls]
    -- a call that returns null, and then the others
    have hend : tokens delim q l = [] →
        wp (strtok t delim) (fun p m' => p = none ∧ m' = { m with last := none }) E m →
        wp (strtok t delim >>= fun p => strtokCalls delim k none >>= fun ps => pure (p :: ps))
          (fun ps m' => ps = results (k + 1) (tokens delim q l) ∧
            (∀ x ∈ (tokens delim q l).take (k + 1), IsStr m'.buf x.1 x.2) ∧
            ∀ x < q, m'.buf x = m.buf x) E m := by
      intro hnil hcall
      refine wp_seq hcall ?_
      rintro _ _ ⟨rfl, rfl⟩
      refine wp_seq (ih (q := q) (l := []) rfl) ?_
      rintro _ m' ⟨rfl, -, hframe⟩
      rw [hnil, tokens_of_mem (by simp)]
      exact ⟨rfl, by simp, hframe⟩
    cases ht : (t <|> m.last) with
    | none =>
      rw [ht] at hl
      obtain rfl : l = [] := hl
      exact hend (tokens_of_mem (by simp)) (strtok_null ht)
    | some s =>
      rw [ht] at hl
      obtain ⟨rfl, hstr, hsize⟩ := hl
      rcases split_token delim l with ha | ⟨a, w, r, rfl, ha, hne, hw, hr⟩
      · exact hend (tokens_of_mem ha) (strtok_end ht hstr h0 ha hsize)
      · have hpos := length_pos_iff.2 hne
        have htok : IsStr m.buf (s + a.length) (w ++ r) := by
          simpa using hstr.drop (i := a.length) (by simp)
        refine wp_seq (strtok_take ht hstr h0 ha hne hw hr hsize) ?_
        rintro _ _ ⟨rfl, rfl⟩
        rw [length_append] at hsize
        obtain ⟨hcut, hleft, hframe⟩ := cut_spec htok (by omega)
        refine wp_seq (ih (t := none) hleft) ?_
        rintro _ m' ⟨rfl, hrest, hframe'⟩
        rw [tokens_append ha hne hw hr]
        refine ⟨rfl, ?_, fun x hx => ?_⟩
        · rw [take_succ_cons, forall_mem_cons]
          exact ⟨hcut.congr fun x _ hx => hframe' x (by omega), hrest⟩
        · rw [hframe' x (by omega), hframe x (by omega)]

/-- The calls of `strtok` return the maximal runs of characters that are not delimiters, in order
and each a string of its own, and then the null pointer. -/
theorem strtok_splits (delim l : List UInt8) (s : ℕ) (m : Mem) (h0 : (0 : UInt8) ∉ delim)
    (h : IsStr m.buf s l) (hsize : s + l.length < m.size) :
    ∃ ts : List (ℕ × List UInt8),
      (∀ p w, (p, w) ∈ ts ↔
        ∃ i, p = s + i ∧ IsRun none (l.map (mark delim)) i (w.map some)) ∧
      ts.Pairwise (·.1 < ·.1) ∧
      ∀ k, wp (strtokCalls delim k (some s)) (fun ps m' => ps = results k ts ∧
        ∀ x ∈ ts.take k, IsStr m'.buf x.1 x.2) (fun _ _ => False) m :=
  ⟨tokens delim s l, fun _ _ => mem_tokens, pairwise_tokens delim s l, fun _ =>
    wp_mono (strtokCalls_spec h0 ⟨rfl, h, hsize⟩) fun _ _ hp => ⟨hp.1, hp.2.1⟩⟩

/-- The line `a,, b` with commas and spaces as delimiters. -/
theorem strtok_splits_line :
    let m : Mem := ⟨fun i => [97, 44, 44, 32, 98].getD i 0, 6, none, fun _ => none, 0, []⟩
    ∃ ts : List (ℕ × List UInt8),
      (∀ p w, (p, w) ∈ ts ↔
        ∃ i, p = 0 + i ∧ IsRun none ([97, 44, 44, 32, 98].map (mark [44, 32])) i (w.map some)) ∧
      ts.Pairwise (·.1 < ·.1) ∧
      ∀ k, wp (strtokCalls [44, 32] k (some 0)) (fun ps m' => ps = results k ts ∧
        ∀ x ∈ ts.take k, IsStr m'.buf x.1 x.2) (fun _ _ => False) m :=
  strtok_splits [44, 32] [97, 44, 44, 32, 98] 0 _ (by decide)
    ⟨by decide, by decide, by decide⟩ (by decide)

end Xv6.XvshBuf
