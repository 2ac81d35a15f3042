import Mathlib.Data.List.Basic
import Xv6.Grep

/-!
# The lines `grep` writes

The input of `grep` is a list of lines, and `read` returns it in chunks. A turn of the loop goes
through the lines that end in the chunk and carries the start of the next one over (`turn_lines`),
unless no line ends in the chunk : then the loop empties the buffer, and what it held of the line is
lost (`turn_none`). So the lines that match are written, whole and in order, for every pattern if
and only if every chunk has a newline in it (`grep_writes_iff`, `grep_loses_line`).
-/

open Function Cstring List

namespace Xv6.Grep

/-! ## Lines -/

/-- Lines, each with a newline after it. -/
def text (lines : List Str) : List UInt8 :=
  lines.flatMap (· ++ [NEWLINE])

section

variable {l rest : Str} {lines ls : List Str}

@[simp] theorem text_nil : text [] = [] :=
  rfl

@[simp] theorem text_cons (l : Str) (lines : List Str) :
    text (l :: lines) = l ++ NEWLINE :: text lines := by
  rw [text, flatMap_cons, append_assoc]
  rfl

@[simp] theorem text_append (ls lines : List Str) : text (ls ++ lines) = text ls ++ text lines :=
  flatMap_append

theorem length_le_text : ∀ lines : List Str, lines.length ≤ (text lines).length
  | [] => Nat.le_refl 0
  | l :: lines => by
    have := length_le_text lines
    rw [text_cons, length_append, length_cons, length_cons]
    omega

theorem newline_mem_text (h : lines ≠ []) : NEWLINE ∈ text lines := by
  obtain ⟨l, lines, rfl⟩ := exists_cons_of_ne_nil h
  rw [text_cons]
  exact mem_append_right l mem_cons_self

theorem exists_lines : ∀ l : List UInt8, ∃ lines rest, l = text lines ++ rest ∧
    (∀ x ∈ lines, NEWLINE ∉ x) ∧ NEWLINE ∉ rest
  | [] => ⟨[], [], rfl, fun _ h => absurd h not_mem_nil, not_mem_nil⟩
  | c :: l => by
    obtain ⟨lines, rest, rfl, hlines, hrest⟩ := exists_lines l
    by_cases hc : NEWLINE = c
    · subst hc
      refine ⟨[] :: lines, rest, by simp, ?_, hrest⟩
      rw [forall_mem_cons]
      exact ⟨not_mem_nil, hlines⟩
    · have hcons : ∀ {x : Str}, NEWLINE ∉ x → NEWLINE ∉ c :: x := fun hx hmem =>
        (mem_cons.1 hmem).elim hc hx
      cases lines with
      | nil => exact ⟨[], c :: rest, rfl, hlines, hcons hrest⟩
      | cons x xs =>
        rw [forall_mem_cons] at hlines
        refine ⟨(c :: x) :: xs, rest, by simp, ?_, hrest⟩
        rw [forall_mem_cons]
        exact ⟨hcons hlines.1, hlines.2⟩

theorem line_inj : ∀ {l l' a b : List UInt8}, NEWLINE ∉ l → NEWLINE ∉ l' →
    l ++ NEWLINE :: a = l' ++ NEWLINE :: b → l = l' ∧ a = b
  | [], [], _, _, _, _, h => ⟨rfl, (List.cons.inj h).2⟩
  | [], _ :: _, _, _, _, hl', h => absurd ((List.cons.inj h).1 ▸ mem_cons_self) hl'
  | _ :: _, [], _, _, hl, _, h => absurd ((List.cons.inj h).1 ▸ mem_cons_self) hl
  | c :: l, c' :: l', a, b, hl, hl', h => by
    obtain ⟨rfl, htail⟩ := List.cons.inj h
    rw [mem_cons, not_or] at hl hl'
    obtain ⟨rfl, hab⟩ := line_inj hl.2 hl'.2 htail
    exact ⟨rfl, hab⟩

theorem eq_append_of_text : ∀ {ls lines : List Str} {x : List UInt8}, text ls ++ x = text lines →
    (∀ l ∈ ls, NEWLINE ∉ l) → (∀ l ∈ lines, NEWLINE ∉ l) →
    ∃ lines', lines = ls ++ lines' ∧ x = text lines'
  | [], lines, _, h, _, _ => ⟨lines, rfl, h⟩
  | l :: ls, [], x, h, _, _ => by
    rw [text_cons, text_nil, append_assoc] at h
    exact absurd (append_eq_nil_iff.1 h).2 (cons_ne_nil _ _)
  | l :: ls, l' :: lines, x, h, hls, hlines => by
    rw [forall_mem_cons] at hls hlines
    rw [text_cons, text_cons, append_assoc, cons_append] at h
    obtain ⟨rfl, h'⟩ := line_inj hls.1 hlines.1 h
    obtain ⟨lines', rfl, hx⟩ := eq_append_of_text h' hls.2 hlines.2
    exact ⟨lines', rfl, hx⟩

end

/-! ## A turn of the loop -/

section

variable {re : Str} {buf : ℕ → UInt8} {s : State} {c chunk : List UInt8} {lines : List Str}
  {rest : Str}

theorem memmove_apply : ∀ (n : ℕ) (buf : ℕ → UInt8) {dst src : ℕ}, dst ≤ src → ∀ i,
    memmove buf dst src n i = if dst ≤ i ∧ i < dst + n then buf (src + (i - dst)) else buf i
  | 0, buf, dst, src, _, i => (if_neg (by omega)).symm
  | n + 1, buf, dst, src, h, i => by
    rw [memmove, Memmove.copyUp, ← memmove, memmove_apply n _ (Nat.succ_le_succ h)]
    by_cases hi : i = dst
    · subst hi
      rw [if_neg (by omega), if_pos (by omega), update_self, Nat.sub_self, Nat.add_zero]
    · by_cases hin : dst ≤ i ∧ i < dst + (n + 1)
      · rw [if_pos (by omega), if_pos hin, update_of_ne (by omega)]
        congr 1
        omega
      · rw [if_neg (by omega), if_neg hin, update_of_ne hi]

/-- The inner loop writes the lines that match and stops at the rest. -/
theorem lineLoop_spec (re : Str) : ∀ (lines : List Str) (fuel : ℕ) {buf : ℕ → UInt8}
    (out : List UInt8) {p : ℕ}, IsStr buf p (text lines ++ rest) → (∀ l ∈ lines, NEWLINE ∉ l) →
    NEWLINE ∉ rest → lines.length < fuel → p + (text lines ++ rest).length < BUFSIZE →
    ∃ buf', lineLoop re fuel buf out p =
        (buf', out ++ text (lines.filter (matchre re)), p + (text lines).length) ∧
      IsStr buf' (p + (text lines).length) rest
  | [], fuel + 1, buf, out, p, h, _, hrest, _, _ => by
    refine ⟨buf, ?_, h⟩
    rw [lineLoop, h.strchr_eq_none hrest]
    simp
  | l :: lines, fuel + 1, buf, out, p, h, hlines, hrest, hfuel, hlen => by
    rw [forall_mem_cons] at hlines
    rw [text_cons, append_assoc, cons_append] at h hlen
    rw [length_append, length_cons] at hlen
    have hq := h.strchr_eq_some (n := BUFSIZE - p) hlines.1 (by omega)
    -- the line, as `match` sees it
    have hline : readStr (update buf (p + l.length) 0) (BUFSIZE - p) p = l := by
      have hcut := h.cut (i := l.length) (by rw [length_append]; omega)
      rw [take_left'  rfl] at hcut
      exact hcut.readStr_eq (by omega)
    have hnext : IsStr buf (p + l.length + 1) (text lines ++ rest) := by
      have hdrop := h.drop (i := l.length + 1) (by
        rw [length_append, length_cons]
        omega)
      rwa [drop_append, drop_of_length_le (by omega), Nat.add_sub_cancel_left,
        nil_append, drop_succ_cons, drop_zero, ← Nat.add_assoc] at hdrop
    have hfuel' : lines.length < fuel := by
      rw [length_cons] at hfuel
      omega
    have hlen' : p + l.length + 1 + (text lines ++ rest).length < BUFSIZE := by omega
    have hsum : p + l.length + 1 + (text lines).length = p + (text (l :: lines)).length := by
      rw [text_cons, length_append, length_cons]
      omega
    rw [lineLoop, hq]
    dsimp only
    rw [hline, ← hsum]
    by_cases hm : matchre re l = true
    · rw [if_pos hm, update_idem]
      have hself : update buf (p + l.length) NEWLINE = buf := by
        rw [update_eq_self_iff, h.char l.length (by simp)]
        simp
      have hbytes : (List.range (p + l.length + 1 - p)).map (fun i => buf (p + i)) =
          l ++ [NEWLINE] := by
        refine ext_getElem (by simp; omega) fun i hi _ => ?_
        rw [length_map, length_range] at hi
        have happ : l ++ NEWLINE :: (text lines ++ rest) = l ++ [NEWLINE] ++ (text lines ++ rest) :=
          append_cons _ _ _
        rw [happ] at h
        rw [getElem_map, getElem_range, h.char i (by simp; omega),
          getElem_append_left (by simp; omega)]
      obtain ⟨buf', hloop, hrest'⟩ :=
        lineLoop_spec re lines fuel (out ++ (l ++ [NEWLINE])) hnext hlines.2 hrest hfuel' hlen'
      rw [hself, hbytes, hloop]
      refine ⟨buf', ?_, hrest'⟩
      rw [filter_cons_of_pos hm, text_cons]
      simp
    · rw [if_neg hm, filter_cons_of_neg hm]
      exact lineLoop_spec re lines fuel out (hnext.update (.inl (by omega)) 0) hlines.2 hrest
        hfuel' hlen'

/-- The buffer holds `a`, the start of a line. -/
structure Carries (s : State) (a : List UInt8) : Prop where
  m : s.m = a.length
  byte : ∀ i (hi : i < a.length), s.buf i = a[i]
  line : NEWLINE ∉ a
  plain : (0 : UInt8) ∉ a

theorem Carries.filled (h : Carries s c) (hchunk : (0 : UInt8) ∉ chunk) :
    IsStr (update (store s.buf s.m chunk) (s.m + chunk.length) 0) 0 (c ++ chunk) where
  char i hi := by
    rw [length_append] at hi
    rw [Nat.zero_add, update_of_ne (by rw [h.m]; omega), store, h.m]
    by_cases hic : i < c.length
    · rw [dif_neg (by omega), getElem_append_left hic, h.byte i hic]
    · rw [dif_pos (by omega), getElem_append_right (by omega)]
  null := by
    rw [Nat.zero_add, length_append, h.m]
    exact update_self _ _ _
  plain hmem := (mem_append.1 hmem).elim h.plain hchunk

theorem carries_carry {m p : ℕ} {out : List UInt8} (hp : p ≠ 0) (hm : m = p + rest.length)
    (h : IsStr buf p rest) (hline : NEWLINE ∉ rest) :
    Carries (carry buf out m p) rest ∧ (carry buf out m p).out = out := by
  have hcarry : carry buf out m p = ⟨memmove buf 0 p (m - p), m - p, out⟩ := by
    simp only [carry, if_neg hp]
    rw [if_pos (by omega)]
  have hlen : m - p = rest.length := by omega
  rw [hcarry, hlen]
  refine ⟨⟨rfl, fun i hi => ?_, hline, h.plain⟩, rfl⟩
  show memmove buf 0 p rest.length i = rest[i]
  rw [memmove_apply _ _ (Nat.zero_le p), if_pos (by omega), Nat.sub_zero]
  exact h.char i hi

variable (h : Carries s c) (hchunk : (0 : UInt8) ∉ chunk) (hne : chunk ≠ [])
  (hreq : chunk.length ≤ request s)
include h hchunk hne hreq

theorem Carries.lineLoop (re : Str) (hsplit : c ++ chunk = text lines ++ rest)
    (hlines : ∀ l ∈ lines, NEWLINE ∉ l) (hrest : NEWLINE ∉ rest) :
    ∃ buf, turn re s chunk = carry buf (s.out ++ text (lines.filter (matchre re)))
        (s.m + chunk.length) (text lines).length ∧ IsStr buf (text lines).length rest := by
  have hstr := h.filled hchunk
  have hlen := congrArg List.length hsplit
  rw [length_append, length_append] at hlen
  have hpos := length_pos_iff.2 hne
  have hshort : c.length + chunk.length < BUFSIZE := by
    rw [request, h.m] at hreq
    omega
  have hle := length_le_text lines
  rw [hsplit] at hstr
  obtain ⟨buf, hloop, hbuf⟩ := lineLoop_spec re lines BUFSIZE s.out hstr hlines hrest (by omega)
    (by rw [length_append]; omega)
  rw [Nat.zero_add] at hloop hbuf
  refine ⟨buf, ?_, hbuf⟩
  rw [turn, hloop]

/-- A chunk that completes lines prints those that match. -/
theorem turn_lines (re : Str) (hsplit : c ++ chunk = text lines ++ rest)
    (hlines : ∀ l ∈ lines, NEWLINE ∉ l) (hrest : NEWLINE ∉ rest) (hsome : lines ≠ []) :
    Carries (turn re s chunk) rest ∧
      (turn re s chunk).out = s.out ++ text (lines.filter (matchre re)) := by
  obtain ⟨buf, hturn, hbuf⟩ := h.lineLoop hchunk hne hreq re hsplit hlines hrest
  have hlen := congrArg List.length hsplit
  rw [length_append, length_append] at hlen
  rw [hturn]
  refine carries_carry ?_ (by rw [h.m, hlen]) hbuf hrest
  exact Nat.ne_of_gt (length_pos_of_mem (newline_mem_text hsome))

/-- A chunk that completes no line is dropped. -/
theorem turn_none (re : Str) (hnone : NEWLINE ∉ chunk) :
    Carries (turn re s chunk) [] ∧ (turn re s chunk).out = s.out := by
  have hrest : NEWLINE ∉ c ++ chunk := fun hmem => (mem_append.1 hmem).elim h.line hnone
  have hsplit : c ++ chunk = text [] ++ (c ++ chunk) := rfl
  obtain ⟨buf, hturn, -⟩ := h.lineLoop hchunk hne hreq re hsplit
    (fun _ hl => absurd hl not_mem_nil) hrest
  rw [hturn]
  refine ⟨⟨rfl, fun _ hi => absurd hi (Nat.not_lt_zero _), not_mem_nil, not_mem_nil⟩, ?_⟩
  exact append_nil _

end

/-! ## The whole input -/

section

variable {c : List UInt8} {chunks : List (List UInt8)} {lines : List Str} {s : State}

/-- Over all chunks the lines that match are printed. -/
theorem grep_lines (re : Str) : ∀ {chunks : List (List UInt8)} {c : List UInt8} {lines : List Str}
    {s : State}, Carries s c → Reads re s chunks → (∀ chunk ∈ chunks, NEWLINE ∈ chunk) →
    (∀ l ∈ lines, 0 ∉ l ∧ NEWLINE ∉ l) → c ++ chunks.flatten = text lines →
    (grep re chunks s).out = s.out ++ text (lines.filter (matchre re))
  | [], c, lines, s, h, _, _, hlines, htext => by
    rw [flatten_nil, append_nil] at htext
    cases lines with
    | nil => exact (append_nil _).symm
    | cons l lines => exact absurd (htext ▸ newline_mem_text (cons_ne_nil l lines)) h.line
  | chunk :: chunks, c, lines, s, h, hreads, hnl, hlines, htext => by
    obtain ⟨hne, hreq, hreads⟩ := hreads
    rw [forall_mem_cons] at hnl
    rw [flatten_cons, ← append_assoc] at htext
    have hplain : (0 : UInt8) ∉ chunk := fun hmem => by
      have hzero : (0 : UInt8) ∈ text lines := by
        rw [← htext]
        exact mem_append_left _ (mem_append_right c hmem)
      obtain ⟨l, hl, hmem⟩ := mem_flatMap.1 hzero
      rcases mem_append.1 hmem with hmem | hmem
      · exact (hlines l hl).1 hmem
      · exact absurd (mem_singleton.1 hmem) (by decide)
    obtain ⟨ls, rest, hsplit, hls, hrest⟩ := exists_lines (c ++ chunk)
    rw [hsplit, append_assoc] at htext
    obtain ⟨lines, rfl, htext'⟩ := eq_append_of_text htext hls fun l hl => (hlines l hl).2
    have hsome : ls ≠ [] := by
      rintro rfl
      rw [text_nil, nil_append] at hsplit
      exact hrest (hsplit ▸ mem_append_right c hnl.1)
    obtain ⟨h', hout⟩ := turn_lines h hplain hne hreq re hsplit hls hrest hsome
    rw [grep, grep_lines re h' hreads hnl.2 (fun l hl => hlines l (mem_append_right ls hl))
      htext', hout, filter_append, text_append, append_assoc]

theorem matchre_nil (l : Str) : matchre [] l = true := by
  cases l <;> rfl

theorem length_grep_le : ∀ {chunks : List (List UInt8)} {c : List UInt8} {s : State},
    Carries s c → Reads [] s chunks → (∀ chunk ∈ chunks, (0 : UInt8) ∉ chunk) →
    (grep [] chunks s).out.length ≤ s.out.length + (c ++ chunks.flatten).length ∧
    ((∃ chunk ∈ chunks, NEWLINE ∉ chunk) →
      (grep [] chunks s).out.length < s.out.length + (c ++ chunks.flatten).length)
  | [], c, s, _, _, _ => by
    refine ⟨Nat.le_add_right _ _, ?_⟩
    rintro ⟨_, hmem, -⟩
    exact absurd hmem not_mem_nil
  | chunk :: chunks, c, s, h, hreads, hplain => by
    obtain ⟨hne, hreq, hreads⟩ := hreads
    rw [forall_mem_cons] at hplain
    have hpos := length_pos_iff.2 hne
    rw [grep, flatten_cons, ← append_assoc, length_append]
    by_cases hnl : NEWLINE ∈ chunk
    · obtain ⟨ls, rest, hsplit, hls, hrest⟩ := exists_lines (c ++ chunk)
      have hsome : ls ≠ [] := by
        rintro rfl
        rw [text_nil, nil_append] at hsplit
        exact hrest (hsplit ▸ mem_append_right c hnl)
      obtain ⟨h', hout⟩ := turn_lines h hplain.1 hne hreq [] hsplit hls hrest hsome
      obtain ⟨hle, hlt⟩ := length_grep_le h' hreads hplain.2
      have hfilter : ls.filter (matchre []) = ls := filter_eq_self.2 fun l _ => matchre_nil l
      rw [hout, hfilter, length_append, length_append] at hle hlt
      rw [hsplit, length_append]
      refine ⟨by omega, ?_⟩
      rintro ⟨x, hx, hxnl⟩
      rcases mem_cons.1 hx with rfl | hx
      · exact absurd hnl hxnl
      · have := hlt ⟨x, hx, hxnl⟩
        omega
    · obtain ⟨h', hout⟩ := turn_none h hplain.1 hne hreq [] hnl
      obtain ⟨hle, -⟩ := length_grep_le h' hreads hplain.2
      rw [hout, nil_append] at hle
      rw [length_append]
      exact ⟨by omega, fun _ => by omega⟩

theorem carries_start : Carries start [] :=
  ⟨rfl, fun _ hi => absurd hi (Nat.not_lt_zero _), not_mem_nil, not_mem_nil⟩

/-- However `read` splits the lines, `grep` writes those that match, whole and in order, for every
pattern, if and only if a line ends in each chunk. -/
theorem grep_writes_iff (hlines : ∀ l ∈ lines, 0 ∉ l ∧ NEWLINE ∉ l)
    (hinput : chunks.flatten = text lines) (hreads : ∀ re, Reads re start chunks) :
    (∀ re, (grep re chunks start).out = text (lines.filter (matchre re))) ↔
      ∀ chunk ∈ chunks, NEWLINE ∈ chunk := by
  constructor
  · intro hall
    by_contra hno
    rw [not_forall] at hno
    obtain ⟨chunk, hno⟩ := hno
    obtain ⟨hmem, hnl⟩ := Classical.not_imp.1 hno
    have hplain : ∀ chunk ∈ chunks, (0 : UInt8) ∉ chunk := fun x hx hzero => by
      have hin : (0 : UInt8) ∈ text lines := by
        rw [← hinput]
        exact mem_flatten.2 ⟨x, hx, hzero⟩
      obtain ⟨l, hl, hmem⟩ := mem_flatMap.1 hin
      rcases mem_append.1 hmem with hmem | hmem
      · exact (hlines l hl).1 hmem
      · exact absurd (mem_singleton.1 hmem) (by decide)
    have hlt := (length_grep_le carries_start (hreads []) hplain).2 ⟨chunk, hmem, hnl⟩
    have hfilter : lines.filter (matchre []) = lines :=
      filter_eq_self.2 fun l _ => matchre_nil l
    rw [hall [], hfilter, nil_append, hinput] at hlt
    exact absurd hlt (by simp [start])
  · intro hnl re
    exact grep_lines re carries_start (hreads re) hnl hlines hinput

end

/-- The lines `b` and `ab` in two chunks, with `a` at the end of the first. -/
theorem grep_writes_split :
    (grep [97] [[98, 10, 97], [98, 10]] start).out =
      text ([[98], [97, 98]].filter (matchre [97])) := by
  have hlines : ∀ l ∈ [[98], [97, 98]], (0 : UInt8) ∉ l ∧ NEWLINE ∉ l := by decide
  have hreads : ∀ re, Reads re start [[98, 10, 97], [98, 10]] := fun re => by
    have hturn := turn_lines carries_start (show 0 ∉ [98, 10, 97] by decide) (by decide)
      (by decide) re (show [] ++ [98, 10, 97] = text [[98]] ++ [97] from rfl) (by decide)
      (by decide) (by decide)
    refine ⟨by decide, by decide, by decide, ?_, trivial⟩
    rw [request, hturn.1.m]
    decide
  have hinput : [[98, 10, 97], [98, 10]].flatten = text [[98], [97, 98]] := rfl
  exact (grep_writes_iff hlines hinput hreads).2 (by decide) [97]

/-- The line `ab` matches `a`. When `read` returns its two characters one after the other, it is not
written. -/
theorem grep_loses_line : Reads [97] start [[97], [98, 10]] ∧
    [[97], [98, 10]].flatten = text [[97, 98]] ∧
    text ([[97, 98]].filter (matchre [97])) = [97, 98, 10] ∧
    (grep [97] [[97], [98, 10]] start).out = [] := by
  refine ⟨⟨by decide, by decide, by decide, ?_, trivial⟩, rfl, rfl, ?_⟩
  · decide +kernel
  · decide +kernel

end Xv6.Grep
