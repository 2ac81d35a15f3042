import Mathlib.Logic.Function.Iterate
import Mathlib.Order.Nat
import Xv6.Sh

/-!
# The grammar of `sh`

    line  ::= pipe '&'* [ ';' line ]
    pipe  ::= exec [ '|' pipe ]
    exec  ::= '(' line ')' redir* | redir* ( word redir* )*
    redir ::= ( '<' | '>' | '>>' ) word

over the tokens that `gettoken` delimits, with fewer than `MAXARGS` words in a simple
command. `Derives` is the grammar, with the tree of each derivation : what the parser returns is a
tree of the tokens it read (`parseline_sound`), and on tokens with a tree it returns that tree
(`parseline_complete`). The parser sees the text through `peek` and `gettoken` only, so both are
proved about the tokens that are left.
-/

open List

namespace Xv6.Sh

open Prog

/-! ## The tokens of a text -/

section

/-- The tokens that at most `n` calls of `gettoken` return. -/
def lexN : ℕ → Str → List Tok
  | 0, _ => []
  | n + 1, s =>
    match token (skip s) with
    | none => []
    | some (t, r) => t :: lexN n r

/-- The tokens of a text. -/
def lex (s : Str) : List Tok :=
  lexN s.length s

variable {s s' r : Str} {t : Tok} {ts us : List Tok} {toks : Str}

theorem skip_length (s : Str) : (skip s).length ≤ s.length :=
  (dropWhile_suffix _).length_le

theorem skip_of_not_mem {c : UInt8} (hc : c ∉ whitespace) : skip (c :: s) = c :: s := by
  simp [skip, hc]

theorem head_skip {c : UInt8} (h : skip s = c :: r) : c ∉ whitespace := by
  have hd := head?_dropWhile_not (whitespace.contains ·) s
  rw [show s.dropWhile (whitespace.contains ·) = c :: r from h] at hd
  simpa using hd

@[simp] theorem skip_skip (s : Str) : skip (skip s) = skip s := by
  cases h : skip s with
  | nil => rfl
  | cons c r => exact skip_of_not_mem (head_skip h)

/-- The character of an operator; `'>>'` starts with that of `'>'`. -/
def Tok.sym : Tok → Option UInt8
  | .bar => some BAR
  | .lpar => some LPAR
  | .rpar => some RPAR
  | .semi => some SEMI
  | .amp => some AMP
  | .lt => some LT
  | .gt => some GT
  | .gtgt => some GT
  | .word _ => none

theorem token_word {c : UInt8} (hc : c ∉ symbols) :
    token (c :: s) = some (.word ((c :: s).takeWhile plain), (c :: s).dropWhile plain) := by
  simp only [symbols, mem_cons, not_mem_nil, or_false, not_or] at hc
  obtain ⟨hlt, hbar, hgt, hamp, hsemi, hlpar, hrpar⟩ := hc
  simp [token, hlt, hbar, hgt, hamp, hsemi, hlpar, hrpar]

theorem token_symbol {c : UInt8} (hc : c ∈ symbols) :
    ∃ t r, token (c :: s) = some (t, r) ∧ t.sym = some c ∧ r.length ≤ s.length := by
  simp only [symbols, mem_cons, not_mem_nil, or_false] at hc
  rcases hc with rfl | rfl | rfl | rfl | rfl | rfl | rfl
  case inr.inr.inl =>
    cases s with
    | nil => exact ⟨.gt, [], rfl, rfl, le_rfl⟩
    | cons d s =>
      by_cases hd : d = GT
      · exact ⟨.gtgt, s, if_pos hd, rfl, Nat.le_succ _⟩
      · exact ⟨.gt, d :: s, if_neg hd, rfl, le_rfl⟩
  all_goals exact ⟨_, s, rfl, rfl, le_rfl⟩

theorem exists_token {c : UInt8} (hc : c ∉ whitespace) :
    ∃ t r, token (c :: s) = some (t, r) ∧ r.length ≤ s.length ∧
      ∀ d ∈ symbols, t.sym = some d ↔ c = d := by
  by_cases hs : c ∈ symbols
  · obtain ⟨t, r, ht, hsym, hr⟩ := token_symbol (s := s) hs
    exact ⟨t, r, ht, hr, fun d _ => by simp [hsym]⟩
  · refine ⟨_, _, token_word hs, ?_, fun d hd => ?_⟩
    · have hp : plain c = true := by simp [plain, hc, hs]
      rw [dropWhile_cons_of_pos hp]
      exact (dropWhile_suffix _).length_le
    · simp only [Tok.sym, reduceCtorEq, false_iff]
      rintro rfl
      exact hs hd

theorem skip_cases (s : Str) :
    skip s = [] ∨ ∃ c r t r', skip s = c :: r ∧ token (c :: r) = some (t, r') ∧
      r'.length < s.length ∧ ∀ d ∈ symbols, t.sym = some d ↔ c = d := by
  cases h : skip s with
  | nil => exact .inl rfl
  | cons c r =>
    obtain ⟨t, r', ht, hr, hsym⟩ := exists_token (s := r) (head_skip h)
    have hl := skip_length s
    rw [h, length_cons] at hl
    exact .inr ⟨c, r, t, r', rfl, ht, by omega, hsym⟩

theorem lexN_of_le {n : ℕ} (h : s.length ≤ n) : lexN n s = lex s := by
  suffices hgen : ∀ m n s, s.length ≤ m → s.length ≤ n → lexN m s = lexN n s from
    hgen n s.length s h le_rfl
  intro m
  induction m with
  | zero =>
    intro n s hm _
    obtain rfl : s = [] := length_eq_zero_iff.1 (Nat.le_zero.1 hm)
    cases n <;> rfl
  | succ m ih =>
    intro n s hm hn
    obtain h0 | ⟨c, r, t, r', hs, ht, hl, -⟩ := skip_cases s
    · cases n <;> simp [lexN, h0, token]
    · obtain ⟨n, rfl⟩ : ∃ k, n = k + 1 := ⟨n - 1, by omega⟩
      simp only [lexN, hs, ht]
      rw [ih n r' (by omega) (by omega)]

theorem lex_nil (h : skip s = []) : lex s = [] := by
  rw [← lexN_of_le (Nat.le_succ s.length)]
  simp [lexN, h, token]

/-- The first token, and those of the rest. -/
theorem lex_cons (h : token (skip s) = some (t, r)) (hr : r.length < s.length) :
    lex s = t :: lex r := by
  rw [← lexN_of_le (Nat.le_succ s.length)]
  simp only [lexN, h]
  rw [lexN_of_le hr.le]

@[simp] theorem lex_skip (s : Str) : lex (skip s) = lex s := by
  obtain h | ⟨c, r, t, r', hs, ht, hl, -⟩ := skip_cases s
  · rw [lex_nil h, h]
    rfl
  · obtain h | ⟨c1, r1, t1, r1', hs1, ht1, hl1, -⟩ := skip_cases (skip s)
    · rw [skip_skip, hs] at h
      cases h
    · rw [skip_skip, hs] at hs1
      cases hs1
      rw [ht] at ht1
      cases ht1
      rw [lex_cons (by rw [hs, ht]) hl, lex_cons (by rw [skip_skip, hs, ht]) hl1]

theorem lex_length (s : Str) : (lex s).length ≤ s.length := by
  suffices h : ∀ n s, (lexN n s).length ≤ n from h _ s
  intro n
  induction n with
  | zero => exact fun _ => le_rfl
  | succ n ih =>
    intro s
    simp only [lexN]
    split
    · exact Nat.zero_le _
    · exact Nat.succ_le_succ (ih _)

/-! ## The parser sees the tokens -/

/-- The first token is an operator that starts with a character of `toks`. -/
def peeks (toks : Str) : List Tok → Bool
  | [] => false
  | t :: _ => t.sym.any (toks.contains ·)

/-- `peek` tells whether the first token is one of `toks`. -/
theorem wp_peek {Q : Bool → Str → Prop} {E : Err → Str → Prop} (hs : lex s = ts)
    (htoks : toks ⊆ symbols) (h : ∀ s', lex s' = ts → Q (peeks toks ts) s') :
    wp (peek toks) Q E s := by
  have hQ := h (skip s) (by rw [lex_skip, hs])
  simp only [peek, wp_bind, wp_modify, wp_get]
  obtain h0 | ⟨c, r, t, r', hc, ht, hl, hsym⟩ := skip_cases s
  · rw [lex_nil h0] at hs
    subst hs
    rw [h0] at hQ ⊢
    exact hQ
  · rw [lex_cons (by rw [hc, ht]) hl] at hs
    subst hs
    rw [hc] at hQ ⊢
    have hp : peeks toks (t :: lex r') = toks.contains c := by
      rw [Bool.eq_iff_iff]
      simp only [peeks, Option.any_eq_true, contains_iff_mem]
      constructor
      · rintro ⟨d, hd, hmem⟩
        rw [(hsym d (htoks hmem)).1 hd]
        exact hmem
      · exact fun hmem => ⟨c, (hsym c (htoks hmem)).2 rfl, hmem⟩
    rw [hp] at hQ
    exact hQ

theorem wp_gettoken_nil {Q : Option Tok → Str → Prop} {E : Err → Str → Prop} (hs : lex s = [])
    (h : ∀ s', lex s' = [] → Q none s') : wp gettoken Q E s := by
  simp only [gettoken, wp_bind, wp_get]
  obtain h0 | ⟨c, r, t, r', hc, ht, hl, -⟩ := skip_cases s
  · rw [h0]
    exact h [] rfl
  · rw [lex_cons (by rw [hc, ht]) hl] at hs
    cases hs

/-- `gettoken` returns the first token. -/
theorem wp_gettoken_cons {Q : Option Tok → Str → Prop} {E : Err → Str → Prop}
    (hs : lex s = t :: ts) (h : ∀ s', lex s' = ts → Q (some t) s') : wp gettoken Q E s := by
  simp only [gettoken, wp_bind, wp_get]
  obtain h0 | ⟨c, r, t, r', hc, ht, hl, -⟩ := skip_cases s
  · rw [lex_nil h0] at hs
    cases hs
  · rw [lex_cons (by rw [hc, ht]) hl] at hs
    cases hs
    rw [hc, ht]
    exact h (skip r') (lex_skip r')

theorem Tok.eq_of_sym {op : Tok} {x : UInt8} (hop : op.sym = some x) (hx : x ≠ GT)
    (ht : t.sym = some x) : t = op := by
  cases op <;> cases hop <;> cases t <;>
    first | rfl | exact absurd rfl hx | exact absurd (Option.some.inj ht) (by decide) | cases ht

/-- An operator that may follow is read if it does. -/
theorem wp_accept {α : Type} {m m' : P α} {Q : α → Str → Prop} {E : Err → Str → Prop}
    (op : Tok) {x : UInt8} (hop : op.sym = some x) (hx : x ∈ symbols ∧ x ≠ GT) (hs : lex s = ts)
    (hyes : ∀ us s', ts = op :: us → lex s' = us → wp m Q E s')
    (hno : ∀ s', peeks [x] ts = false → lex s' = ts → wp m' Q E s') :
    wp (do if ← peek [x] then (do let _ ← gettoken; m) else m') Q E s := by
  refine wp_bind.2 (wp_peek hs (cons_subset.2 ⟨hx.1, nil_subset _⟩) fun s1 h1 =>
    wp_ite.2 ⟨fun hp => ?_, fun hp => hno s1 (by simpa using hp) h1⟩)
  cases ts with
  | nil => cases hp
  | cons t ts =>
    obtain rfl : t = op := by
      obtain ⟨d, hd, hmem⟩ := (Option.any_eq_true _ _).1 hp
      refine Tok.eq_of_sym hop hx.2 ?_
      rw [hd, mem_singleton.1 (contains_iff_mem.1 hmem)]
    exact wp_bind.2 (wp_gettoken_cons h1 fun s2 h2 => hyes ts s2 rfl h2)

theorem wp_accept_cons {α : Type} {m m' : P α} {Q : α → Str → Prop} {E : Err → Str → Prop}
    (op : Tok) {x : UInt8} (hop : op.sym = some x) (hx : x ∈ symbols ∧ x ≠ GT)
    (hs : lex s = op :: ts) (h : ∀ s', lex s' = ts → wp m Q E s') :
    wp (do if ← peek [x] then (do let _ ← gettoken; m) else m') Q E s :=
  wp_accept op hop hx hs (fun _ s1 hts h1 => h s1 (h1.trans (List.cons.inj hts).2.symm))
    fun _ hp _ => absurd hp (by simp [peeks, hop])

end

/-! ## The grammar -/

/-- `redir*` : the redirections of a token string. -/
inductive Redirs : List Tok → List Redir → Prop where
  | nil : Redirs [] []
  | cons {op : Tok} {w : Str} {r : Redir} {ts : List Tok} {rs : List Redir}
      (hop : redircmd w op = some r)
      (h : Redirs ts rs) : Redirs (op :: .word w :: ts) (r :: rs)

/-- `( word redir* )*` : the words and the redirections of a token string. -/
inductive Args : List Tok → List Str → List Redir → Prop where
  | nil : Args [] [] []
  | cons {w : Str} {ws : List Str} {ts us : List Tok} {rs rs' : List Redir}
      (hr : Redirs ts rs) (h : Args us ws rs') : Args (.word w :: (ts ++ us)) (w :: ws) (rs ++ rs')

/-- The nonterminals. -/
inductive Nt where
  | line
  | pipe
  | exec

/-- The tokens derive from the nonterminal with the tree. -/
inductive Derives : Nt → List Tok → Cmd → Prop where
  | back {ts : List Tok} {c : Cmd} (n : ℕ) (h : Derives .pipe ts c) :
      Derives .line (ts ++ List.replicate n .amp) (Cmd.back^[n] c)
  | list {ts us : List Tok} {c d : Cmd} (n : ℕ) (h : Derives .pipe ts c)
      (h' : Derives .line us d) :
      Derives .line (ts ++ (List.replicate n .amp ++ .semi :: us)) (.list (Cmd.back^[n] c) d)
  | exec {ts : List Tok} {c : Cmd} (h : Derives .exec ts c) : Derives .pipe ts c
  | pipe {ts us : List Tok} {c d : Cmd} (h : Derives .exec ts c) (h' : Derives .pipe us d) :
      Derives .pipe (ts ++ .bar :: us) (.pipe c d)
  | block {ts us : List Tok} {c : Cmd} {rs : List Redir} (h : Derives .line ts c)
      (hr : Redirs us rs) : Derives .exec (.lpar :: (ts ++ .rpar :: us)) (wrap c rs)
  | simple {ts us : List Tok} {ws : List Str} {rs rs' : List Redir} (hr : Redirs ts rs)
      (h : Args us ws rs') (hn : ws.length ≤ MAXARGS - 1) :
      Derives .exec (ts ++ us) (wrap (.exec ws) (rs ++ rs'))

/-! ## What the parser returns derives from what it read -/

/-- The parser stops with a message and not for want of fuel. -/
abbrev Panics (e : Err) (_ : Str) : Prop :=
  e ≠ .fuel

/-- The tokens read, up to those that are left, are related to what was made of them. -/
def Reads {α : Type} (R : List Tok → α → Prop) (s : Str) (a : α) (s' : Str) : Prop :=
  ∃ ts, lex s = ts ++ lex s' ∧ R ts a

variable {s s' r w : Str} {t : Tok} {ts us : List Tok} {c d : Cmd}

theorem exists_redircmd (h : peeks [LT, GT] (t :: ts) = true) (w : Str) :
    ∃ r, redircmd w t = some r := by
  cases t <;> first | exact ⟨_, rfl⟩ | exact absurd h Bool.false_ne_true

/-- The loop of `parseredirs` reads `redir*`. -/
theorem redirLoop_sound : ∀ (n : ℕ) (s : Str), (lex s).length < n →
    wp (redirLoop n) (Reads Redirs s) Panics s := by
  intro n
  induction n with
  | zero => exact fun s hs => absurd hs (Nat.not_lt_zero _)
  | succ n ih =>
    intro s hn
    rw [redirLoop]
    refine wp_bind.2 (wp_peek rfl (by decide) fun s1 h1 => wp_ite.2 ⟨fun hp => ?_, fun _ => ?_⟩)
    · cases hts : lex s with
      | nil => rw [hts] at hp; cases hp
      | cons op ts =>
        rw [hts] at hp h1 hn
        refine wp_bind.2 (wp_gettoken_cons h1 fun s2 h2 => wp_bind.2 ?_)
        cases ts with
        | nil => exact wp_gettoken_nil h2 fun s3 h3 => nofun
        | cons t us =>
          refine wp_gettoken_cons h2 fun s3 h3 => ?_
          cases t with
          | word w =>
            obtain ⟨r, hr⟩ := exists_redircmd hp w
            refine wp_bind.2 (wp_mono (ih s3 ?_) ?_)
            · rw [h3]
              simp only [length_cons] at hn
              omega
            · rintro rs s4 ⟨vs, hv, hrs⟩
              simp only [Option.bind_some, hr, Option.toList_some, singleton_append]
              exact ⟨op :: .word w :: vs, by rw [hts, ← h3, hv]; rfl, .cons hr hrs⟩
          | _ => nofun
    · exact ⟨[], h1.symm, .nil⟩

theorem parseredirs_sound (s : Str) : wp parseredirs (Reads Redirs s) Panics s :=
  wp_bind.2 (redirLoop_sound _ s (Nat.lt_succ_of_le (lex_length s)))

/-- The loop of `parseexec` reads `( word redir* )*`. -/
theorem argLoop_sound : ∀ (n argc : ℕ) (s : Str), (lex s).length < n → argc ≤ MAXARGS - 1 →
    wp (argLoop n argc)
      (Reads (fun ts r => Args ts r.1 r.2 ∧ argc + r.1.length ≤ MAXARGS - 1) s) Panics s := by
  intro n
  induction n with
  | zero => exact fun argc s hs => absurd hs (Nat.not_lt_zero _)
  | succ n ih =>
    intro argc s hn hargc
    rw [argLoop]
    refine wp_bind.2 (wp_peek rfl (by decide) fun s1 h1 => wp_ite.2 ⟨fun hp => ?_, fun _ => ?_⟩)
    · exact ⟨[], h1.symm, .nil, hargc⟩
    · refine wp_bind.2 ?_
      cases hts : lex s with
      | nil =>
        rw [hts] at h1
        exact wp_gettoken_nil h1 fun s2 h2 => ⟨[], by rw [hts, h2]; rfl, .nil, hargc⟩
      | cons t ts =>
        rw [hts] at h1 hn
        refine wp_gettoken_cons h1 fun s2 h2 => ?_
        cases t with
        | word w =>
          refine wp_ite.2 ⟨fun _ => nofun, fun hmax => ?_⟩
          refine wp_seq (parseredirs_sound s2) fun rs s3 ⟨us, hu, hrs⟩ => ?_
          refine wp_seq (ih (argc + 1) s3 ?_ (by omega)) ?_
          · rw [← h2, hu] at hn
            simp only [length_cons, length_append] at hn
            omega
          · rintro ⟨ws, rs'⟩ s4 ⟨vs, hv, hargs, hlen⟩
            refine ⟨.word w :: (us ++ vs), ?_, .cons hrs hargs, ?_⟩
            · rw [hts, ← h2, hu, hv]
              simp
            · have hlen' : argc + 1 + ws.length ≤ MAXARGS - 1 := hlen
              simp only [length_cons]
              omega
        | _ => nofun

theorem parseargs_sound (s : Str) :
    wp parseargs (Reads (fun ts r => Args ts r.1 r.2 ∧ r.1.length ≤ MAXARGS - 1) s) Panics s := by
  have hloop := argLoop_sound (s.length + 1) 0 s (Nat.lt_succ_of_le (lex_length s)) (by decide)
  refine wp_bind.2 (wp_get.2 (wp_mono hloop ?_))
  rintro r s' ⟨ts, hts, hargs, hlen⟩
  exact ⟨ts, hts, hargs, by omega⟩

/-- The loop of `parseline` reads `'&'*`. -/
theorem backLoop_sound : ∀ (n : ℕ) (c : Cmd) (s : Str), (lex s).length < n →
    wp (backLoop n c)
      (Reads (fun ts d => ∃ k, ts = List.replicate k .amp ∧ d = Cmd.back^[k] c) s) Panics s := by
  intro n
  induction n with
  | zero => exact fun c s hs => absurd hs (Nat.not_lt_zero _)
  | succ n ih =>
    intro c s hn
    rw [backLoop]
    refine wp_accept .amp rfl (by decide) rfl (fun us s1 hus h1 => wp_mono (ih _ s1 ?_) ?_)
      fun s1 _ h1 => ⟨[], h1.symm, 0, rfl, rfl⟩
    · rw [hus, length_cons] at hn
      rw [h1]
      omega
    · rintro d s2 ⟨ts, hts, k, rfl, rfl⟩
      exact ⟨_, by rw [hus, ← h1, hts]; rfl, k + 1, rfl, rfl⟩

theorem parsebacks_sound (c : Cmd) (s : Str) :
    wp (parsebacks c)
      (Reads (fun ts d => ∃ k, ts = List.replicate k .amp ∧ d = Cmd.back^[k] c) s) Panics s :=
  wp_bind.2 (backLoop_sound _ c s (Nat.lt_succ_of_le (lex_length s)))

/-- Fuel for a text with `k` tokens left : a parenthesis is read every fourth call. -/
def need (k : ℕ) : Nt → ℕ
  | .line => 4 * k + 4
  | .pipe => 4 * k + 3
  | .exec => 4 * k + 2

/-- The parsers are sound with fuel `n`. -/
structure Sound (n : ℕ) : Prop where
  line : ∀ s, need (lex s).length .line ≤ n → wp (parseline n) (Reads (Derives .line) s) Panics s
  pipe : ∀ s, need (lex s).length .pipe ≤ n → wp (parsepipe n) (Reads (Derives .pipe) s) Panics s
  exec : ∀ s, need (lex s).length .exec ≤ n → wp (parseexec n) (Reads (Derives .exec) s) Panics s
  block : ∀ s, need (lex s).length .exec ≤ n + 1 →
    wp (parseblock n) (Reads (Derives .exec) s) Panics s

/-- `parseline` reads a line. -/
theorem parseline_sound {n : ℕ} (hn : need (lex s).length .line ≤ n + 1) (h : Sound n) :
    wp (parseline (n + 1)) (Reads (Derives .line) s) Panics s := by
  rw [parseline]
  refine wp_seq (h.pipe s (Nat.le_of_succ_le_succ hn)) fun c s1 ⟨ts, hts, hc⟩ => ?_
  refine wp_seq (parsebacks_sound c s1) fun d s2 ⟨us, hus, k, hk, hd⟩ => ?_
  subst hk hd
  refine wp_accept .semi rfl (by decide) rfl (fun vs s3 hvs h3 => ?_) fun s3 _ h3 => ?_
  · rw [hus, hvs, ← h3] at hts
    refine wp_seq (h.line s3 ?_) fun e s4 ⟨xs, hxs, he⟩ => ⟨_, ?_, .list k hc he⟩
    · simp only [hts, length_append, length_cons, need] at hn ⊢
      omega
    · rw [hts, hxs]
      simp
  · exact ⟨_, by rw [hts, hus, h3, append_assoc], .back k hc⟩

/-- `parsepipe` reads a pipe. -/
theorem parsepipe_sound {n : ℕ} (hn : need (lex s).length .pipe ≤ n + 1) (h : Sound n) :
    wp (parsepipe (n + 1)) (Reads (Derives .pipe) s) Panics s := by
  rw [parsepipe]
  refine wp_seq (h.exec s (Nat.le_of_succ_le_succ hn)) fun c s1 ⟨ts, hts, hc⟩ => ?_
  refine wp_accept .bar rfl (by decide) rfl (fun vs s2 hvs h2 => ?_) fun s2 _ h2 => ?_
  · rw [hvs, ← h2] at hts
    refine wp_seq (h.pipe s2 ?_) fun e s3 ⟨xs, hxs, he⟩ => ⟨_, ?_, .pipe hc he⟩
    · simp only [hts, length_append, length_cons, need] at hn ⊢
      omega
    · rw [hts, hxs]
      simp
  · exact ⟨ts, by rw [hts, h2], .exec hc⟩

/-- `parseblock` reads a block. -/
theorem parseblock_sound {n : ℕ} (hn : need (lex s).length .exec ≤ n + 2) (h : Sound n) :
    wp (parseblock (n + 1)) (Reads (Derives .exec) s) Panics s := by
  rw [parseblock]
  refine wp_accept .lpar rfl (by decide) rfl (fun ts s1 hts h1 => ?_) fun _ _ _ => nofun
  rw [hts] at hn
  refine wp_seq (h.line s1 ?_) fun c s2 ⟨us, hus, hc⟩ => ?_
  · rw [h1]
    simp only [length_cons, need] at hn ⊢
    omega
  refine wp_accept .rpar rfl (by decide) rfl (fun vs s3 hvs h3 => ?_) fun _ _ _ => nofun
  refine wp_seq (parseredirs_sound s3) fun rs s4 ⟨xs, hxs, hrs⟩ => ⟨_, ?_, .block hc hrs⟩
  rw [hts, ← h1, hus, hvs, ← h3, hxs]
  simp

/-- `parseexec` reads a simple command or a block. -/
theorem parseexec_sound {n : ℕ} (hn : need (lex s).length .exec ≤ n + 1) (h : Sound n) :
    wp (parseexec (n + 1)) (Reads (Derives .exec) s) Panics s := by
  rw [parseexec]
  refine wp_bind.2 (wp_peek rfl (by decide) fun s1 h1 => ?_)
  have hreads : Reads (Derives .exec) s = Reads (Derives .exec) s1 := by
    funext c s'
    rw [Reads, Reads, h1]
  rw [← h1] at hn
  rw [hreads]
  refine wp_ite.2 ⟨fun _ => h.block s1 hn, fun _ => ?_⟩
  refine wp_seq (parseredirs_sound s1) fun rs s2 ⟨ts, hts, hrs⟩ => ?_
  refine wp_seq (parseargs_sound s2) fun r s3 ⟨us, hus, hargs, hlen⟩ => ?_
  exact ⟨ts ++ us, by rw [hts, hus, append_assoc], .simple hrs hargs hlen⟩

/-- The parsers are sound with any fuel. -/
theorem sound : ∀ n, Sound n
  | 0 =>
    ⟨fun _ h => absurd h (Nat.not_succ_le_zero _), fun _ h => absurd h (Nat.not_succ_le_zero _),
      fun _ h => absurd h (Nat.not_succ_le_zero _),
      fun _ h => absurd (Nat.le_of_succ_le_succ h) (Nat.not_succ_le_zero _)⟩
  | n + 1 =>
    ⟨fun _ h => parseline_sound h (sound n), fun _ h => parsepipe_sound h (sound n),
      fun _ h => parseexec_sound h (sound n), fun _ h => parseblock_sound h (sound n)⟩

/-! ## The parser returns the tree of what derives -/

/-- The program returned `a` and left the tokens `rest`. -/
def Gets {α : Type} (a : α) (rest : List Tok) (a' : α) (s' : Str) : Prop :=
  a' = a ∧ lex s' = rest

/-- The tokens are at their end or start with an operator that starts with a character of
`toks`. -/
def Ends (toks : Str) (ts : List Tok) : Prop :=
  ts = [] ∨ peeks toks ts = true

variable {A B : Str} {rest : List Tok} {E : Err → Str → Prop} {rs rs' : List Redir}
  {ws : List Str}

theorem wp_gets {α β : Type} {m : P α} {k : α → P β} {a : α} {Q : β → Str → Prop}
    (hm : wp m (Gets a rest) E s) (hk : ∀ s', lex s' = rest → wp (k a) Q E s') :
    wp (m >>= k) Q E s :=
  wp_seq hm fun _ s1 h => h.1 ▸ hk s1 h.2

theorem Ends.mem {x : UInt8} (h : Ends A (t :: ts)) (ht : t.sym = some x) : x ∈ A := by
  obtain h | h := h
  · cases h
  · simpa [peeks, ht] using h

theorem Ends.not_peeks (h : Ends A ts) (hAB : A.all (!B.contains ·) = true) :
    peeks B ts = false := by
  cases ts with
  | nil => rfl
  | cons t ts =>
    cases ht : t.sym with
    | none => simp [peeks, ht]
    | some x => simpa [peeks, ht] using all_eq_true.1 hAB x (h.mem ht)

theorem Ends.mono (h : Ends A ts) (hAB : A ⊆ B) : Ends B ts := by
  cases ts with
  | nil => exact .inl rfl
  | cons t ts =>
    obtain h | h := h
    · cases h
    · obtain ⟨x, hx, hmem⟩ := (Option.any_eq_true _ _).1 h
      exact .inr ((Option.any_eq_true _ _).2 ⟨x, hx, by simpa using hAB (by simpa using hmem)⟩)

theorem Redirs.not_peeks (h : Redirs ts rs) (hB : LT ∉ B ∧ GT ∉ B) (hus : peeks B us = false) :
    peeks B (ts ++ us) = false := by
  cases h with
  | nil => exact hus
  | @cons op w r ts rs hop h =>
    cases op <;> first | cases hop; done | simp [peeks, Tok.sym, hB]

theorem Args.not_peeks (h : Args ts ws rs) (hus : peeks B us = false) :
    peeks B (ts ++ us) = false := by
  cases h with
  | nil => exact hus
  | cons hr h => rfl

/-- It reads all the redirections. -/
theorem redirLoop_complete (h : Redirs ts rs) : ∀ (n : ℕ) (s : Str), lex s = ts ++ rest →
    ts.length < n → peeks [LT, GT] rest = false → wp (redirLoop n) (Gets rs rest) E s := by
  induction h with
  | nil =>
    rintro (_ | n) s hs hn hrest
    · exact absurd hn (Nat.not_lt_zero _)
    · rw [redirLoop]
      refine wp_bind.2 (wp_peek hs (by decide) fun s1 h1 => ?_)
      rw [nil_append, hrest]
      exact ⟨rfl, h1⟩
  | @cons op w r ts rs hop h ih =>
    rintro (_ | n) s hs hn hrest
    · exact absurd hn (Nat.not_lt_zero _)
    · rw [redirLoop]
      refine wp_bind.2 (wp_peek hs (by decide) fun s1 h1 => ?_)
      have hp : peeks [LT, GT] (op :: .word w :: ts ++ rest) = true := by
        cases op <;> first | rfl | cases hop
      rw [hp]
      refine wp_bind.2 (wp_gettoken_cons h1 fun s2 h2 => wp_bind.2 (wp_gettoken_cons h2
        fun s3 h3 => wp_gets (ih n s3 h3 ?_ hrest) fun s4 h4 => ⟨by simp [hop], h4⟩))
      simp only [length_cons] at hn
      omega

theorem parseredirs_complete (h : Redirs ts rs) (hs : lex s = ts ++ rest)
    (hrest : peeks [LT, GT] rest = false) : wp parseredirs (Gets rs rest) E s := by
  refine wp_bind.2 (redirLoop_complete h _ s hs ?_ hrest)
  have hlen := lex_length s
  rw [hs, length_append] at hlen
  omega

/-- It reads all the words and their redirections. -/
theorem argLoop_complete (h : Args ts ws rs) : ∀ (n argc : ℕ) (s : Str), lex s = ts ++ rest →
    ts.length < n → argc + ws.length ≤ MAXARGS - 1 → Ends [BAR, RPAR, AMP, SEMI] rest →
    wp (argLoop n argc) (Gets (ws, rs) rest) E s := by
  induction h with
  | nil =>
    rintro (_ | n) argc s hs hn hargc hrest
    · exact absurd hn (Nat.not_lt_zero _)
    · rw [argLoop]
      refine wp_bind.2 (wp_peek hs (by decide) fun s1 h1 => ?_)
      rw [nil_append] at h1 ⊢
      obtain rfl | hrest := hrest
      · exact wp_bind.2 (wp_gettoken_nil h1 fun s2 h2 => ⟨rfl, h2⟩)
      · rw [hrest]
        exact ⟨rfl, h1⟩
  | @cons w ws ts us rs rs' hr h ih =>
    rintro (_ | n) argc s hs hn hargc hrest
    · exact absurd hn (Nat.not_lt_zero _)
    · rw [argLoop]
      rw [cons_append, append_assoc] at hs
      refine wp_bind.2 (wp_peek hs (by decide) fun s1 h1 => ?_)
      simp only [length_cons, length_append] at hn hargc
      refine wp_bind.2 (wp_gettoken_cons h1 fun s2 h2 => wp_ite.2 ⟨fun hmax => ?_, fun _ => ?_⟩)
      · omega
      · have hp := h.not_peeks (hrest.not_peeks (B := [LT, GT]) (by decide))
        refine wp_gets (parseredirs_complete hr h2 hp) fun s3 h3 => ?_
        exact wp_gets (ih n (argc + 1) s3 h3 (by omega) (by omega) hrest) fun s4 h4 => ⟨rfl, h4⟩

theorem parseargs_complete (h : Args ts ws rs) (hs : lex s = ts ++ rest)
    (hn : ws.length ≤ MAXARGS - 1) (hrest : Ends [BAR, RPAR, AMP, SEMI] rest) :
    wp parseargs (Gets (ws, rs) rest) E s := by
  refine wp_bind.2 (argLoop_complete h _ 0 s hs ?_ (by omega) hrest)
  have hlen := lex_length s
  rw [hs, length_append] at hlen
  omega

/-- It reads each `'&'`. -/
theorem backLoop_complete : ∀ (k n : ℕ) (c : Cmd) (s : Str),
    lex s = List.replicate k .amp ++ rest → k < n → peeks [AMP] rest = false →
    wp (backLoop n c) (Gets (Cmd.back^[k] c) rest) E s := by
  intro k
  induction k with
  | zero =>
    rintro (_ | n) c s hs hn hrest
    · exact absurd hn (Nat.not_lt_zero _)
    · rw [backLoop]
      refine wp_accept .amp rfl (by decide) hs (fun us s1 hus h1 => ?_) fun s1 _ h1 => ⟨rfl, h1⟩
      rw [replicate_zero, nil_append] at hus
      rw [hus] at hrest
      exact absurd hrest (by simp [peeks, Tok.sym])
  | succ k ih =>
    rintro (_ | n) c s hs hn hrest
    · exact absurd hn (Nat.not_lt_zero _)
    · rw [backLoop]
      exact wp_accept_cons .amp rfl (by decide) hs fun s1 h1 => ih n _ s1 h1 (by omega) hrest

theorem parsebacks_complete {k : ℕ} (hs : lex s = List.replicate k .amp ++ rest)
    (hrest : peeks [AMP] rest = false) : wp (parsebacks c) (Gets (Cmd.back^[k] c) rest) E s := by
  refine wp_bind.2 (backLoop_complete k _ c s hs ?_ hrest)
  have hlen := lex_length s
  rw [hs, length_append, length_replicate] at hlen
  omega

/-- What can follow a nonterminal. -/
def follow : Nt → Str
  | .line => [RPAR]
  | .pipe => [RPAR, AMP, SEMI]
  | .exec => [BAR, RPAR, AMP, SEMI]

/-- The program returns the tree of a derivation that starts the tokens, and leaves what
follows it. -/
def Finds (m : P Cmd) (N : Nt) (fuel : ℕ) : Prop :=
  ∀ (ts rest : List Tok) (c : Cmd) (s : Str) (E : Err → Str → Prop), Derives N ts c →
    lex s = ts ++ rest → need (lex s).length N ≤ fuel → Ends (follow N) rest →
    wp m (Gets c rest) E s

/-- The parsers are complete with fuel `n`. -/
structure Complete (n : ℕ) : Prop where
  line : Finds (parseline n) .line n
  pipe : Finds (parsepipe n) .pipe n
  exec : Finds (parseexec n) .exec n

theorem ends_amps (n : ℕ) (h : Ends (follow .pipe) us) :
    Ends (follow .pipe) (List.replicate n .amp ++ us) := by
  cases n with
  | zero => exact h
  | succ n => exact .inr rfl

/-- `parseline` returns the tree of the line it finds. -/
theorem parseline_complete {n : ℕ} (h : Complete n) : Finds (parseline (n + 1)) .line (n + 1) := by
  intro ts rest c s E hd hs hn hrest
  rw [parseline]
  cases hd with
  | @back ts c k hc =>
    rw [append_assoc] at hs
    refine wp_gets (h.pipe _ _ _ s E hc hs (Nat.le_of_succ_le_succ hn)
      (ends_amps k (hrest.mono (by decide)))) fun s1 h1 => ?_
    refine wp_gets (parsebacks_complete h1 (hrest.not_peeks (by decide))) fun s2 h2 => ?_
    refine wp_accept .semi rfl (by decide) h2 (fun us s3 hus h3 => ?_) fun s3 _ h3 => ⟨rfl, h3⟩
    rw [hus] at hrest
    exact absurd (hrest.mem rfl) (by decide)
  | @list ts us c d k hc hd =>
    simp only [append_assoc, cons_append] at hs
    refine wp_gets (h.pipe _ _ _ s E hc hs (Nat.le_of_succ_le_succ hn)
      (ends_amps k (.inr rfl))) fun s1 h1 => ?_
    refine wp_gets (parsebacks_complete h1 rfl) fun s2 h2 => ?_
    refine wp_accept_cons .semi rfl (by decide) h2 fun s3 h3 => ?_
    refine wp_gets (h.line _ _ _ s3 E hd h3 ?_ hrest) fun s4 h4 => ⟨rfl, h4⟩
    rw [hs] at hn
    rw [h3]
    simp only [length_append, length_cons, need] at hn ⊢
    omega

/-- `parsepipe` returns that of a pipe. -/
theorem parsepipe_complete {n : ℕ} (h : Complete n) : Finds (parsepipe (n + 1)) .pipe (n + 1) := by
  intro ts rest c s E hd hs hn hrest
  rw [parsepipe]
  cases hd with
  | exec hc =>
    refine wp_gets (h.exec _ _ _ s E hc hs (Nat.le_of_succ_le_succ hn) (hrest.mono (by decide)))
      fun s1 h1 => ?_
    refine wp_accept .bar rfl (by decide) h1 (fun us s2 hus h2 => ?_) fun s2 _ h2 => ⟨rfl, h2⟩
    rw [hus] at hrest
    exact absurd (hrest.mem rfl) (by decide)
  | @pipe ts us c d hc hd =>
    rw [append_assoc, cons_append] at hs
    refine wp_gets (h.exec _ _ _ s E hc hs (Nat.le_of_succ_le_succ hn) (.inr rfl)) fun s1 h1 => ?_
    refine wp_accept_cons .bar rfl (by decide) h1 fun s2 h2 => ?_
    refine wp_gets (h.pipe _ _ _ s2 E hd h2 ?_ hrest) fun s3 h3 => ⟨rfl, h3⟩
    rw [hs] at hn
    rw [h2]
    simp only [length_append, length_cons, need] at hn ⊢
    omega

/-- `parseblock` returns that of a block. -/
theorem parseblock_complete {n : ℕ} (h : Complete n) (hc : Derives .line ts c)
    (hr : Redirs us rs) (hs : lex s = .lpar :: (ts ++ .rpar :: (us ++ rest)))
    (hn : need (lex s).length .exec ≤ n + 2) (hrest : Ends (follow .exec) rest) :
    wp (parseblock (n + 1)) (Gets (wrap c rs) rest) E s := by
  rw [parseblock]
  refine wp_accept_cons .lpar rfl (by decide) hs fun s1 h1 => ?_
  refine wp_gets (h.line _ _ _ s1 E hc h1 ?_ (.inr rfl)) fun s2 h2 => ?_
  · rw [hs] at hn
    rw [h1]
    simp only [length_cons, need] at hn ⊢
    omega
  · refine wp_accept_cons .rpar rfl (by decide) h2 fun s3 h3 => ?_
    exact wp_gets (parseredirs_complete hr h3 (hrest.not_peeks (by decide))) fun s4 h4 => ⟨rfl, h4⟩

/-- `parseexec` calls `parseblock` with one unit less, hence the two steps. -/
theorem parseexec_complete {n : ℕ} (h : ∀ m, n = m + 1 → Complete m) :
    Finds (parseexec (n + 1)) .exec (n + 1) := by
  intro ts rest c s E hd hs hn hrest
  rw [parseexec]
  cases hd with
  | @block ts us c rs hc hr =>
    simp only [append_assoc, cons_append] at hs
    obtain ⟨n, rfl⟩ : ∃ m, n = m + 1 := ⟨n - 1, by simp only [need] at hn; omega⟩
    refine wp_bind.2 (wp_peek hs (by decide) fun s1 h1 => ?_)
    rw [hs, ← h1] at hn
    exact parseblock_complete (h n rfl) hc hr h1 hn hrest
  | @simple ts us ws rs rs' hr hargs hlen =>
    rw [append_assoc] at hs
    refine wp_bind.2 (wp_peek hs (by decide) fun s1 h1 => ?_)
    rw [hr.not_peeks (by decide) (hargs.not_peeks (hrest.not_peeks (by decide)))]
    refine wp_gets (parseredirs_complete hr h1
      (hargs.not_peeks (hrest.not_peeks (by decide)))) fun s2 h2 => ?_
    exact wp_gets (parseargs_complete hargs h2 hlen hrest) fun s3 h3 => ⟨rfl, h3⟩

/-- The parsers are complete with any fuel. -/
theorem complete : ∀ n, Complete n
  | 0 =>
    ⟨fun _ _ _ _ _ _ _ h => absurd h (Nat.not_succ_le_zero _),
      fun _ _ _ _ _ _ _ h => absurd h (Nat.not_succ_le_zero _),
      fun _ _ _ _ _ _ _ h => absurd h (Nat.not_succ_le_zero _)⟩
  | n + 1 =>
    ⟨parseline_complete (complete n), parsepipe_complete (complete n),
      parseexec_complete fun m _ => complete m⟩

/-! ## `parsecmd` -/

theorem need_le (s : Str) : need (lex s).length .line ≤ 4 * s.length + 4 := by
  have hlen := lex_length s
  simp only [need]
  omega

theorem skip_eq_nil_iff : skip s = [] ↔ lex s = [] := by
  refine ⟨lex_nil, fun hs => ?_⟩
  obtain h | ⟨c, r, t, r', hc, ht, hl, -⟩ := skip_cases s
  · exact h
  · rw [lex_cons (by rw [hc, ht]) hl] at hs
    cases hs

/-- The tree that `parseall` returns is one of the whole text. -/
theorem parseall_sound (s : Str) : wp parseall (fun c _ => Derives .line (lex s) c) Panics s := by
  refine wp_bind.2 (wp_get.2 (wp_seq ((sound _).line s (need_le s)) ?_))
  rintro c s1 ⟨ts, hts, hc⟩
  simp only [peek, wp_bind, wp_modify, wp_get]
  cases h : skip s1 with
  | nil =>
    rw [skip_eq_nil_iff.1 h, append_nil] at hts
    rw [hts]
    exact hc
  | cons x r => exact Err.noConfusion

/-- `parseall` returns the tree of a text that has one. -/
theorem parseall_complete (h : Derives .line (lex s) c) : wp parseall (fun c' _ => c' = c) E s := by
  refine wp_bind.2 (wp_get.2 (wp_gets ((complete _).line _ [] c s E h (append_nil _).symm
    (need_le s) (.inl rfl)) fun s1 h1 => ?_))
  simp only [peek, wp_bind, wp_modify, wp_get, skip_eq_nil_iff.2 h1]
  rfl

/-- `parsecmd` accepts the texts of the grammar, with their trees. -/
theorem parsecmd_eq_ok_iff : parsecmd s = .ok c ↔ Derives .line (lex s) c := by
  unfold parsecmd
  constructor
  · intro h
    cases hp : parseall s with
    | ok d s' =>
      rw [hp] at h
      obtain rfl := Except.ok.inj h
      exact wp_ok (parseall_sound s) hp
    | error e s' => rw [hp] at h; cases h
  · intro h
    obtain ⟨d, s', hp, rfl⟩ := exists_ok_of_wp (parseall_complete h)
    rw [hp]

theorem parsecmd_ne_fuel : parsecmd s ≠ .error .fuel := by
  unfold parsecmd
  cases hp : parseall s with
  | ok d s' => nofun
  | error e s' =>
    rintro ⟨⟩
    exact wp_error (parseall_sound s) hp rfl

end Xv6.Sh
