import Xv6.ShGrammar

/-!
# Rendering commands of `sh`

A token string is written out with a blank after each token, and a tree with parentheses
around every command that is not simple. `lex_text` reads the tokens back,
`parsecmd_render` the tree, and `parsecmd_grammar` gathers what `parsecmd` does on every
text. `'>'` and `'>>'` make the same redirection, so a tree is rendered with `'>'`.
-/

open List

namespace Xv6.Sh

variable {s : Str} {t : Tok} {ts : List Tok} {c : Cmd} {rs : List Redir} {ws : List Str}

/-! ## Tokens as text -/

/-- Characters that `gettoken` takes as one word. -/
def WordOk (w : Str) : Prop :=
  w ≠ [] ∧ ∀ x ∈ w, plain x = true

/-- A token that a text can have. -/
def Tok.Ok : Tok → Prop
  | .word w => WordOk w
  | _ => True

/-- The characters of a token. -/
def Tok.text : Tok → Str
  | .bar => [BAR]
  | .lpar => [LPAR]
  | .rpar => [RPAR]
  | .semi => [SEMI]
  | .amp => [AMP]
  | .lt => [LT]
  | .gt => [GT]
  | .gtgt => [GT, GT]
  | .word w => w

/-- Tokens with a blank after each. -/
def text (ts : List Tok) : Str :=
  ts.flatMap fun t => t.text ++ [32]

theorem plain_iff {x : UInt8} : plain x = true ↔ x ∉ whitespace ∧ x ∉ symbols := by
  simp [plain]

theorem token_text (ht : t.Ok) (s : Str) : token (t.text ++ 32 :: s) = some (t, 32 :: s) := by
  cases t with
  | word w =>
    obtain ⟨hne, hw⟩ := ht
    obtain ⟨x, w, rfl⟩ := exists_cons_of_ne_nil hne
    have hx := plain_iff.1 (hw x mem_cons_self)
    have hblank : plain 32 = false := by decide
    rw [Tok.text, cons_append, token_word hx.2, ← cons_append,
      takeWhile_append_of_pos hw, dropWhile_append_of_pos hw,
      takeWhile_cons_of_neg (by simp [hblank]), dropWhile_cons_of_neg (by simp [hblank]),
      append_nil]
  | _ => rfl

theorem skip_text (ht : t.Ok) (s : Str) : skip (t.text ++ s) = t.text ++ s := by
  cases t with
  | word w =>
    obtain ⟨hne, hw⟩ := ht
    obtain ⟨x, w, rfl⟩ := exists_cons_of_ne_nil hne
    exact skip_of_not_mem (plain_iff.1 (hw x mem_cons_self)).1
  | _ => exact skip_of_not_mem (by decide)

theorem lex_blank (s : Str) : lex (32 :: s) = lex s := by
  rw [← lex_skip, ← lex_skip s]
  rfl

/-- The tokens of a text are read back. -/
theorem lex_text (hts : ∀ t ∈ ts, t.Ok) : lex (text ts) = ts := by
  induction ts with
  | nil => rfl
  | cons t ts ih =>
    have ht := hts t mem_cons_self
    have htext : text (t :: ts) = t.text ++ 32 :: text ts := by simp [text]
    rw [htext, lex_cons (by rw [skip_text ht, token_text ht]), lex_blank,
      ih fun t h => hts t (mem_cons_of_mem _ h)]
    have hpos : 0 < t.text.length := by
      cases t with
      | word w => exact length_pos_iff.2 ht.1
      | _ => decide
    simp only [length_append, length_cons]
    omega

theorem lex_ok (s : Str) : ∀ t ∈ lex s, t.Ok := by
  suffices h : ∀ n s, ∀ t ∈ lexN n s, t.Ok from h _ s
  intro n
  induction n with
  | zero => exact fun s t ht => nomatch ht
  | succ n ih =>
    intro s t ht
    obtain h | ⟨x, r, t', r', hs, htok, -, -⟩ := skip_cases s
    · simp [lexN, h, token] at ht
    · simp only [lexN, hs, htok, mem_cons] at ht
      obtain rfl | ht := ht
      · by_cases hx : x ∈ symbols
        · obtain ⟨t1, r1, h1, hsym, -⟩ := token_symbol (s := r) hx
          rw [htok] at h1
          cases h1
          cases t <;> first | exact trivial | cases hsym
        · rw [token_word hx] at htok
          cases htok
          have hp := plain_iff.2 ⟨head_skip hs, hx⟩
          exact ⟨by simp [takeWhile_cons_of_pos hp], fun y =>
            all_eq_true.1 all_takeWhile y⟩
      · exact ih r' t ht

/-! ## Trees as text -/

/-- A redirection as tokens. -/
def Redir.tokens (r : Redir) : List Tok :=
  [if r.fd = 0 then .lt else .gt, .word r.file]

/-- A tree as tokens. -/
def Cmd.tokens : Cmd → List Tok
  | .exec argv => argv.map .word
  | .redir cmd r => .lpar :: (cmd.tokens ++ .rpar :: r.tokens)
  | .pipe left right =>
    .lpar :: (left.tokens ++ .rpar :: .bar :: .lpar :: (right.tokens ++ [.rpar]))
  | .list left right => .lpar :: (left.tokens ++ .rpar :: .semi :: right.tokens)
  | .back cmd => .lpar :: (cmd.tokens ++ [.rpar, .amp])

/-- A tree as text. -/
def render (cmd : Cmd) : Str :=
  text cmd.tokens

/-- The trees of the grammar over tokens of texts. -/
def Cmd.Ok : Cmd → Prop
  | .exec argv => argv.length ≤ MAXARGS - 1 ∧ ∀ w ∈ argv, WordOk w
  | .redir cmd r => cmd.Ok ∧ WordOk r.file ∧ ∃ op, redircmd r.file op = some r
  | .pipe left right => left.Ok ∧ right.Ok
  | .list left right => left.Ok ∧ right.Ok
  | .back cmd => cmd.Ok

theorem Cmd.Ok.wrap (hc : c.Ok) (hr : Redirs ts rs) (hts : ∀ t ∈ ts, t.Ok) :
    (wrap c rs).Ok := by
  induction hr generalizing c with
  | nil => exact hc
  | @cons op w r ts rs hop h ih =>
    have hw : WordOk w := hts (.word w) (by simp)
    have hfile : r.file = w := by cases op <;> cases hop <;> rfl
    refine ih ⟨hc, by rw [hfile]; exact hw, op, by rw [hfile]; exact hop⟩ fun t ht => hts t ?_
    exact mem_cons_of_mem _ (mem_cons_of_mem _ ht)

theorem wrap_append (c : Cmd) (rs rs' : List Redir) : wrap c (rs ++ rs') = wrap (wrap c rs) rs' :=
  foldl_append

theorem Args.ok (h : Args ts ws rs) (hts : ∀ t ∈ ts, t.Ok) :
    (∀ w ∈ ws, WordOk w) ∧ ∀ c : Cmd, c.Ok → (wrap c rs).Ok := by
  induction h with
  | nil => exact ⟨nofun, fun c hc => hc⟩
  | @cons w ws ts us rs rs' hr h ih =>
    simp only [mem_cons, mem_append, or_imp, forall_and] at hts
    obtain ⟨hw, hts, hus⟩ := hts
    obtain ⟨hws, hc⟩ := ih hus
    refine ⟨forall_mem_cons.2 ⟨hw _ rfl, hws⟩, fun c h => ?_⟩
    rw [wrap_append]
    exact hc _ (h.wrap hr hts)

theorem Cmd.Ok.back (hc : c.Ok) (n : ℕ) : (Cmd.back^[n] c).Ok := by
  induction n with
  | zero => exact hc
  | succ n ih =>
    rw [Function.iterate_succ_apply']
    exact ih

/-- What a parse yields has proper words. -/
theorem Derives.ok {N : Nt} (h : Derives N ts c) (hts : ∀ t ∈ ts, t.Ok) : c.Ok := by
  induction h with
  | back n h ih => exact (ih fun t ht => hts t (by simp [ht])).back n
  | list n h h' ih ih' =>
    exact ⟨(ih fun t ht => hts t (by simp [ht])).back n, ih' fun t ht => hts t (by simp [ht])⟩
  | exec h ih => exact ih hts
  | pipe h h' ih ih' =>
    exact ⟨ih fun t ht => hts t (by simp [ht]), ih' fun t ht => hts t (by simp [ht])⟩
  | block h hr ih =>
    exact (ih fun t ht => hts t (by simp [ht])).wrap hr fun t ht => hts t (by simp [ht])
  | simple hr h hn =>
    obtain ⟨hws, hc⟩ := h.ok fun t ht => hts t (by simp [ht])
    rw [wrap_append]
    refine hc _ (Cmd.Ok.wrap (c := .exec _) ⟨hn, hws⟩ hr fun t ht => hts t (by simp [ht]))

theorem Cmd.Ok.tokens_ok : ∀ {c : Cmd}, c.Ok → ∀ t ∈ c.tokens, t.Ok
  | .exec argv, h => by
    intro t ht
    obtain ⟨w, hw, rfl⟩ := mem_map.1 ht
    exact h.2 w hw
  | .redir cmd r, h => by
    have hop : (if r.fd = 0 then Tok.lt else .gt).Ok := by split_ifs <;> trivial
    have hw : (Tok.word r.file).Ok := h.2.1
    have ih := tokens_ok h.1
    simpa [Cmd.tokens, Redir.tokens, or_imp, forall_and, Tok.Ok] using ⟨ih, hop, hw⟩
  | .pipe left right, h => by
    simpa [Cmd.tokens, or_imp, forall_and, Tok.Ok] using ⟨tokens_ok h.1, tokens_ok h.2⟩
  | .list left right, h => by
    simpa [Cmd.tokens, or_imp, forall_and, Tok.Ok] using ⟨tokens_ok h.1, tokens_ok h.2⟩
  | .back cmd, h => by
    simpa [Cmd.tokens, or_imp, forall_and, Tok.Ok] using tokens_ok (c := cmd) h

theorem Derives.paren (h : Derives .line ts c) : Derives .exec (.lpar :: (ts ++ [.rpar])) c :=
  .block h .nil

theorem args_words : ∀ ws : List Str, Args (ws.map .word) ws []
  | [] => .nil
  | _ :: ws => .cons .nil (args_words ws)

/-- The tokens of a command derive it. -/
theorem Cmd.Ok.derives : ∀ {c : Cmd}, c.Ok → Derives .line c.tokens c
  | .exec argv, h => by
    have hs := Derives.simple .nil (args_words argv) h.1
    simpa [Sh.wrap, Cmd.tokens] using Derives.back 0 (.exec hs)
  | .redir cmd r, ⟨h, _, op, hop⟩ => by
    have hr : Redirs r.tokens [r] := by
      refine .cons ?_ .nil
      obtain ⟨file, mode, fd⟩ := r
      cases op <;> cases hop <;> rfl
    simpa [Sh.wrap, Cmd.tokens] using Derives.back 0 (.exec (.block (derives h) hr))
  | .pipe left right, h => by
    have hp := Derives.pipe (derives h.1).paren (.exec (derives h.2).paren)
    simpa [Cmd.tokens] using Derives.back 0 hp
  | .list left right, h => by
    simpa [Cmd.tokens] using Derives.list 0 (.exec (derives h.1).paren) (derives h.2)
  | .back cmd, h => by
    simpa [Cmd.tokens] using Derives.back 1 (.exec (derives (c := cmd) h).paren)

/-- Parsing undoes printing. -/
theorem parsecmd_render (hc : c.Ok) : parsecmd (render c) = .ok c := by
  rw [parsecmd_eq_ok_iff, render, lex_text hc.tokens_ok]
  exact hc.derives

/-- On every text the parser stops, with a tree of the tokens or with a message of `panic`, and not
for want of fuel; there is at most one tree, and none exactly when a message is given; tokens of
texts that have a tree, written out with blanks, are parsed to it; and so is the tree itself,
rendered with its own parentheses. -/
theorem parsecmd_grammar :
    (∀ s c, parsecmd s = .ok c ↔ Derives .line (lex s) c) ∧
    (∀ s c d, Derives .line (lex s) c → Derives .line (lex s) d → c = d) ∧
    (∀ s, (∃ msg, parsecmd s = .error (.panic msg)) ↔ ¬∃ c, Derives .line (lex s) c) ∧
    (∀ s, parsecmd s ≠ .error .fuel) ∧
    (∀ s, ∀ t ∈ lex s, t.Ok) ∧
    (∀ ts c, (∀ t ∈ ts, t.Ok) → Derives .line ts c →
      parsecmd (text ts) = .ok c ∧ parsecmd (render c) = .ok c) := by
  refine ⟨fun s c => parsecmd_eq_ok_iff, fun s c d hc hd => ?_, fun s => ?_,
    fun s => parsecmd_ne_fuel, lex_ok, fun ts c hts h => ⟨?_, parsecmd_render (h.ok hts)⟩⟩
  · exact Except.ok.inj ((parsecmd_eq_ok_iff.2 hc).symm.trans (parsecmd_eq_ok_iff.2 hd))
  · simp only [← parsecmd_eq_ok_iff]
    cases h : parsecmd s with
    | ok c => simp
    | error e =>
      cases e with
      | panic msg => simp
      | fuel => exact absurd h parsecmd_ne_fuel
  · rw [parsecmd_eq_ok_iff, lex_text hts]
    exact h

example : parsecmd [97, 62, 102, 59, 40, 98, 41] =
    .ok (.list (.redir (.exec [[97]]) ⟨[102], O_WRONLY ||| O_CREATE, 1⟩) (.exec [[98]])) := by
  decide +kernel

end Xv6.Sh
