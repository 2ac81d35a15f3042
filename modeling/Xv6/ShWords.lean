import Mathlib.Data.List.Forall2
import Xv6.Lib.Sim
import Xv6.ShBuf
import Xv6.ShGrammar

/-!
# The words of a parsed line of `sh`

The parser over the buffer does what the parser over the text does, with pointers in place of the
words : `parseall_sim` is a simulation, with `Rep` between the trees. A word in the tree is a span
of plain characters that ends at a null byte, at whitespace or at a symbol. That is all that
`nulterminate` needs. It writes null bytes over the ends of words only, no end of a word is a
character of a word, and so each word is a string of its own when all the ends are written.
-/

open Function

namespace Xv6.ShBuf

open Prog Cstring
open Sh (Str BAR LPAR RPAR SEMI AMP GT whitespace plain MAXARGS O_RDONLY O_WRONLY O_CREATE Tok Cmd)

variable {mem : ℕ → UInt8} {es p q e : ℕ} {t w : Str} {W W' : ℕ → ℕ → Str → Prop}

/-! ## Tokens -/

/-- The text `t` stands from `p` to the end of the line. -/
structure At (mem : ℕ → UInt8) (es p : ℕ) (t : Str) : Prop where
  str : IsStr mem p t
  stop : p + t.length = es

/-- A byte at which words end. -/
def EndByte (c : UInt8) : Prop :=
  c = 0 ∨ plain c = false

/-- The word `w` stands from `q` to `e`. -/
structure IsWord (mem : ℕ → UInt8) (q e : ℕ) (w : Str) : Prop where
  stop : e = q + w.length
  char : ∀ i (hi : i < w.length), mem (q + i) = w[i]
  plain : ∀ c ∈ w, c ≠ 0 ∧ plain c = true
  ends : EndByte (mem e)

theorem At.sub (h : At mem es p t) : es - p = t.length := by
  have := h.stop
  omega

theorem At.cons {c : UInt8} (h : At mem es p (c :: t)) :
    mem p = c ∧ c ≠ 0 ∧ At mem es (p + 1) t := by
  obtain ⟨hp, hc, h'⟩ := IsStr.cons_iff.1 h.str
  have hstop := h.stop
  rw [List.length_cons] at hstop
  exact ⟨hp, hc, h', by omega⟩

theorem at_skip (h : At mem es p t) : At mem es (skip mem es p) (Sh.skip t) := by
  rw [skip, h.sub]
  induction t generalizing p with
  | nil => exact h
  | cons c t ih =>
    obtain ⟨hp, hc, h'⟩ := h.cons
    rw [List.length_cons, skipLoop, hp, Sh.skip, List.dropWhile_cons]
    split_ifs with hws
    · exact ih h'
    · exact h

theorem at_wordLoop (h : At mem es p t) :
    wordLoop mem t.length p = p + (t.takeWhile plain).length ∧
      At mem es (p + (t.takeWhile plain).length) (t.dropWhile plain) := by
  induction t generalizing p with
  | nil => exact ⟨rfl, h⟩
  | cons c t ih =>
    obtain ⟨hp, hc, h'⟩ := h.cons
    rw [List.length_cons, wordLoop, hp, List.takeWhile_cons, List.dropWhile_cons]
    cases hpl : plain c with
    | false => exact ⟨rfl, h⟩
    | true =>
      obtain ⟨heq, hat⟩ := ih h'
      simp only [↓reduceIte, List.length_cons]
      rw [Nat.add_comm (t.takeWhile plain).length, ← Nat.add_assoc]
      exact ⟨heq, hat⟩

theorem isWord_takeWhile (h : At mem es p t) :
    IsWord mem p (p + (t.takeWhile plain).length) (t.takeWhile plain) where
  stop := rfl
  char i hi := by
    have hlen := (List.takeWhile_prefix plain (l := t)).length_le
    rw [h.str.char i (by omega)]
    exact ((List.takeWhile_prefix plain (l := t)).getElem hi).symm
  plain c hc := by
    refine ⟨fun h0 => h.str.plain (h0 ▸ (List.takeWhile_sublist plain).mem hc), ?_⟩
    exact List.all_eq_true.1 List.all_takeWhile c hc
  ends := by
    have hhead := (at_wordLoop h).2.str.head
    rw [EndByte, hhead]
    cases hd : t.dropWhile plain with
    | nil => exact .inl rfl
    | cons c r =>
      have hnot := List.head?_dropWhile_not plain t
      rw [hd] at hnot
      right
      simpa using hnot

/-- What `gettoken` returns for a token. -/
def code : Tok → UInt8
  | .bar => BAR
  | .lpar => LPAR
  | .rpar => RPAR
  | .semi => SEMI
  | .amp => AMP
  | .lt => Sh.LT
  | .gt => GT
  | .gtgt => PLUS
  | .word _ => WORD

/-- The value and the pointers of `gettoken` for a token, or for the end of the text. -/
def Got (mem : ℕ → UInt8) (x : Token) : Option Tok → Prop
  | none => x.ret = 0
  | some tok => x.ret = code tok ∧ ∀ w, tok = .word w → IsWord mem x.q x.eq w

theorem token_spec (h : At mem es p t) :
    Got mem ⟨(token mem es p).1, p, (token mem es p).2⟩ ((Sh.token t).map Prod.fst) ∧
      At mem es (token mem es p).2 (((Sh.token t).map Prod.snd).getD []) := by
  cases t with
  | nil =>
    have hp : mem p = 0 := h.str.null
    rw [token, if_pos hp]
    exact ⟨hp, h⟩
  | cons c t =>
    obtain ⟨hp, hc, h'⟩ := h.cons
    rw [token, hp, if_neg hc]
    by_cases hsym : c ∈ [BAR, LPAR, RPAR, SEMI, AMP, Sh.LT]
    · rw [if_pos hsym]
      simp only [List.mem_cons, List.not_mem_nil, or_false] at hsym
      rcases hsym with rfl | rfl | rfl | rfl | rfl | rfl
      all_goals exact ⟨⟨rfl, fun w hw => by cases hw⟩, h'⟩
    rw [if_neg hsym]
    by_cases hgt : c = GT
    · subst hgt
      rw [if_pos rfl, h'.str.head]
      cases t with
      | nil => exact ⟨⟨rfl, fun w hw => by cases hw⟩, h'⟩
      | cons d t =>
        obtain ⟨-, -, h''⟩ := h'.cons
        by_cases hd : d = GT
        · subst hd
          exact ⟨⟨rfl, fun w hw => by cases hw⟩, h''⟩
        · have htok : Sh.token (GT :: d :: t) = some (.gt, d :: t) := if_neg hd
          rw [List.headD_cons, if_neg hd, htok]
          exact ⟨⟨rfl, fun w hw => by cases hw⟩, h'⟩
    · have hnot : c ∉ Sh.symbols := by
        simp only [Sh.symbols, List.mem_cons, List.not_mem_nil, or_false, not_or] at hsym ⊢
        tauto
      rw [if_neg hgt, Sh.token_word hnot, h.sub, (at_wordLoop h).1]
      refine ⟨⟨rfl, fun w hw => ?_⟩, (at_wordLoop h).2⟩
      obtain rfl := Tok.word.inj hw
      exact isWord_takeWhile h

/-! ## The parser -/

/-- The errors of the parser over the text. -/
def Same (e : Stop) (e' : Sh.Err) : Prop :=
  e = .sh e'

theorem gettoken_sim : Sim (At mem es) (Got mem) Same (gettoken mem es) Sh.gettoken := by
  intro p t hp
  have hspec := token_spec (at_skip hp)
  rw [gettoken, wp_bind, wp_get, wp_bind, wp_set, wp_pure, Sh.gettoken, wp_bind, wp_get]
  cases htok : Sh.token (Sh.skip t) with
  | none | some =>
    rw [htok] at hspec
    exact ⟨hspec.1, at_skip hspec.2⟩

theorem peek_sim (toks : Str) : Sim (At mem es) Eq Same (peek mem es toks) (Sh.peek toks) := by
  intro p t hp
  have hs := at_skip hp
  rw [peek, wp_bind, wp_modify, wp_bind, wp_get, wp_pure, Sh.peek, wp_bind, wp_modify, wp_bind,
    wp_get]
  cases ht : Sh.skip t with
  | nil =>
    rw [ht] at hs
    have h0 : mem (skip mem es p) = 0 := hs.str.null
    rw [h0]
    exact ⟨rfl, hs⟩
  | cons c r =>
    rw [ht] at hs
    obtain ⟨hc, hne, -⟩ := hs.cons
    rw [hc]
    exact ⟨by simp [hne], hs⟩

theorem Got.ret_eq_word {x : Token} {o : Option Tok} (h : Got mem x o) :
    x.ret = WORD ↔ ∃ w, o = some (.word w) := by
  cases o with
  | none =>
    rw [show x.ret = 0 from h]
    simp only [reduceCtorEq, exists_false, iff_false]
    decide
  | some t =>
    rw [h.1]
    cases t <;> simp [code] <;> decide

theorem Got.ret_eq_zero {x : Token} {o : Option Tok} (h : Got mem x o) :
    x.ret = 0 ↔ o = none := by
  cases o with
  | none => simp [show x.ret = 0 from h]
  | some t =>
    rw [h.1]
    cases t <;> simp [code] <;> decide

theorem accept_sim {α α' : Type} {V : α → α' → Prop} {m n : P α} {m' n' : Sh.P α'} (toks : Str)
    (h : Sim (At mem es) V Same m m') (h' : Sim (At mem es) V Same n n') :
    Sim (At mem es) V Same (do if ← peek mem es toks then (do let _ ← gettoken mem es; m) else n)
      (do if ← Sh.peek toks then (do let _ ← Sh.gettoken; m') else n') := by
  refine sim_bind (peek_sim toks) ?_
  rintro b _ rfl
  exact sim_ite Iff.rfl (fun _ => sim_bind gettoken_sim fun _ _ _ => h) fun _ => h'

/-- The pointers of a redirection, with `W` between pointers and words. -/
structure RepRedir (W : ℕ → ℕ → Str → Prop) (r : Redir) (r' : Sh.Redir) : Prop where
  file : W r.file r.efile r'.file
  mode : r.mode = r'.mode
  fd : r.fd = r'.fd

theorem redircmd_rep {tok : Token} {o : Option Tok} (htok : Got mem tok o) (hw : IsWord mem q e w) :
    List.Forall₂ (RepRedir (IsWord mem)) (redircmd q e tok.ret).toList
      (o.bind (Sh.redircmd w)).toList := by
  cases o with
  | none =>
    rw [show tok.ret = 0 from htok]
    exact .nil
  | some t =>
    rw [htok.1]
    cases t with
    | lt | gt | gtgt => exact .cons ⟨hw, rfl, rfl⟩ .nil
    | bar | lpar | rpar | semi | amp | word => exact .nil

theorem redirLoop_sim (n : ℕ) :
    Sim (At mem es) (List.Forall₂ (RepRedir (IsWord mem))) Same (redirLoop mem es n)
      (Sh.redirLoop n) := by
  induction n with
  | zero => exact sim_throw rfl
  | succ n ih =>
    rw [redirLoop, Sh.redirLoop]
    refine sim_bind (peek_sim _) ?_
    rintro b _ rfl
    refine sim_ite Iff.rfl (fun _ => sim_bind gettoken_sim ?_) fun _ => sim_pure .nil
    intro tok o htok
    refine sim_bind gettoken_sim ?_
    intro x o' hx
    by_cases hword : x.ret = WORD
    · obtain ⟨w, rfl⟩ := hx.ret_eq_word.1 hword
      rw [if_pos hword]
      refine sim_bind ih ?_
      intro rs rs' hrs
      exact sim_pure (List.rel_append (redircmd_rep htok (hx.2 w rfl)) hrs)
    · rw [if_neg hword]
      split
      · next w => exact absurd (hx.ret_eq_word.2 ⟨w, rfl⟩) hword
      · exact sim_throw rfl

theorem parseredirs_sim :
    Sim (At mem es) (List.Forall₂ (RepRedir (IsWord mem))) Same (parseredirs mem es)
      Sh.parseredirs := by
  refine sim_get fun p t hp => ?_
  rw [hp.sub]
  exact redirLoop_sim _

/-- The words are in the slots from the first on. -/
def Holds (W : ℕ → ℕ → Str → Prop) (x : Exec) (ws : List Str) : Prop :=
  ∀ (i : ℕ) w, ws[i]? = some w → ∃ q e, x.argv i = some q ∧ x.eargv i = some e ∧ W q e w

theorem Holds.concat {x : Exec} {ws : List Str} (h : Holds W x ws) (hw : W q e w) :
    Holds W ⟨update x.argv ws.length (some q),
      update x.eargv ws.length (some e)⟩ (ws ++ [w]) := by
  intro i u hu
  rcases Nat.lt_trichotomy i ws.length with hi | rfl | hi
  · rw [List.getElem?_append_left hi] at hu
    simp only [update_of_ne (Nat.ne_of_lt hi)]
    exact h i u hu
  · rw [List.getElem?_concat_length] at hu
    obtain rfl := Option.some.inj hu
    exact ⟨q, e, update_self _ _ _, update_self _ _ _, hw⟩
  · rw [List.getElem?_eq_none (by simp; omega)] at hu
    cases hu

/-- What the loop over the arguments returns, from a node with the words `ws`. -/
structure RepArgs (mem : ℕ → UInt8) (ws : List Str) (r : ℕ × Exec × List Redir)
    (r' : List Str × List Sh.Redir) : Prop where
  argc : r.1 = (ws ++ r'.1).length
  room : r.1 < MAXARGS
  holds : Holds (IsWord mem) r.2.1 (ws ++ r'.1)
  redirs : List.Forall₂ (RepRedir (IsWord mem)) r.2.2 r'.2

theorem argLoop_sim (n : ℕ) {x : Exec} {ws : List Str} (hlen : ws.length < MAXARGS)
    (hx : Holds (IsWord mem) x ws) :
    Sim (At mem es) (RepArgs mem ws) Same (argLoop mem es n ws.length x)
      (Sh.argLoop n ws.length) := by
  induction n generalizing x ws with
  | zero => exact sim_throw rfl
  | succ n ih =>
    have hdone : RepArgs mem ws (ws.length, x, []) ([], []) :=
      ⟨by simp, hlen, by simpa using hx, .nil⟩
    rw [argLoop, Sh.argLoop]
    refine sim_bind (peek_sim _) ?_
    rintro b _ rfl
    refine sim_ite Iff.rfl (fun _ => sim_pure hdone) fun _ => sim_bind gettoken_sim ?_
    intro t o ht
    by_cases hzero : t.ret = 0
    · obtain rfl := ht.ret_eq_zero.1 hzero
      rw [if_pos hzero]
      exact sim_pure hdone
    by_cases hword : t.ret = WORD
    · obtain ⟨w, rfl⟩ := ht.ret_eq_word.1 hword
      rw [if_neg hzero, if_pos hword, setArg, if_pos hlen, pure_bind]
      refine sim_ite Iff.rfl (fun _ => sim_throw rfl) fun hroom => ?_
      refine sim_bind parseredirs_sim ?_
      intro rs rs' hrs
      have hconcat := hx.concat (ht.2 w rfl)
      have hlen' : (ws ++ [w]).length < MAXARGS := by
        rw [List.length_append, List.length_singleton]
        omega
      have hih := ih hlen' hconcat
      rw [List.length_append, List.length_singleton] at hih
      refine sim_bind hih ?_
      intro r r' hr
      refine sim_pure ⟨?_, hr.room, ?_, List.rel_append hrs hr.redirs⟩
      · simpa using hr.argc
      · simpa using hr.holds
    · rw [if_neg hzero, if_neg hword]
      split
      · exact absurd (ht.ret_eq_zero.2 rfl) hzero
      · next w => exact absurd (ht.ret_eq_word.2 ⟨w, rfl⟩) hword
      · exact sim_throw rfl

/-- The words are in the slots of a node, and a null pointer is after them. -/
structure RepExec (W : ℕ → ℕ → Str → Prop) (x : Exec) (ws : List Str) : Prop where
  holds : Holds W x ws
  room : ws.length < MAXARGS
  null : x.argv ws.length = none

theorem parseargs_sim :
    Sim (At mem es)
      (fun r r' => RepExec (IsWord mem) r.1 r'.1 ∧
        List.Forall₂ (RepRedir (IsWord mem)) r.2 r'.2) Same
      (parseargs mem es) Sh.parseargs := by
  refine sim_get fun p t hp => ?_
  rw [hp.sub]
  have hroom : ([] : List Str).length < MAXARGS := by decide
  refine sim_bind_left (argLoop_sim (t.length + 1) hroom (by simp [Holds])) ?_
  intro r r' s s' hr hs
  have hargc : r.1 = r'.1.length := hr.argc
  rw [wp_bind, setArg, if_pos hr.room, wp_pure, wp_pure]
  refine ⟨⟨⟨?_, hargc ▸ hr.room, ?_⟩, hr.redirs⟩, hs⟩
  · intro i w hw
    have hi : i ≠ r.1 := by
      rw [hargc]
      exact Nat.ne_of_lt (List.getElem?_eq_some_iff.1 hw).1
    simp only [update_of_ne hi]
    exact hr.holds i w hw
  · rw [← hargc]
    exact update_self _ _ _

/-- The tree over the buffer and the tree over the text, with `W` between pointers and words. -/
inductive Rep (W : ℕ → ℕ → Str → Prop) : Node → Cmd → Prop where
  | exec {x : Exec} {ws : List Str} (h : RepExec W x ws) : Rep W (.exec x) (.exec ws)
  | redir {n : Node} {c : Cmd} {r : Redir} {r' : Sh.Redir} (h : Rep W n c) (hr : RepRedir W r r') :
      Rep W (.redir n r) (.redir c r')
  | pipe {n n' : Node} {c c' : Cmd} (h : Rep W n c) (h' : Rep W n' c') :
      Rep W (.pipe n n') (.pipe c c')
  | list {n n' : Node} {c c' : Cmd} (h : Rep W n c) (h' : Rep W n' c') :
      Rep W (.list n n') (.list c c')
  | back {n : Node} {c : Cmd} (h : Rep W n c) : Rep W (.back n) (.back c)

theorem Rep.wrap {n : Node} {c : Cmd} {rs : List Redir} {rs' : List Sh.Redir} (h : Rep W n c)
    (hrs : List.Forall₂ (RepRedir W) rs rs') : Rep W (wrap n rs) (Sh.wrap c rs') := by
  induction hrs generalizing n c with
  | nil => exact h
  | cons hr _ ih => exact ih (h.redir hr)

theorem backLoop_sim (k : ℕ) {n : Node} {c : Cmd} (h : Rep (IsWord mem) n c) :
    Sim (At mem es) (Rep (IsWord mem)) Same (backLoop mem es k n) (Sh.backLoop k c) := by
  induction k generalizing n c with
  | zero => exact sim_throw rfl
  | succ k ih =>
    rw [backLoop, Sh.backLoop]
    exact accept_sim _ (ih h.back) (sim_pure h)

theorem parsebacks_sim {n : Node} {c : Cmd} (h : Rep (IsWord mem) n c) :
    Sim (At mem es) (Rep (IsWord mem)) Same (parsebacks mem es n) (Sh.parsebacks c) := by
  refine sim_get fun p t hp => ?_
  rw [hp.sub]
  exact backLoop_sim _ h

/-- The recursive functions with fuel `n`. -/
structure Sims (mem : ℕ → UInt8) (es n : ℕ) : Prop where
  line : Sim (At mem es) (Rep (IsWord mem)) Same (parseline mem es n) (Sh.parseline n)
  pipe : Sim (At mem es) (Rep (IsWord mem)) Same (parsepipe mem es n) (Sh.parsepipe n)
  exec : Sim (At mem es) (Rep (IsWord mem)) Same (parseexec mem es n) (Sh.parseexec n)
  block : Sim (At mem es) (Rep (IsWord mem)) Same (parseblock mem es n) (Sh.parseblock n)

theorem parseline_sim {n : ℕ} (h : Sims mem es n) :
    Sim (At mem es) (Rep (IsWord mem)) Same (parseline mem es (n + 1)) (Sh.parseline (n + 1)) := by
  rw [parseline, Sh.parseline]
  refine sim_bind h.pipe fun _ _ hpipe => sim_bind (parsebacks_sim hpipe) fun _ _ hback => ?_
  exact accept_sim _ (sim_bind h.line fun _ _ hline => sim_pure (hback.list hline)) (sim_pure hback)

theorem parsepipe_sim {n : ℕ} (h : Sims mem es n) :
    Sim (At mem es) (Rep (IsWord mem)) Same (parsepipe mem es (n + 1)) (Sh.parsepipe (n + 1)) := by
  rw [parsepipe, Sh.parsepipe]
  refine sim_bind h.exec fun _ _ hexec => ?_
  exact accept_sim _ (sim_bind h.pipe fun _ _ hpipe => sim_pure (hexec.pipe hpipe)) (sim_pure hexec)

theorem parseexec_sim {n : ℕ} (h : Sims mem es n) :
    Sim (At mem es) (Rep (IsWord mem)) Same (parseexec mem es (n + 1)) (Sh.parseexec (n + 1)) := by
  rw [parseexec, Sh.parseexec]
  refine sim_bind (peek_sim _) ?_
  rintro b _ rfl
  refine sim_ite Iff.rfl (fun _ => h.block) fun _ => ?_
  refine sim_bind parseredirs_sim fun _ _ hrs => sim_bind parseargs_sim fun _ _ hargs => ?_
  exact sim_pure ((Rep.exec hargs.1).wrap (List.rel_append hrs hargs.2))

theorem parseblock_sim {n : ℕ} (h : Sims mem es n) :
    Sim (At mem es) (Rep (IsWord mem)) Same (parseblock mem es (n + 1))
      (Sh.parseblock (n + 1)) := by
  rw [parseblock, Sh.parseblock]
  refine accept_sim _ (sim_bind h.line fun _ _ hline => ?_) (sim_throw rfl)
  exact accept_sim _ (sim_bind parseredirs_sim fun _ _ hrs => sim_pure (hline.wrap hrs))
    (sim_throw rfl)

theorem sims (n : ℕ) : Sims mem es n := by
  induction n with
  | zero => exact ⟨sim_throw rfl, sim_throw rfl, sim_throw rfl, sim_throw rfl⟩
  | succ n ih => exact ⟨parseline_sim ih, parsepipe_sim ih, parseexec_sim ih, parseblock_sim ih⟩

theorem parseall_sim : Sim (At mem es) (Rep (IsWord mem)) Same (parseall mem es) Sh.parseall := by
  refine sim_get fun p t hp => ?_
  rw [hp.sub]
  refine sim_bind (sims _).line fun n c hrep => ?_
  refine sim_bind (peek_sim _) fun _ _ _ => sim_get fun p t hp => ?_
  have hstop := hp.stop
  cases t with
  | nil =>
    rw [if_pos (by simpa using hstop)]
    exact sim_pure hrep
  | cons c t =>
    rw [List.length_cons] at hstop
    rw [if_neg (by omega)]
    exact sim_throw rfl

/-! ## Null bytes -/

/-- The memory `m` with null bytes at some of the ends of words. -/
def Cut (mem m : ℕ → UInt8) : Prop :=
  ∀ i, m i = mem i ∨ m i = 0 ∧ EndByte (mem i)

theorem IsWord.isStr {m : ℕ → UInt8} (h : IsWord mem q e w) (hm : Cut mem m) (he : m e = 0) :
    IsStr m q w where
  char i hi := by
    obtain ⟨hne, hpl⟩ := h.plain w[i] (List.getElem_mem hi)
    rcases hm (q + i) with heq | ⟨-, hend⟩
    · rw [heq, h.char i hi]
    · rw [h.char i hi] at hend
      rcases hend with h0 | h0
      · exact absurd h0 hne
      · rw [hpl] at h0
        cases h0
  null := h.stop ▸ he
  plain h0 := (h.plain 0 h0).1 rfl

theorem Rep.mono {n : Node} {c : Cmd} (h : Rep W n c) (hW : ∀ q e w, W q e w → W' q e w) :
    Rep W' n c := by
  induction h with
  | exec h =>
    refine .exec ⟨fun i w hw => ?_, h.room, h.null⟩
    obtain ⟨q, e, hq, he, hqe⟩ := h.holds i w hw
    exact ⟨q, e, hq, he, hW q e w hqe⟩
  | redir _ hr ih => exact ih.redir ⟨hW _ _ _ hr.file, hr.mode, hr.fd⟩
  | pipe _ _ ih ih' => exact ih.pipe ih'
  | list _ _ ih ih' => exact ih.list ih'
  | back _ ih => exact ih.back

/-- The word `w` stands from `q` to `e`, and its end is written. -/
def Ended (mem m : ℕ → UInt8) (q e : ℕ) (w : Str) : Prop :=
  IsWord mem q e w ∧ m e = 0

/-- What `nulterminate` does to the memory : null bytes are written at ends of words. -/
structure Writes (mem m m' : ℕ → UInt8) : Prop where
  cut : Cut mem m'
  keep : ∀ i, m i = 0 → m' i = 0

theorem Writes.trans {m m' m'' : ℕ → UInt8} (h : Writes mem m m') (h' : Writes mem m' m'') :
    Writes mem m m'' :=
  ⟨h'.cut, fun i hi => h'.keep i (h.keep i hi)⟩

theorem writes_zero {m : ℕ → UInt8} (h : Cut mem m) (hp : EndByte (mem p)) :
    Writes mem m (update m p 0) := by
  refine ⟨fun i => ?_, fun i hi => ?_⟩
  · by_cases hip : i = p
    · subst hip
      exact .inr ⟨update_self _ _ _, hp⟩
    · rw [update_of_ne hip]
      exact h i
  · by_cases hip : i = p
    · subst hip
      exact update_self _ _ _
    · rwa [update_of_ne hip]

theorem Rep.writes {m m' : ℕ → UInt8} {n : Node} {c : Cmd} (h : Rep (Ended mem m) n c)
    (hm : Writes mem m m') : Rep (Ended mem m') n c :=
  h.mono fun _ _ _ hw => ⟨hw.1, hm.keep _ hw.2⟩

theorem argvLoop_spec {m : ℕ → UInt8} {x : Exec} {ws : List Str} {k i : ℕ}
    (hx : RepExec (IsWord mem) x ws) (hm : Cut mem m) (hi : i ≤ ws.length) (hk : ws.length < i + k)
    (hdone : ∀ (j : ℕ) w, j < i → ws[j]? = some w →
      ∃ q e, x.argv j = some q ∧ x.eargv j = some e ∧ Ended mem m q e w) :
    wp (argvLoop x k i) (fun _ m' => Writes mem m m' ∧ RepExec (Ended mem m') x ws)
      (fun _ _ => False) m := by
  induction k generalizing i m with
  | zero => omega
  | succ k ih =>
    rw [argvLoop]
    rcases Nat.lt_or_eq_of_le hi with hlt | rfl
    · obtain ⟨q, e, hq, he, hw⟩ := hx.holds i ws[i] (List.getElem?_eq_getElem hlt)
      rw [if_pos (by simp [hq]), he]
      dsimp only
      rw [zero, wp_bind, wp_modify]
      have hzero : Writes mem m (update m e 0) := writes_zero hm hw.ends
      refine wp_mono (ih hzero.cut hlt (by omega) ?_) ?_
      · intro j u hj hu
        rcases Nat.lt_succ_iff_lt_or_eq.1 hj with hj | rfl
        · obtain ⟨q', e', hq', he', hend⟩ := hdone j u hj hu
          exact ⟨q', e', hq', he', hend.1, hzero.keep _ hend.2⟩
        · obtain rfl := Option.some.inj ((List.getElem?_eq_getElem hlt).symm.trans hu)
          exact ⟨q, e, hq, he, hw, update_self _ _ _⟩
      · rintro _ m' ⟨hm', hx'⟩
        exact ⟨hzero.trans hm', hx'⟩
    · rw [if_neg (by simp [hx.null]), wp_pure]
      refine ⟨⟨hm, fun _ h => h⟩, ?_, hx.room, hx.null⟩
      intro j w hw
      exact hdone j w (List.getElem?_eq_some_iff.1 hw).1 hw

/-- `nulterminate` writes the ends of all the words of the tree. -/
theorem nulterminate_spec {m : ℕ → UInt8} {n : Node} {c : Cmd} (h : Rep (IsWord mem) n c)
    (hm : Cut mem m) :
    wp (nulterminate n) (fun _ m' => Writes mem m m' ∧ Rep (Ended mem m') n c)
      (fun _ _ => False) m := by
  induction h generalizing m with
  | exec hx =>
    refine wp_mono (argvLoop_spec hx hm (Nat.zero_le _) ?_ ?_) ?_
    · simpa using hx.room
    · exact fun j w hj => absurd hj (Nat.not_lt_zero j)
    · rintro _ m' ⟨hw, hx'⟩
      exact ⟨hw, .exec hx'⟩
  | redir _ hr ih =>
    rw [nulterminate]
    refine wp_seq (ih hm) ?_
    rintro _ m' ⟨hw, hn⟩
    have hzero := writes_zero hw.cut hr.file.ends
    exact ⟨hw.trans hzero,
      (hn.writes hzero).redir ⟨⟨hr.file, update_self _ _ _⟩, hr.mode, hr.fd⟩⟩
  | pipe _ _ ih ih' =>
    rw [nulterminate]
    refine wp_seq (ih hm) ?_
    rintro _ m1 ⟨hw, hn⟩
    refine wp_mono (ih' hw.cut) ?_
    rintro _ m2 ⟨hw', hn'⟩
    exact ⟨hw.trans hw', (hn.writes hw').pipe hn'⟩
  | list _ _ ih ih' =>
    rw [nulterminate]
    refine wp_seq (ih hm) ?_
    rintro _ m1 ⟨hw, hn⟩
    refine wp_mono (ih' hw.cut) ?_
    rintro _ m2 ⟨hw', hn'⟩
    exact ⟨hw.trans hw', (hn.writes hw').list hn'⟩
  | back _ ih =>
    refine wp_mono (ih hm) ?_
    rintro _ m' ⟨hw, hn⟩
    exact ⟨hw, hn.back⟩

/-! ## `parsecmd` -/

/-- The word `w` is the text from `q` to `e`, and the string at `q` after `nulterminate`. -/
def Kept (mem m : ℕ → UInt8) (q e : ℕ) (w : Str) : Prop :=
  IsWord mem q e w ∧ IsStr m q w

/-- `parsecmd` on memory does what it does on texts. -/
theorem parsecmd_spec {s size : ℕ} {line : Str} (h : IsStr mem s line)
    (hsize : line.length < size) :
    wp (parsecmd s size) (fun n m => ∃ c, Sh.parsecmd line = .ok c ∧ Rep (Kept mem m) n c)
      (fun x _ => ∃ e, x = .sh e ∧ Sh.parsecmd line = .error e) mem := by
  have hat : At mem (s + line.length) s line := ⟨h, rfl⟩
  rw [parsecmd, wp_bind, wp_get, h.readStr_eq (Nat.le_of_lt hsize)]
  cases hp : parseall mem (s + line.length) s with
  | ok n p =>
    obtain ⟨c, t, hc, hrep, -⟩ := parseall_sim.ok hat hp
    refine wp_seq_total (nulterminate_spec hrep fun _ => .inl rfl) ?_
    rintro _ m ⟨hm, hn⟩
    refine ⟨c, by rw [Sh.parsecmd, hc], hn.mono fun q e w hw => ?_⟩
    exact ⟨hw.1, hw.1.isStr hm.cut hw.2⟩
  | error x p =>
    obtain ⟨e, t, he, rfl⟩ := parseall_sim.error hat hp
    exact ⟨e, rfl, by rw [Sh.parsecmd, he]⟩

/-- Every word of the tree that `parsecmd` returns is a string after `nulterminate`, with the
characters of its token; the words of a simple command are in its slots, with a null pointer after
them. -/
theorem parsecmd_words (mem m : ℕ → UInt8) (s size : ℕ) (line : Str) (n : Node)
    (h : IsStr mem s line) (hsize : line.length < size) (hn : parsecmd s size mem = .ok n m) :
    ∃ c, Sh.parsecmd line = .ok c ∧ Rep (Kept mem m) n c :=
  wp_ok (parsecmd_spec h hsize) hn

/-- The line `a>b`, in which the end of `a` is the operator. -/
theorem parsecmd_words_redir :
    IsStr (fun i => [97, GT, 98].getD i 0) 0 [97, GT, 98] ∧
      ∃ n m, parsecmd 0 4 (fun i => [97, GT, 98].getD i 0) = .ok n m ∧
        ∃ c, Sh.parsecmd [97, GT, 98] = .ok c ∧
          Rep (Kept (fun i => [97, GT, 98].getD i 0) m) n c := by
  have hstr : IsStr (fun i => [97, GT, 98].getD i 0) 0 [97, GT, 98] := ⟨by decide, rfl, by decide⟩
  exact ⟨hstr, _, _, rfl, parsecmd_words _ _ 0 4 _ _ hstr (by decide) rfl⟩

end Xv6.ShBuf
