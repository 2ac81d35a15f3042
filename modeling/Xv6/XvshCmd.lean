import Xv6.XvshTokens

/-!
# The commands of `xvsh`

What `process_one_cmd` does with a line as the list of calls it makes (`cmdCalls`). The line decides
three things : whether there is a first token, without which `exit_check` and `exec` are given a
null pointer, whether the first token is `exit`, and the index `bg` of the last token with `&`,
which `process_normal` compares with one in two ways. Between `bg < 1`, where it waits, and
`bg > 1`, where it announces the command, is the command of one word with `&` after it.
-/

namespace Xv6.XvshBuf

open Prog Cstring Runs
open Xvsh (MAXLINE SPACE AMP Word exitWord isAmp)

variable {m m' : Mem} {E : Stop → Mem → Prop} {l w : List UInt8} {e : Env} {bg p : ℕ}
  {rs : List (ℕ × Word)}

/-! ## The calls of a command -/

/-- The entry `tok[0]`. -/
def path (rs : List (ℕ × Word)) : Option ℕ :=
  rs.head?.map Prod.fst

/-- What `exit_check` returns. -/
def exits (e : Env) (rs : List (ℕ × Word)) : Bool :=
  rs.head?.elim e.null fun x => x.2 = exitWord

theorem exits_eq (h : rs[0]? = some (p, w)) : exits e rs = decide (w = exitWord) := by
  rw [exits, List.head?_eq_getElem?, h]
  rfl

/-- The calls of `process_normal`. -/
def normalCalls (e : Env) (path : Option ℕ) (bg : ℕ) : List Call :=
  .fork e.fork ::
    if 0 < e.fork ∧ bg < 1 then [.wait]
    else if e.fork = 0 then
      .exec path :: if e.exec then [] else [.printf "Cannot run this command %s \n" (.str path)]
    else if 1 < bg then [background e.fork]
    else []

/-- The calls of `process_one_cmd` on a line with the tokens `rs`. -/
def cmdCalls (e : Env) (rs : List (ℕ × Word)) : List Call :=
  if e.malloc then
    .exit_check (path rs) ::
      if exits e rs then [.wait] else normalCalls e (path rs) (lastAmp 1 rs.tail 0)
  else [.printf "malloc failed\n" .none]

theorem strcmpEq_spec {u : Word} (h : IsStr m.buf p w) (hsize : p + w.length < m.size)
    (hu : (0 : UInt8) ∉ u) :
    wp (strcmpEq p u) (fun b m' => b = decide (w = u) ∧ m' = m) E m := by
  induction u generalizing p w with
  | nil =>
    rw [strcmpEq, wp_bind, wp_load (by omega), wp_pure, h.head]
    refine ⟨?_, rfl⟩
    cases w with
    | nil => rfl
    | cons c w => simpa using (IsStr.cons_iff.1 h).2.1
  | cons c u ih =>
    rw [List.mem_cons, not_or] at hu
    rw [strcmpEq, wp_bind, wp_load (by omega), h.head]
    cases w with
    | nil =>
      rw [List.headD_nil, if_neg hu.1]
      exact ⟨rfl, rfl⟩
    | cons d w =>
      rw [List.length_cons] at hsize
      rw [List.headD_cons]
      split_ifs with hd
      · refine wp_mono (ih (IsStr.cons_iff.1 h).2.2 (by omega) hu.2) ?_
        rintro _ _ ⟨rfl, rfl⟩
        simp [hd]
      · simp [hd]

theorem exit_check_spec (h : Scanned m m' rs) :
    wp (exit_check e) (fun b m'' => b = exits e rs ∧
      m'' = { m' with calls := m.calls ++ [.exit_check (path rs)] }) E m' := by
  rw [exit_check, wp_bind, wp_getTok h.room, wp_bind, wp_call, h.first, h.calls]
  cases rs with
  | nil => exact ⟨rfl, rfl⟩
  | cons x rs =>
    exact strcmpEq_spec (h.str x List.mem_cons_self) (h.fits x List.mem_cons_self) (by decide)

theorem process_normal_spec (h : 0 < m.cap) :
    wp (process_normal e bg)
      (fun _ m' => m'.size = m.size ∧ m'.calls = m.calls ++ normalCalls e (m.tok 0) bg)
      (fun x m' => x = .exec ∧ m'.calls = m.calls ++ normalCalls e (m.tok 0) bg) m := by
  rw [process_normal, wp_bind, wp_call]
  unfold normalCalls
  split_ifs with hwait hchild hexec hbg
  · simp
  · rw [wp_bind, wp_getTok (by exact h), wp_bind, wp_call, wp_throw]
    simp
  · rw [wp_bind, wp_getTok (by exact h), wp_bind, wp_call, wp_call]
    simp
  · simp
  · simp

/-- The calls of `process_one_cmd`, which uses no index outside the buffer or `tok`. -/
theorem process_one_cmd_spec (h : IsStr m.buf 0 l) (hsize : l.length < m.size) (hne : l ≠ []) :
    wp (process_one_cmd e)
      (fun _ m' => m'.size = m.size ∧ m'.calls = m.calls ++ cmdCalls e (runs SPACE 0 l))
      (fun x m' => (x = .exit ∨ x = .exec) ∧ m'.calls = m.calls ++ cmdCalls e (runs SPACE 0 l))
      m := by
  rw [process_one_cmd]
  unfold cmdCalls
  cases he : e.malloc with
  | false =>
    rw [scanTokens, wp_bind]
    refine wp_seq (strlen_spec h hsize) ?_
    rintro _ _ ⟨rfl, rfl⟩
    refine wp_seq (countTok_spec h hsize hne) ?_
    rintro _ m ⟨rfl, rfl⟩
    simp [he]
  | true =>
    refine wp_seq (scanTokens_spec h hsize hne he) ?_
    rintro _ m1 ⟨rfl, hscan⟩
    refine wp_seq (exit_check_spec hscan) ?_
    rintro _ _ ⟨rfl, rfl⟩
    simp only [↓reduceIte]
    split_ifs with hexit
    · simp
    · refine wp_mono' (process_normal_spec (by exact hscan.room)) ?_ ?_
      · rintro _ m2 ⟨hs, hc⟩
        refine ⟨hs.trans hscan.size, ?_⟩
        rw [hc, hscan.first]
        simp [path]
      · rintro x m2 ⟨rfl, hc⟩
        refine ⟨.inr rfl, ?_⟩
        rw [hc, hscan.first]
        simp [path]

/-- On a line that is not empty, `process_one_cmd` uses no index outside the buffer or `tok`. The
scan ends with the maximal runs of characters other than the space in `tok`, each a string in the
buffer, with null for those after the first that start with `&`, and null after them. -/
theorem process_one_cmd_tokens (e : Env) (m : Mem) (l : List UInt8) (hstr : IsStr m.buf 0 l)
    (hne : l ≠ []) (hsize : l.length < m.size) :
    (∀ x m', process_one_cmd e m = .error x m' → x = .exit ∨ x = .exec) ∧
    (e.malloc = true → ∃ bg m' rs, scanTokens e m = .ok bg m' ∧ IsRuns l rs ∧
      (∀ (j : ℕ) p w, rs[j]? = some (p, w) → IsStr m'.buf p w ∧
        m'.tok j = if 0 < j ∧ isAmp w then none else some p) ∧
      m'.tok rs.length = none ∧ IsLastAmp rs bg) := by
  refine ⟨fun x m' hx => (wp_error (process_one_cmd_spec hstr hsize hne) hx).1, fun he => ?_⟩
  obtain ⟨bg, m', hrun, rfl, hscan⟩ := exists_ok_of_wp (scanTokens_spec hstr hsize hne he)
  refine ⟨_, m', _, hrun, isRuns_runs l, ?_, hscan.null, isLastAmp_lastAmp _⟩
  intro j p w hj
  refine ⟨hscan.str (p, w) (List.mem_of_getElem? hj), ?_⟩
  cases j with
  | zero =>
    rw [hscan.first, List.head?_eq_getElem?, hj]
    rfl
  | succ j =>
    rw [hscan.tok j (p, w) hj, entry]
    simp

/-- The line `a &`. -/
theorem process_one_cmd_tokens_amp :
    IsStr (fun i => [97, SPACE, AMP].getD i 0) 0 [97, SPACE, AMP] ∧
      ∃ bg m' rs, scanTokens ⟨true, false, 2, true⟩
          { start with buf := fun i => [97, SPACE, AMP].getD i 0 } = .ok bg m' ∧
        IsRuns [97, SPACE, AMP] rs ∧
        (∀ (j : ℕ) p w, rs[j]? = some (p, w) → IsStr m'.buf p w ∧
          m'.tok j = if 0 < j ∧ isAmp w then none else some p) ∧
        m'.tok rs.length = none ∧ IsLastAmp rs bg := by
  have hstr : IsStr (fun i => [97, SPACE, AMP].getD i 0) 0 [97, SPACE, AMP] :=
    ⟨by decide, rfl, by decide⟩
  exact ⟨hstr, (process_one_cmd_tokens ⟨true, false, 2, true⟩
    { start with buf := fun i => [97, SPACE, AMP].getD i 0 } _ hstr (by decide) (by decide)).2 rfl⟩

/-! ## The name of the program -/

/-- The calls of a run, however it ends. -/
def callsOf (r : EStateM.Result Stop Mem Unit) : List Call :=
  match r with
  | .ok _ m => m.calls
  | .error _ m => m.calls

theorem callsOf_process (h : IsStr m.buf 0 l) (hsize : l.length < m.size) (hne : l ≠ []) :
    callsOf (process_one_cmd e { m with calls := [] }) = cmdCalls e (runs SPACE 0 l) := by
  have hspec := process_one_cmd_spec (m := { m with calls := [] }) (e := e) h hsize hne
  unfold wp at hspec
  unfold callsOf
  cases hr : process_one_cmd e { m with calls := [] } with
  | ok a m' =>
    rw [hr] at hspec
    exact hspec.2
  | error x m' =>
    rw [hr] at hspec
    exact hspec.2

theorem path_of_mem {t : Option ℕ} (h : .exit_check t ∈ cmdCalls e rs ∨ .exec t ∈ cmdCalls e rs) :
    t = path rs := by
  unfold cmdCalls normalCalls background at h
  split_ifs at h <;> simp at h <;> exact h

/-- `exit_check` and `exec` are given a program's name, whatever the kernel answers, if and only if
a character of the line is no space. -/
theorem path_ne_null_iff (m : Mem) (l : List UInt8) (hstr : IsStr m.buf 0 l) (hne : l ≠ [])
    (hsize : l.length < m.size) :
    (∀ e t, .exit_check t ∈ callsOf (process_one_cmd e { m with calls := [] }) ∨
      .exec t ∈ callsOf (process_one_cmd e { m with calls := [] }) → t ≠ none) ↔
    ∃ c ∈ l, c ≠ SPACE := by
  have hnil : path (runs SPACE 0 l) = none ↔ ∀ c ∈ l, c = SPACE := by
    rw [← runs_eq_nil (p := 0)]
    simp [path]
  simp only [callsOf_process hstr hsize hne]
  constructor
  · intro h
    by_contra hall
    push Not at hall
    refine h ⟨true, false, 1, true⟩ (path (runs SPACE 0 l)) (.inl ?_) (hnil.2 hall)
    simp [cmdCalls]
  · rintro ⟨c, hc, hsp⟩ e t ht
    rw [path_of_mem ht]
    exact fun h => hsp (hnil.1 h c hc)

/-- The line `a b &`. -/
def bgLine : List UInt8 := [97, SPACE, 98, SPACE, AMP]

theorem isStr_bgLine : IsStr (fun i => bgLine.getD i 0) 0 bgLine :=
  ⟨by decide, rfl, by decide⟩

theorem path_ne_null_bgLine : IsStr (fun i => bgLine.getD i 0) 0 bgLine ∧ ∀ e t,
    .exit_check t ∈ callsOf (process_one_cmd e
        { start with buf := fun i => bgLine.getD i 0, calls := [] }) ∨
      .exec t ∈ callsOf (process_one_cmd e
        { start with buf := fun i => bgLine.getD i 0, calls := [] }) → t ≠ none :=
  ⟨isStr_bgLine, (path_ne_null_iff { start with buf := fun i => bgLine.getD i 0 } _ isStr_bgLine
    (by decide) (by decide)).2 ⟨97, by decide, by decide⟩⟩

/-- `exit_check` is given a null pointer on a line of two spaces. -/
theorem main_path_null : Call.exit_check none ∈ callsOf
    (main [⟨some [SPACE, SPACE, Xvsh.NEWLINE], by decide, ⟨true, false, 2, true⟩⟩] start) := by
  decide +kernel

/-! ## Background commands -/

/-- A token after the first starts with `&`. -/
def HasAmp (rs : List (ℕ × Word)) : Prop :=
  ∃ (j : ℕ) (p : ℕ) (w : Word), 0 < j ∧ rs[j]? = some (p, w) ∧ isAmp w

/-- The shell waits for a command without `&` and announces no process; it does not wait for a
command with `&` and announces it once, with the number of the process. -/
def Announced (amp : Prop) (calls : List Call) : Prop :=
  ∀ pid, 0 < pid → .fork pid ∈ calls →
    (amp → .wait ∉ calls ∧ calls.count (background pid) = 1 ∧ ∀ x ≠ pid, background x ∉ calls) ∧
    (¬ amp → .wait ∈ calls ∧ ∀ x, background x ∉ calls)

theorem hasAmp_iff (h : IsLastAmp rs bg) : HasAmp rs ↔ 0 < bg := by
  constructor
  · rintro ⟨j, p, w, hj, hw, hamp⟩
    by_contra hbg
    exact h.2 j p w hj (by omega) hw hamp
  · intro hbg
    obtain ⟨p, w, hw, hamp⟩ := (h.1.resolve_left (Nat.ne_of_gt hbg)).2
    exact ⟨bg, p, w, hbg, hw, hamp⟩

theorem IsLastAmp.le {bg' : ℕ} (h : IsLastAmp rs bg) (h' : IsLastAmp rs bg') : bg ≤ bg' := by
  by_contra hlt
  obtain ⟨p, w, hw, hamp⟩ := (h.1.resolve_left (by omega)).2
  exact h'.2 bg p w (by omega) (by omega) hw hamp

theorem fork_of_mem {x : ℤ} {t : Option ℕ} (h : .fork x ∈ normalCalls e t bg) : x = e.fork := by
  unfold normalCalls background at h
  split_ifs at h <;> simpa using h

theorem announced_zero (e : Env) (t : Option ℕ) :
    Announced False (.exit_check t :: normalCalls e t 0) := by
  intro pid hpid hfork
  obtain rfl := fork_of_mem (by simpa using hfork)
  simp [normalCalls, background, hpid]

theorem announced_of_one_lt (e : Env) (t : Option ℕ) (hbg : 1 < bg) :
    Announced True (.exit_check t :: normalCalls e t bg) := by
  intro pid hpid hfork
  obtain rfl := fork_of_mem (by simpa using hfork)
  have hcalls : normalCalls e t bg = [.fork e.fork, background e.fork] := by
    rw [normalCalls, if_neg (by omega), if_neg (Int.ne_of_gt hpid), if_pos hbg]
  rw [hcalls]
  refine ⟨fun _ => ⟨by simp [background], by simp [background], ?_⟩, fun h => absurd trivial h⟩
  intro x hx
  simpa [background] using hx

theorem not_announced_one (t : Option ℕ) :
    ¬ Announced True (.exit_check t :: normalCalls ⟨true, false, 2, true⟩ t 1) := by
  intro h
  obtain ⟨-, hcount, -⟩ := (h 2 (by decide) (by simp [normalCalls])).1 trivial
  exact absurd hcount (by simp [normalCalls, background])

/-- The shell waits for commands without `&` and announces those with `&`, for every process number
that `fork` returns, unless the second token is the last one with `&`, on a line that is not
`exit`. -/
theorem announced_iff (m : Mem) (l : List UInt8) (rs : List (ℕ × Word)) (hstr : IsStr m.buf 0 l)
    (hne : l ≠ []) (hsize : l.length < m.size) (hrs : IsRuns l rs) :
    (∀ e, Announced (HasAmp rs) (callsOf (process_one_cmd e { m with calls := [] }))) ↔
      ¬ (IsLastAmp rs 1 ∧ ∀ p w, rs[0]? = some (p, w) → w ≠ exitWord) := by
  simp only [callsOf_process hstr hsize hne, ← hrs.eq_runs]
  have hlast := isLastAmp_lastAmp rs
  have hamp := hasAmp_iff hlast
  constructor
  · rintro h ⟨hone, hexit⟩
    have hbg : lastAmp 1 rs.tail 0 = 1 := Nat.le_antisymm (hlast.le hone) (hone.le hlast)
    obtain ⟨x, hx⟩ : ∃ x, rs[0]? = some x := by
      obtain ⟨p, w, hw, -⟩ := (hone.1.resolve_left Nat.one_ne_zero).2
      have hlt := (List.getElem?_eq_some_iff.1 hw).1
      exact ⟨rs[0], List.getElem?_eq_getElem _⟩
    have hno := h ⟨true, false, 2, true⟩
    rw [cmdCalls, if_pos rfl, exits_eq hx, if_neg (by simpa using hexit x.1 x.2 hx), hbg] at hno
    rw [hbg, iff_true_right Nat.one_pos] at hamp
    rw [eq_true hamp] at hno
    exact not_announced_one _ hno
  · intro h e
    unfold cmdCalls
    split_ifs with he hexit
    · intro pid _ hfork
      simp at hfork
    · rcases Nat.lt_trichotomy (lastAmp 1 rs.tail 0) 1 with hbg | hbg | hbg
      · rw [Nat.lt_one_iff] at hbg
        rw [hbg, iff_false_right (Nat.lt_irrefl 0)] at hamp
        rw [hbg, eq_false hamp]
        exact announced_zero e _
      · -- the first token is `exit`, so `process_normal` was not called
        refine absurd (fun p w hw => ?_) fun hne => h ⟨hbg ▸ hlast, hne⟩
        rw [exits_eq hw] at hexit
        simpa using hexit
      · rw [iff_true_right (by omega)] at hamp
        rw [eq_true hamp]
        exact announced_of_one_lt e _ hbg
    · intro pid _ hfork
      simp at hfork

/-- The line `a b &` is announced. -/
theorem announced_bgLine :
    HasAmp [(0, [97]), (2, [98]), (4, [AMP])] ∧
      ∀ e, Announced (HasAmp [(0, [97]), (2, [98]), (4, [AMP])]) (callsOf (process_one_cmd e
        { start with buf := fun i => bgLine.getD i 0, calls := [] })) := by
  have hruns : IsRuns bgLine [(0, [97]), (2, [98]), (4, [AMP])] := by
    have h := isRuns_runs bgLine
    rwa [show runs SPACE 0 bgLine = [(0, [97]), (2, [98]), (4, [AMP])] by
      simp [bgLine, runs, SPACE, AMP]] at h
  refine ⟨⟨2, 4, [AMP], by decide, rfl, rfl⟩, (announced_iff
    { start with buf := fun i => bgLine.getD i 0 } _ _ isStr_bgLine (by decide) (by decide)
    hruns).2 ?_⟩
  rintro ⟨hone, -⟩
  exact hone.2 2 4 [AMP] (by decide) (by decide) rfl rfl

/-- The command `a &` runs as process 2, and nothing is printed but the prompt. -/
theorem main_not_announced :
    callsOf (main
      [⟨some [97, SPACE, AMP, Xvsh.NEWLINE], by decide, ⟨true, false, 2, true⟩⟩] start) =
      [.printf "xvsh> " .none, .exit_check (some 0), .fork 2, .printf "xvsh> " .none] := by
  decide +kernel

end Xv6.XvshBuf
