import Xv6.Lib.Cstring
import Xv6.Memmove

/-!
# `grep`

`grep.c` : the matcher `match`, `matchhere` and `matchstar`, and the loop `grep` that reads into a
buffer, writes the lines that match, and carries the rest of the buffer over to the next read. A
string is the list of its characters, without the null byte after them.

`match` is a keyword, so the function is `matchre` here.
-/

open Function Cstring

namespace Xv6.Grep

/-- A string of C without its null byte. -/
abbrev Str := List UInt8

abbrev NEWLINE : UInt8 := 10
abbrev DOLLAR : UInt8 := 36
abbrev STAR : UInt8 := 42
abbrev DOT : UInt8 := 46
abbrev CARET : UInt8 := 94

/-! ## The matcher -/

/-- The loop of `matchstar`, with `here` for the call `matchhere(re, ·)`. -/
def starLoop (here : Str → Bool) (c : UInt8) : Str → Bool
  | [] => here []
  | t :: text => here (t :: text) || ((t == c || c == DOT) && starLoop here c text)

/-- The end of `matchhere`, where a character of the pattern stands for one of the text, with `next`
for the call `matchhere(re+1, ·)`. -/
def matchone (next : Str → Bool) (c : UInt8) : Str → Bool
  | [] => false
  | t :: text => (c == DOT || c == t) && next text

/-- `matchhere`. The pattern is at its end, at its last character, or `re[1]` is a character. -/
def matchhere : Str → Str → Bool
  | [], _ => true
  | [c], text => if c = DOLLAR then text == [] else matchone (matchhere []) c text
  | c :: d :: re, text =>
    if d = STAR then starLoop (matchhere re) c text else matchone (matchhere (d :: re)) c text

def matchstar (c : UInt8) (re text : Str) : Bool :=
  starLoop (matchhere re) c text

theorem matchhere_star (c : UInt8) (re text : Str) :
    matchhere (c :: STAR :: re) text = matchstar c re text := by
  rw [matchhere, if_pos rfl, matchstar]

/-- The loop of `match`. -/
def matchLoop (re : Str) : Str → Bool
  | [] => matchhere re []
  | t :: text => matchhere re (t :: text) || matchLoop re text

/-- `match`. -/
def matchre (re text : Str) : Bool :=
  if re.head? = some CARET then matchhere re.tail text else matchLoop re text

/-! ## The buffer -/

/-- `sizeof(buf)`. -/
abbrev BUFSIZE : ℕ := 1024

/-- The bytes of `l` are stored at `p`. -/
def store (buf : ℕ → UInt8) (p : ℕ) (l : List UInt8) : ℕ → UInt8 :=
  fun i => if h : p ≤ i ∧ i - p < l.length then l[i - p] else buf i

/-- `memmove` of `ulib.c`. -/
def memmove (buf : ℕ → UInt8) (dst src n : ℕ) : ℕ → UInt8 :=
  Memmove.copyUp n dst src buf

/-- The buffer, the number `m` of bytes carried over in it, and the bytes written. -/
structure State where
  buf : ℕ → UInt8
  m : ℕ
  out : List UInt8

/-- The inner loop from `p` on, in at most `fuel` turns, with the `p` it ends with. -/
def lineLoop (re : Str) : ℕ → (ℕ → UInt8) → List UInt8 → ℕ → (ℕ → UInt8) × List UInt8 × ℕ
  | 0, buf, out, p => (buf, out, p)
  | fuel + 1, buf, out, p =>
    match strchr buf NEWLINE (BUFSIZE - p) p with
    | none => (buf, out, p)
    | some q =>
      let buf := update buf q 0
      if matchre re (readStr buf (BUFSIZE - p) p) then
        let buf := update buf q NEWLINE
        lineLoop re fuel buf (out ++ (List.range (q + 1 - p)).map fun i => buf (p + i)) (q + 1)
      else
        lineLoop re fuel buf out (q + 1)

/-- The end of a turn : what is left from `p` on moves to the front. -/
def carry (buf : ℕ → UInt8) (out : List UInt8) (m p : ℕ) : State :=
  let m := if p = 0 then 0 else m
  if 0 < m then ⟨memmove buf 0 p (m - p), m - p, out⟩ else ⟨buf, m, out⟩

/-- A turn of the loop of `grep`, in which `read` returned the bytes `chunk`. A buffer has at most
as many lines as bytes. -/
def turn (re : Str) (s : State) (chunk : List UInt8) : State :=
  let m := s.m + chunk.length
  let buf := update (store s.buf s.m chunk) m 0
  let r := lineLoop re BUFSIZE buf s.out 0
  carry r.1 r.2.1 m r.2.2

/-- `grep`, where `read` returns the chunks one after the other, and then 0. -/
def grep (re : Str) : List (List UInt8) → State → State
  | [], s => s
  | chunk :: chunks, s => grep re chunks (turn re s chunk)

/-- What `read` is asked for. -/
def request (s : State) : ℕ :=
  BUFSIZE - s.m - 1

/-- No chunk is empty or longer than what `read` is asked for. -/
def Reads (re : Str) : State → List (List UInt8) → Prop
  | _, [] => True
  | s, chunk :: chunks =>
    chunk ≠ [] ∧ chunk.length ≤ request s ∧ Reads re (turn re s chunk) chunks

/-- `grep` starts with the empty buffer. -/
def start : State :=
  ⟨fun _ => 0, 0, []⟩

end Xv6.Grep
