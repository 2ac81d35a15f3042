import Mathlib.Computability.Language
import Xv6.Grep

/-!
# The regular expressions of `grep`

A pattern is read from left to right into items (`read`) : a character with a `*` after it stands
for any number of it, another for one of it, where `.` is any character. A `^` at the start and a
`$` without a `*` at the end anchor the pattern. `matchre` decides whether a part of the text is in
the language of the items, at the ends of the text where the pattern is anchored (`matchre_iff`).
-/

open Computability List

namespace Xv6.Grep

/-! ## Patterns -/

/-- A character of a pattern, and whether a `*` follows it. -/
structure Item where
  char : UInt8
  star : Bool

/-- The characters a character of a pattern stands for. -/
def Item.chars (i : Item) : Set UInt8 :=
  { t | i.char = DOT ∨ i.char = t }

/-- The texts of one character an item stands for. -/
def Item.one (i : Item) : Language UInt8 :=
  { w | ∃ t ∈ i.chars, w = [t] }

/-- The language of an item. -/
def Item.lang (i : Item) : Language UInt8 :=
  if i.star then i.one∗ else i.one

/-- A pattern : its items, and whether it is anchored at the start and at the end. -/
structure Pattern where
  start : Bool
  items : List Item
  stop : Bool

/-- The items of a pattern after `^`, and whether a `$` is left at its end. -/
def readItems : Str → List Item × Bool
  | [] => ([], false)
  | [c] => if c = DOLLAR then ([], true) else ([⟨c, false⟩], false)
  | c :: d :: re =>
    if d = STAR then (⟨c, true⟩ :: (readItems re).1, (readItems re).2)
    else (⟨c, false⟩ :: (readItems (d :: re)).1, (readItems (d :: re)).2)

/-- The pattern of a string. -/
def read (re : Str) : Pattern :=
  if re.head? = some CARET then ⟨true, (readItems re.tail).1, (readItems re.tail).2⟩
  else ⟨false, (readItems re).1, (readItems re).2⟩

/-- The language of items one after the other. -/
def lang (items : List Item) : Language UInt8 :=
  (items.map Item.lang).prod

/-- Some part of the text is in the language of the pattern, the anchors being at its ends. -/
def Pattern.Matches (pat : Pattern) (text : Str) : Prop :=
  ∃ pre mid post, text = pre ++ mid ++ post ∧ mid ∈ lang pat.items ∧
    (pat.start = true → pre = []) ∧ (pat.stop = true → post = [])

/-! ## Languages -/

variable {i : Item} {items : List Item} {c : UInt8} {w text : Str}

@[simp] theorem mem_lang_nil : w ∈ lang [] ↔ w = [] :=
  Language.mem_one w

@[simp] theorem mem_lang_cons :
    w ∈ lang (i :: items) ↔ ∃ u ∈ i.lang, ∃ v ∈ lang items, u ++ v = w := by
  rw [lang, map_cons, prod_cons, Language.mem_mul]
  rfl

theorem Item.mem_chars {t : UInt8} : t ∈ i.chars ↔ i.char = DOT ∨ i.char = t :=
  Iff.rfl

theorem mem_one : w ∈ i.one ↔ ∃ t ∈ i.chars, w = [t] :=
  Iff.rfl

theorem mem_one_kstar : w ∈ i.one∗ ↔ ∀ t ∈ w, t ∈ i.chars := by
  rw [Language.mem_kstar]
  constructor
  · rintro ⟨L, rfl, hL⟩ t ht
    obtain ⟨y, hy, hty⟩ := mem_flatten.1 ht
    obtain ⟨t', ht', rfl⟩ := mem_one.1 (hL y hy)
    exact mem_singleton.1 hty ▸ ht'
  · intro h
    refine ⟨w.map ([·]), ?_, ?_⟩
    · rw [← flatMap_def, flatMap_singleton']
    · rintro y hy
      obtain ⟨t, ht, rfl⟩ := mem_map.1 hy
      exact ⟨t, h t ht, rfl⟩

/-! ## The matcher -/

/-- The loop of `matchstar` goes over the characters the item stands for. -/
theorem starLoop_iff {here : Str → Bool} : ∀ {text : Str}, starLoop here c text = true ↔
    ∃ u ∈ (Item.mk c true).lang, ∃ v, u ++ v = text ∧ here v = true
  | [] => by
    constructor
    · exact fun h => ⟨[], Language.nil_mem_kstar _, [], rfl, h⟩
    · rintro ⟨u, -, v, huv, h⟩
      obtain ⟨-, rfl⟩ := append_eq_nil_iff.1 huv
      exact h
  | t :: text => by
    have hchar : ((t == c || c == DOT) = true) ↔ t ∈ (Item.mk c true).chars := by
      rw [Bool.or_eq_true, beq_iff_eq, beq_iff_eq, Item.mem_chars, or_comm, eq_comm (a := t)]
    rw [starLoop, Bool.or_eq_true, Bool.and_eq_true, hchar, starLoop_iff]
    constructor
    · rintro (h | ⟨ht, u, hu, v, rfl, h⟩)
      · exact ⟨[], Language.nil_mem_kstar _, t :: text, rfl, h⟩
      · refine ⟨t :: u, mem_one_kstar.2 ?_, v, rfl, h⟩
        rw [forall_mem_cons]
        exact ⟨ht, mem_one_kstar.1 hu⟩
    · rintro ⟨u, hu, v, huv, h⟩
      cases u with
      | nil => exact .inl (huv ▸ h)
      | cons x u =>
        obtain ⟨rfl, rfl⟩ := List.cons.inj huv
        have hall := forall_mem_cons.1 (mem_one_kstar.1 hu)
        exact .inr ⟨hall.1, u, mem_one_kstar.2 hall.2, v, rfl, h⟩

theorem matchone_iff {next : Str → Bool} : matchone next c text = true ↔
    ∃ u ∈ (Item.mk c false).lang, ∃ v, u ++ v = text ∧ next v = true := by
  cases text with
  | nil =>
    refine iff_of_false Bool.false_ne_true ?_
    rintro ⟨u, ⟨t, -, rfl⟩, v, huv, -⟩
    exact cons_ne_nil _ _ huv
  | cons t text =>
    have hchar : ((c == DOT || c == t) = true) ↔ t ∈ (Item.mk c false).chars := by
      rw [Bool.or_eq_true, beq_iff_eq, beq_iff_eq, Item.mem_chars]
    rw [matchone, Bool.and_eq_true, hchar]
    constructor
    · rintro ⟨ht, h⟩
      exact ⟨[t], ⟨t, ht, rfl⟩, text, rfl, h⟩
    · rintro ⟨u, ⟨t', ht', rfl⟩, v, huv, h⟩
      obtain ⟨rfl, rfl⟩ := List.cons.inj huv
      exact ⟨ht', h⟩

/-- A start of the text is in the language of the items, all of it if the pattern is anchored. -/
def Starts (r : List Item × Bool) (text : Str) : Prop :=
  ∃ mid ∈ lang r.1, ∃ post, mid ++ post = text ∧ (r.2 = true → post = [])

theorem starts_cons {stop : Bool} : Starts (i :: items, stop) text ↔
    ∃ u ∈ i.lang, ∃ v, u ++ v = text ∧ Starts (items, stop) v := by
  constructor
  · rintro ⟨mid, hmid, post, rfl, hstop⟩
    obtain ⟨u, hu, v, hv, rfl⟩ := mem_lang_cons.1 hmid
    exact ⟨u, hu, v ++ post, (append_assoc u v post).symm, v, hv, post, rfl, hstop⟩
  · rintro ⟨u, hu, v, rfl, mid, hmid, post, rfl, hstop⟩
    exact ⟨u ++ mid, mem_lang_cons.2 ⟨u, hu, mid, hmid, rfl⟩, post,
      append_assoc u mid post, hstop⟩

theorem starts_nil : Starts ([], false) text :=
  ⟨[], mem_lang_nil.2 rfl, text, rfl, fun h => absurd h Bool.false_ne_true⟩

/-- `matchhere` decides whether the text starts with the pattern. -/
theorem matchhere_iff (re text : Str) : matchhere re text = true ↔ Starts (readItems re) text := by
  fun_induction readItems re generalizing text with
  | case1 => exact iff_of_true rfl starts_nil
  | case2 =>
    rw [matchhere, if_pos rfl, beq_iff_eq]
    constructor
    · rintro rfl
      exact ⟨[], mem_lang_nil.2 rfl, [], rfl, fun _ => rfl⟩
    · rintro ⟨mid, hmid, post, rfl, hstop⟩
      rw [mem_lang_nil.1 hmid, hstop rfl, append_nil]
  | case3 c hc =>
    rw [matchhere, if_neg hc, matchone_iff, starts_cons]
    simp only [starts_nil, and_true, matchhere]
  | case4 c re ih =>
    rw [matchhere_star, matchstar, starLoop_iff, starts_cons]
    simp only [ih]
  | case5 c d re hd ih =>
    rw [matchhere, if_neg hd, matchone_iff, starts_cons]
    simp only [ih]

/-- The loop of `match` tries every end of the text. -/
theorem matchLoop_iff (re : Str) : ∀ {text : Str}, matchLoop re text = true ↔
    ∃ pre post, pre ++ post = text ∧ matchhere re post = true
  | [] => by
    constructor
    · exact fun h => ⟨[], [], rfl, h⟩
    · rintro ⟨pre, post, happ, h⟩
      obtain ⟨-, rfl⟩ := append_eq_nil_iff.1 happ
      exact h
  | t :: text => by
    rw [matchLoop, Bool.or_eq_true, matchLoop_iff]
    constructor
    · rintro (h | ⟨pre, post, rfl, h⟩)
      · exact ⟨[], t :: text, rfl, h⟩
      · exact ⟨t :: pre, post, rfl, h⟩
    · rintro ⟨pre, post, happ, h⟩
      cases pre with
      | nil => exact .inl (happ ▸ h)
      | cons x pre =>
        obtain ⟨-, rfl⟩ := List.cons.inj happ
        exact .inr ⟨pre, post, rfl, h⟩

/-- `match` decides the language of its pattern. -/
theorem matchre_iff (re text : Str) : matchre re text = true ↔ (read re).Matches text := by
  unfold matchre read Pattern.Matches
  split_ifs with hre
  · rw [matchhere_iff]
    constructor
    · rintro ⟨mid, hmid, post, rfl, hstop⟩
      exact ⟨[], mid, post, rfl, hmid, fun _ => rfl, hstop⟩
    · rintro ⟨pre, mid, post, rfl, hmid, hstart, hstop⟩
      rw [hstart rfl]
      exact ⟨mid, hmid, post, rfl, hstop⟩
  · rw [matchLoop_iff]
    constructor
    · rintro ⟨pre, rest, rfl, h⟩
      obtain ⟨mid, hmid, post, rfl, hstop⟩ := (matchhere_iff re rest).1 h
      exact ⟨pre, mid, post, (append_assoc pre mid post).symm, hmid,
        False.elim, hstop⟩
    · rintro ⟨pre, mid, post, rfl, hmid, -, hstop⟩
      exact ⟨pre, mid ++ post, (append_assoc pre mid post).symm,
        (matchhere_iff re _).2 ⟨mid, hmid, post, rfl, hstop⟩⟩

end Xv6.Grep
