import Mathlib.Data.List.Nodup
import Mathlib.Logic.Function.Basic
import Mathlib.Tactic.Common

/-!
# Linked lists

Links are a function `next` on nodes. `Leads next a l z` says that the links lead from `a`
through the nodes of `l`, in order, to `z`. A list that ends at a null node, a circular list with a
head, and each direction of a doubly linked list are paths.

Links are deterministic, so a path that meets its end only at the end has no node twice
(`Leads.nodup`). `Leads.cons`, `Leads.snoc` and `Leads.unlink` insert a node at either end and take
one out; a change of other links does not matter (`Leads.congr`). `Ring` is a circular doubly linked
list, with its insertion at the head and its removal.
-/

open Function

namespace Linked

variable {ν : Type*}

/-- The links lead from `a` through `l` to `z`. -/
def Leads (next : ν → ν) : ν → List ν → ν → Prop
  | a, [], z => next a = z
  | a, b :: l, z => next a = b ∧ Leads next b l z

variable {next next' : ν → ν} {a b c z : ν} {l l' : List ν}

theorem leads_append : ∀ {a : ν} {l : List ν},
    Leads next a (l ++ b :: l') z ↔ Leads next a l b ∧ Leads next b l' z
  | _, [] => Iff.rfl
  | a, c :: l => by
    simp only [List.cons_append, Leads, leads_append (a := c) (l := l), and_assoc]

namespace Leads

theorem congr : ∀ {a : ν} {l : List ν}, Leads next a l z → (∀ x ∈ a :: l, next' x = next x) →
    Leads next' a l z
  | a, [], h, he => (he a List.mem_cons_self).trans h
  | a, _ :: _, h, he =>
    ⟨(he a List.mem_cons_self).trans h.1, h.2.congr fun x hx => he x (List.mem_cons_of_mem a hx)⟩

theorem next_head (h : Leads next a l z) : next a = l.headD z := by
  cases l with
  | nil => exact h
  | cons b l => exact h.1

/-- A list is determined by its links. -/
theorem unique : ∀ {a : ν} {l l' : List ν}, Leads next a l z → Leads next a l' z → z ∉ l → z ∉ l' →
    l = l'
  | _, [], [], _, _, _, _ => rfl
  | _, [], c :: l', h, h', _, hz' => absurd (h.symm.trans h'.1) fun e => hz' (by simp [e])
  | _, c :: l, [], h, h', hz, _ => absurd (h'.symm.trans h.1) fun e => hz (by simp [e])
  | a, b :: l, c :: l', h, h', hz, hz' => by
    obtain rfl : b = c := h.1.symm.trans h'.1
    rw [h.2.unique h'.2 (fun hm => hz (List.mem_cons_of_mem b hm))
      fun hm => hz' (List.mem_cons_of_mem b hm)]

theorem nodup : ∀ {a : ν} {l : List ν}, Leads next a l z → z ∉ l → l.Nodup
  | _, [], _, _ => List.nodup_nil
  | a, b :: l, h, hz => by
    have hz' : z ∉ l := fun hm => hz (List.mem_cons_of_mem b hm)
    refine List.nodup_cons.2 ⟨fun hb => ?_, h.2.nodup hz'⟩
    obtain ⟨l1, l2, rfl⟩ := List.append_of_mem hb
    have h2 := (leads_append.1 h.2).2
    have he := h.2.unique h2 hz' fun hm => hz' (by simp [hm])
    have hlen := congrArg List.length he
    simp only [List.length_append, List.length_cons] at hlen
    omega

section

variable [DecidableEq ν]

theorem cons (h : Leads next a l z) (hb : b ∉ l) (ha : a ∉ l) (hab : b ≠ a) :
    Leads (update (update next b (next a)) a b) a (b :: l) z := by
  refine ⟨update_self .., ?_⟩
  cases l with
  | nil =>
    rw [Leads, update_of_ne hab, update_self]
    exact h
  | cons c l =>
    refine ⟨by rw [update_of_ne hab, update_self]; exact h.1, h.2.congr fun x hx => ?_⟩
    have hxa : x ≠ a := fun e => ha (e ▸ hx)
    have hxb : x ≠ b := fun e => hb (e ▸ hx)
    rw [update_of_ne hxa, update_of_ne hxb]

/-- Insert a node at the end. -/
theorem snoc : ∀ {a : ν} {l : List ν}, Leads next a l z → (a :: l).Nodup → b ∉ a :: l →
    Leads (update (update next b z) ((a :: l).getLast (List.cons_ne_nil a l)) b) a (l ++ [b]) z
  | a, [], h, _, hb => by
    have hab : b ≠ a := fun e => hb (by simp [e])
    exact ⟨update_self .., by rw [Leads, List.getLast_singleton, update_of_ne hab, update_self]⟩
  | a, c :: l, h, hnd, hb => by
    have hnd' := List.nodup_cons.1 hnd
    have hb' : b ∉ c :: l := fun hm => hb (List.mem_cons_of_mem a hm)
    have hab : a ≠ b := fun e => hb (by simp [e])
    rw [List.getLast_cons_cons]
    refine ⟨?_, h.2.snoc hnd'.2 hb'⟩
    rw [update_of_ne, update_of_ne hab]
    · exact h.1
    · intro e
      have hm := List.getLast_mem (List.cons_ne_nil c l)
      rw [← e] at hm
      exact hnd'.1 hm

/-- Unlinking removes an element. -/
theorem unlink : ∀ {a : ν} {l : List ν}, Leads next a (l ++ b :: l') z →
    (a :: (l ++ b :: l')).Nodup →
    Leads (update next ((a :: l).getLast (List.cons_ne_nil a l)) (next b)) a (l ++ l') z
  | a, [], h, hnd => by
    have hnd' := (List.nodup_cons.1 hnd).1
    cases l' with
    | nil => exact (update_self ..).trans h.2
    | cons c l' =>
      refine ⟨(update_self ..).trans h.2.1, h.2.2.congr fun x hx => update_of_ne ?_ ..⟩
      rintro rfl
      exact hnd' (by simpa using Or.inr hx)
  | a, c :: l, h, hnd => by
    have hnd' := List.nodup_cons.1 hnd
    rw [List.getLast_cons_cons]
    refine ⟨?_, h.2.unlink hnd'.2⟩
    rw [update_of_ne]
    · exact h.1
    · intro e
      have hm := List.getLast_mem (List.cons_ne_nil c l)
      rw [← e] at hm
      exact hnd'.1 (List.mem_append_left _ hm)

end

end Leads

/-! ## Circular doubly linked lists -/

/-- The links lead from the head `h` through `l` and back, in both directions. -/
structure Ring (next prev : ν → ν) (h : ν) (l : List ν) : Prop where
  next : Leads next h l h
  prev : Leads prev h l.reverse h
  head : h ∉ l

namespace Ring

variable {prev : ν → ν} {h : ν} {l1 l2 : List ν}

theorem nodup (r : Ring next prev h l) : (h :: l).Nodup :=
  List.nodup_cons.2 ⟨r.head, r.next.nodup r.head⟩

theorem nodup_reverse (r : Ring next prev h l) : (h :: l.reverse).Nodup :=
  List.nodup_cons.2 ⟨fun hm => r.head (List.mem_reverse.1 hm),
    List.nodup_reverse.2 (List.nodup_cons.1 r.nodup).2⟩

theorem getLast_reverse (h : ν) (l : List ν) :
    (h :: l.reverse).getLast (List.cons_ne_nil _ _) = l.headD h := by
  cases l <;> simp

theorem getLast_eq (h : ν) (l : List ν) :
    (h :: l).getLast (List.cons_ne_nil _ _) = l.reverse.headD h := by
  rw [← getLast_reverse]
  simp

theorem next_of_mem (r : Ring next prev h (l1 ++ b :: l2)) :
    next b = (h :: l2.reverse).getLast (List.cons_ne_nil _ _) := by
  rw [(leads_append.1 r.next).2.next_head, getLast_reverse]

theorem prev_of_mem (r : Ring next prev h (l1 ++ b :: l2)) :
    prev b = (h :: l1).getLast (List.cons_ne_nil _ _) := by
  have hp := r.prev
  rw [List.reverse_append, List.reverse_cons, List.append_assoc, List.singleton_append] at hp
  rw [(leads_append.1 hp).2.next_head, getLast_eq]

variable [DecidableEq ν]

/-- Inserting puts an element at the head. -/
theorem insert (r : Ring next prev h l) (hb : b ∉ h :: l) :
    Ring (update (update next b (next h)) h b)
      (update (update prev b h) (next h) b) h (b :: l) where
  next := r.next.cons (fun hm => hb (List.mem_cons_of_mem h hm)) r.head fun e => hb (by simp [e])
  prev := by
    have hs := r.prev.snoc (b := b) r.nodup_reverse (by simpa using hb)
    rw [getLast_reverse, ← r.next.next_head] at hs
    rw [List.reverse_cons]
    exact hs
  head hm := by
    obtain rfl | hm := List.mem_cons.1 hm
    · exact hb List.mem_cons_self
    · exact r.head hm

/-- Take a node out. -/
theorem remove (r : Ring next prev h (l1 ++ b :: l2)) :
    Ring (update next (prev b) (next b)) (update prev (next b) (prev b)) h (l1 ++ l2) where
  next := by
    rw [r.prev_of_mem]
    exact r.next.unlink r.nodup
  prev := by
    have hp := r.prev
    have hnd := r.nodup_reverse
    rw [List.reverse_append, List.reverse_cons, List.append_assoc, List.singleton_append] at hp hnd
    rw [r.next_of_mem, List.reverse_append]
    exact hp.unlink hnd
  head hm := r.head (by
    rw [List.mem_append] at hm ⊢
    exact hm.imp_right (List.mem_cons_of_mem b))

end Ring

end Linked
