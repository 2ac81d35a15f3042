import Mathlib.Tactic.Common

/-!
# Exact ownership

A pool of resources of which some are in use, and holders that name resources. Ownership
is exact when the resources in use are those named, each by one holder. `Exact.congr`,
`Exact.give` and `Exact.release` say how it is kept when the names stay, when a free resource gets a
holder and when holders let go.

Ownership is exclusive when no resource is named twice, or named and on a list of free ones;
a resource may be neither (`Loose`), on its way from one holder to another or lost.
`Exclusive.take`, `Exclusive.put`, `Exclusive.extend` and `Exclusive.drop` move a resource.
-/

namespace Ownership

variable {β κ : Type*}

/-- The resources of `pool` in use are those some holder owns, each by one. -/
structure Exact (pool used : β → Prop) (own : β → κ → Prop) : Prop where
  used_of_own : ∀ b k, own b k → pool b ∧ used b
  unique : ∀ b k k', own b k → own b k' → k = k'
  own_of_used : ∀ b, pool b → used b → ∃ k, own b k

variable {pool used used' : β → Prop} {own own' : β → κ → Prop}

theorem Exact.congr (h : Exact pool used own) (hown : ∀ b k, own' b k ↔ own b k)
    (hused : ∀ b, pool b → (used' b ↔ used b)) : Exact pool used' own' where
  used_of_own b k hk := by
    obtain ⟨hp, hu⟩ := h.used_of_own b k ((hown b k).1 hk)
    exact ⟨hp, (hused b hp).2 hu⟩
  unique b k k' hk hk' := h.unique b k k' ((hown b k).1 hk) ((hown b k').1 hk')
  own_of_used b hp hu := by
    obtain ⟨k, hk⟩ := h.own_of_used b hp ((hused b hp).1 hu)
    exact ⟨k, (hown b k).2 hk⟩

/-- A free resource `b` gets the owner `k`. -/
theorem Exact.give (h : Exact pool used own) {b : β} {k : κ} (hb : pool b) (hfree : ¬ used b)
    (hown : ∀ c l, own' c l ↔ own c l ∨ c = b ∧ l = k)
    (hused : ∀ c, pool c → (used' c ↔ used c ∨ c = b)) : Exact pool used' own' where
  used_of_own c l hc := by
    rcases (hown c l).1 hc with hc | ⟨rfl, -⟩
    · obtain ⟨hp, hu⟩ := h.used_of_own c l hc
      exact ⟨hp, (hused c hp).2 (.inl hu)⟩
    · exact ⟨hb, (hused c hb).2 (.inr rfl)⟩
  unique c l l' hl hl' := by
    -- the resource was free, so nobody owned it
    have hnone : ∀ m, ¬ own b m := fun m hm => hfree (h.used_of_own b m hm).2
    rcases (hown c l).1 hl with hl | ⟨rfl, rfl⟩ <;> rcases (hown c l').1 hl' with hl' | ⟨hc, hk⟩
    · exact h.unique c l l' hl hl'
    · exact absurd (hc ▸ hl) (hnone l)
    · exact absurd hl' (hnone l')
    · exact hk.symm
  own_of_used c hp hu := by
    rcases (hused c hp).1 hu with hu | rfl
    · obtain ⟨l, hl⟩ := h.own_of_used c hp hu
      exact ⟨l, (hown c l).2 (.inl hl)⟩
    · exact ⟨k, (hown c k).2 (.inr ⟨rfl, rfl⟩)⟩

/-- The holders that meet `gone` let go of what they own. -/
theorem Exact.release (h : Exact pool used own) (gone : κ → Prop)
    (hown : ∀ b k, own' b k ↔ own b k ∧ ¬ gone k)
    (hused : ∀ b, pool b → (used' b ↔ used b ∧ ∀ k, gone k → ¬ own b k)) :
    Exact pool used' own' where
  used_of_own b k hk := by
    obtain ⟨hk, hg⟩ := (hown b k).1 hk
    obtain ⟨hp, hu⟩ := h.used_of_own b k hk
    refine ⟨hp, (hused b hp).2 ⟨hu, fun l hl hbl => ?_⟩⟩
    exact hg (h.unique b k l hk hbl ▸ hl)
  unique b k k' hk hk' := h.unique b k k' ((hown b k).1 hk).1 ((hown b k').1 hk').1
  own_of_used b hp hu := by
    obtain ⟨hu, hgone⟩ := (hused b hp).1 hu
    obtain ⟨k, hk⟩ := h.own_of_used b hp hu
    exact ⟨k, (hown b k).2 ⟨hk, fun hg => hgone k hg hk⟩⟩

/-! ## Exclusive ownership -/

section

variable {ρ ρ' : Type*}

/-- Every holder `r` names at most one resource, no resource is named by two, and none that
is named is free. -/
structure Exclusive (pool : β → Prop) (free : List β) (held : ρ → Option β) : Prop where
  inj : ∀ r r' b, held r = some b → held r' = some b → r = r'
  not_free : ∀ r b, held r = some b → b ∉ free
  nodup : free.Nodup
  pool_free : ∀ b ∈ free, pool b
  pool_held : ∀ r b, held r = some b → pool b

/-- A resource of the pool that is neither free nor held. -/
structure Loose (pool : β → Prop) (free : List β) (held : ρ → Option β) (b : β) : Prop where
  not_free : b ∉ free
  not_held : ∀ r, held r ≠ some b
  pool : pool b

variable {pool : β → Prop} {free : List β} {held : ρ → Option β} {held' : ρ' → Option β} {b c : β}

theorem Exclusive.reindex (h : Exclusive pool free held) (f : ρ' → ρ)
    (hf : ∀ r b, held' r = some b → held (f r) = some b)
    (hinj : ∀ r r' b, held' r = some b → held' r' = some b → f r = f r' → r = r') :
    Exclusive pool free held' where
  inj r r' b hr hr' := hinj r r' b hr hr' (h.inj _ _ b (hf r b hr) (hf r' b hr'))
  not_free r b hr := h.not_free _ b (hf r b hr)
  nodup := h.nodup
  pool_free := h.pool_free
  pool_held r b hr := h.pool_held _ b (hf r b hr)

theorem Exclusive.take (h : Exclusive pool (b :: free) held) :
    Exclusive pool free held ∧ Loose pool free held b := by
  have hn := List.nodup_cons.1 h.nodup
  refine ⟨⟨h.inj, fun r c hr hc => h.not_free r c hr (List.mem_cons_of_mem _ hc), hn.2,
    fun c hc => h.pool_free c (List.mem_cons_of_mem _ hc), h.pool_held⟩, hn.1, fun r hr => ?_,
    h.pool_free b List.mem_cons_self⟩
  exact h.not_free r b hr List.mem_cons_self

theorem Exclusive.put (h : Exclusive pool free held) (hb : Loose pool free held b) :
    Exclusive pool (b :: free) held where
  inj := h.inj
  not_free r c hr hc := by
    rcases List.mem_cons.1 hc with rfl | hc
    · exact hb.not_held r hr
    · exact h.not_free r c hr hc
  nodup := List.nodup_cons.2 ⟨hb.not_free, h.nodup⟩
  pool_free c hc := by
    rcases List.mem_cons.1 hc with rfl | hc
    · exact hb.pool
    · exact h.pool_free c hc
  pool_held := h.pool_held

/-- A loose resource gets a holder, which may be a new one. -/
theorem Exclusive.extend (h : Exclusive pool free held) (hb : Loose pool free held b)
    (f : ρ → ρ') (r0 : ρ')
    (hheld : ∀ r c, held' r = some c → r = r0 ∧ c = b ∨ ∃ r', f r' = r ∧ held r' = some c) :
    Exclusive pool free held' := by
  refine ⟨fun r r' c hr hr' => ?_, fun r c hr => ?_, h.nodup, h.pool_free, fun r c hr => ?_⟩
  · rcases hheld r c hr with ⟨rfl, rfl⟩ | ⟨r1, rfl, hr1⟩ <;>
      rcases hheld r' c hr' with ⟨rfl, hc⟩ | ⟨r2, rfl, hr2⟩
    · rfl
    · exact absurd hr2 (hb.not_held r2)
    · exact absurd (hc ▸ hr1) (hb.not_held r1)
    · rw [h.inj r1 r2 c hr1 hr2]
  · rcases hheld r c hr with ⟨-, rfl⟩ | ⟨r1, -, hr1⟩
    · exact hb.not_free
    · exact h.not_free r1 c hr1
  · rcases hheld r c hr with ⟨-, rfl⟩ | ⟨r1, -, hr1⟩
    · exact hb.pool
    · exact h.pool_held r1 c hr1

variable {held1 : ρ → Option β} {r0 : ρ}

variable (r0) in
/-- A loose resource gets the holder `r0`. -/
theorem Exclusive.give (h : Exclusive pool free held) (hb : Loose pool free held b)
    (h0 : held1 r0 = some b) (hrest : ∀ r, r ≠ r0 → held1 r = held r) :
    Exclusive pool free held1 := by
  refine h.extend hb id r0 fun r c hr => ?_
  by_cases he : r = r0
  · subst he
    exact .inl ⟨rfl, Option.some.inj (hr.symm.trans h0)⟩
  · exact .inr ⟨r, rfl, hrest r he ▸ hr⟩

variable (r0) in
/-- The holder `r0` lets go of `b`. -/
theorem Exclusive.drop (h : Exclusive pool free held) (h0 : held r0 = some b)
    (hnone : held1 r0 = none) (hrest : ∀ r, r ≠ r0 → held1 r = held r) :
    Exclusive pool free held1 ∧ Loose pool free held1 b := by
  have hheld : ∀ r c, held1 r = some c → r ≠ r0 ∧ held r = some c := by
    intro r c hr
    have he : r ≠ r0 := by
      rintro rfl
      simp [hnone] at hr
    exact ⟨he, hrest r he ▸ hr⟩
  refine ⟨h.reindex id (fun r c hr => (hheld r c hr).2) fun _ _ _ _ _ => id, h.not_free r0 b h0,
    fun r hr => ?_, h.pool_held r0 b h0⟩
  obtain ⟨hne, hr⟩ := hheld r b hr
  exact hne (h.inj r r0 b hr h0)

theorem Loose.congr (hb : Loose pool free held b)
    (hheld : ∀ r, held1 r = some b → held r = some b) :
    Loose pool free held1 b :=
  ⟨hb.not_free, fun r hr => hb.not_held r (hheld r hr), hb.pool⟩

end

end Ownership
