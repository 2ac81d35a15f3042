import Xv6.Exec
import Xv6.Lib.Wp

/-!
# What is recorded

Which events the functions of `vm.c` and the second half of `exec` leave in the record, however they
end : but for `loaduvm`, which records copies, only `uva2ka` records anything, a null pointer, and
nothing is taken back. A run in which `kalloc` fails for want of pages alone stays one.
-/

open Prog

namespace Xv6.Vm

/-- Only events that meet `N` were recorded. -/
structure Noted (N : Event → Prop) (v v' : Mem) : Prop where
  log : ∃ l, v'.log = l ++ v.log ∧ ∀ e ∈ l, N e
  fails : v.fails = [] → v'.fails = []

/-- Nothing was recorded. -/
abbrev Silent : Mem → Mem → Prop :=
  Noted fun _ => False

variable {N N' : Event → Prop} {v v' v'' : Mem} {α β : Type} {m : M α} {f : α → M β}

theorem Noted.of_eq (hlog : v'.log = v.log) (hfails : v'.fails = v.fails) : Noted N v v' :=
  ⟨⟨[], hlog, nofun⟩, fun h => hfails.trans h⟩

theorem Noted.refl (v : Mem) : Noted N v v :=
  .of_eq rfl rfl

theorem Noted.trans (h : Noted N v v') (h' : Noted N v' v'') : Noted N v v'' := by
  obtain ⟨l, hl, hN⟩ := h.log
  obtain ⟨l', hl', hN'⟩ := h'.log
  refine ⟨⟨l' ++ l, by rw [hl', hl, List.append_assoc], fun e he => ?_⟩,
    fun hf => h'.fails (h.fails hf)⟩
  exact (List.mem_append.1 he).elim (hN' e) (hN e)

theorem Noted.mono (h : Noted N v v') (hN : ∀ e, N e → N' e) : Noted N' v v' := by
  obtain ⟨l, hl, hl'⟩ := h.log
  exact ⟨⟨l, hl, fun e he => hN e (hl' e he)⟩, h.fails⟩

theorem Noted.mem (h : Noted N v v') {e : Event} (he : e ∈ v.log) : e ∈ v'.log := by
  obtain ⟨l, hl, -⟩ := h.log
  exact hl ▸ List.mem_append_right l he

/-- What is in the log was noted, or was there before. -/
theorem Noted.mem_old (h : Noted N v v') {e : Event} (he : e ∈ v'.log) : N e ∨ e ∈ v.log := by
  obtain ⟨l, hl, hN⟩ := h.log
  rw [hl] at he
  exact (List.mem_append.1 he).imp (hN e) id

theorem noted_mono (h : Always (Noted N) m) (hN : ∀ e, N e → N' e) : Always (Noted N') m where
  run _ := wp_of_always h (fun _ _ h => h.mono hN) fun _ _ h => h.mono hN

theorem noted_of_silent (h : Always Silent m) : Always (Noted N) m :=
  noted_mono h nofun

theorem noted_pure (a : α) : Always (Noted N) (pure a : M α) :=
  always_pure Noted.refl a

theorem noted_throw (e : Stop) : Always (Noted N) (throw e : M α) :=
  always_throw Noted.refl e

theorem noted_get : Always (Noted N) (get : M Mem) :=
  always_get Noted.refl

theorem noted_modify {g : Mem → Mem} (hlog : ∀ v, (g v).log = v.log)
    (hfails : ∀ v, (g v).fails = v.fails) : Always (Noted N) (modify g : M PUnit) :=
  always_modify fun v => .of_eq (hlog v) (hfails v)

/-- A program notes what its parts note. -/
theorem noted_bind (hm : Always (Noted N) m) (hf : ∀ a, Always (Noted N) (f a)) :
    Always (Noted N) (m >>= f) :=
  always_bind (fun _ _ _ => Noted.trans) hm hf

/-! ## `vm.c` -/

variable {K : Link} {d n cur : ℕ} {perm : UInt32}

/-- `kalloc` notes nothing. -/
theorem silent_kalloc : Always Silent kalloc := by
  refine ⟨fun v => ?_⟩
  have htail : v.fails = [] → v.fails.tail = [] := fun h => by simp [h]
  unfold kalloc
  simp only [wp_bind, wp_get]
  split <;> exact ⟨⟨[], rfl, List.forall_mem_nil _⟩, htail⟩

theorem silent_kfree {x : ℕ} : Always Silent (kfree K x) :=
  always_ite (noted_throw _) (noted_modify (fun _ => rfl) fun _ => rfl)

/-- Nor does `walkpgdir`. -/
theorem silent_walkpgdir {alloc : Bool} : Always Silent (walkpgdir d n alloc) := by
  refine noted_bind noted_get fun v => always_ite (noted_pure _) ?_
  refine always_ite (noted_pure _) (noted_bind silent_kalloc fun r => ?_)
  cases r with
  | none => exact noted_pure _
  | some t => exact noted_bind (noted_modify (fun _ => rfl) fun _ => rfl) fun _ => noted_pure _

/-- Nor does `mappages`. -/
theorem silent_mappages : ∀ count n x, Always Silent (mappages d perm count n x)
  | 0, _, _ => noted_pure _
  | count + 1, n, x => by
    refine noted_bind silent_walkpgdir fun r => ?_
    cases r with
    | none => exact noted_pure _
    | some tj =>
      refine noted_bind noted_get fun v => always_ite (noted_throw _) ?_
      exact noted_bind (noted_modify (fun _ => rfl) fun _ => rfl) fun _ => silent_mappages _ _ _

theorem silent_mapAll : ∀ ks, Always Silent (mapAll d ks)
  | [] => noted_pure _
  | _ :: ks => noted_bind (silent_mappages _ _ _) fun _ =>
    always_ite (silent_mapAll ks) (noted_pure _)

/-- Nor does `setupkvm`. -/
theorem silent_setupkvm : Always Silent (setupkvm K) := by
  refine noted_bind silent_kalloc fun r => ?_
  cases r with
  | none => exact noted_pure _
  | some d =>
    refine noted_bind (noted_modify (fun _ => rfl) fun _ => rfl) fun _ => ?_
    exact noted_bind (silent_mapAll _) fun _ => always_ite (noted_pure _) (noted_pure _)

theorem silent_deallocLoop {last : ℕ} : ∀ fuel n, Always Silent (deallocLoop K d last fuel n)
  | 0, _ => noted_pure _
  | fuel + 1, n => by
    refine always_ite (noted_bind silent_walkpgdir fun r => ?_) (noted_pure _)
    cases r with
    | none => exact silent_deallocLoop _ _
    | some tj =>
      refine noted_bind noted_get fun v => always_ite (always_ite (noted_throw _) ?_)
        (silent_deallocLoop _ _)
      refine noted_bind silent_kfree fun _ => ?_
      exact noted_bind (noted_modify (fun _ => rfl) fun _ => rfl) fun _ => silent_deallocLoop _ _

/-- Nor does `deallocuvm`. -/
theorem silent_deallocuvm {oldsz newsz : UInt32} : Always Silent (deallocuvm K d oldsz newsz) :=
  always_ite (noted_pure _) (noted_bind (silent_deallocLoop _ _) fun _ => noted_pure _)

theorem silent_allocLoop {oldsz newsz : UInt32} :
    ∀ count n, Always Silent (allocLoop K d oldsz newsz count n)
  | 0, _ => noted_pure _
  | count + 1, n => by
    refine noted_bind silent_kalloc fun r => ?_
    cases r with
    | none => exact noted_bind silent_deallocuvm fun _ => noted_pure _
    | some x =>
      refine noted_bind (noted_modify (fun _ => rfl) fun _ => rfl) fun _ => ?_
      exact noted_bind (silent_mappages _ _ _) fun _ => silent_allocLoop _ _

/-- Nor does `allocuvm`. -/
theorem silent_allocuvm {oldsz newsz : UInt32} : Always Silent (allocuvm K d oldsz newsz) := by
  refine always_ite (noted_pure _) (always_ite (noted_pure _) ?_)
  exact noted_bind (silent_allocLoop _ _) fun _ => always_ite (noted_pure _) (noted_pure _)

theorem silent_freeTables : ∀ is, Always Silent (freeTables K d is)
  | [] => noted_pure _
  | _ :: is => by
    refine noted_bind noted_get fun v => always_ite ?_ (silent_freeTables is)
    exact noted_bind silent_kfree fun _ => silent_freeTables is

/-- Nor does `freevm`. -/
theorem silent_freevm : Always Silent (freevm K d) :=
  noted_bind silent_deallocuvm fun _ => noted_bind (silent_freeTables _) fun _ => silent_kfree

theorem noted_note (e : Event) (he : N e) :
    Always (Noted N) (modify fun v => { v with log := e :: v.log } : M PUnit) :=
  always_modify fun _ => ⟨⟨[e], rfl, by simpa using he⟩, id⟩

theorem noted_derefNull : Always (Noted (· = .null)) (derefNull cur) := by
  refine noted_bind (noted_note .null rfl) fun _ => ?_
  refine noted_bind (noted_of_silent silent_walkpgdir) fun r => ?_
  cases r with
  | none => exact noted_throw _
  | some tj =>
    refine noted_bind noted_get fun v => always_ite (noted_throw _) ?_
    exact noted_bind noted_get fun _ => noted_pure _

theorem noted_readPte : Always (Noted (· = .null)) (readPte cur d n) := by
  refine noted_bind (noted_of_silent silent_walkpgdir) fun r => ?_
  cases r with
  | none => exact noted_derefNull
  | some tj => exact noted_bind noted_get fun _ => noted_pure _

/-- `uva2ka` notes at most that it followed a null pointer. -/
theorem noted_uva2ka : Always (Noted (· = .null)) (uva2ka cur d n) :=
  noted_bind noted_readPte fun _ =>
    always_ite (noted_pure _) (always_ite (noted_pure _) (always_ite (noted_pure _) (noted_pure _)))

/-- So does the loop of `copyout`. -/
theorem noted_copyoutLoop :
    ∀ fuel va len buf, Always (Noted (· = .null)) (copyoutLoop cur d fuel va len buf)
  | 0, _, _, _ => noted_pure _
  | fuel + 1, va, len, buf => by
    refine always_ite (noted_pure _) (noted_bind noted_uva2ka fun r => ?_)
    cases r with
    | none => exact noted_pure _
    | some x =>
      refine always_ite (noted_throw _) ?_
      exact noted_bind (noted_modify (fun _ => rfl) fun _ => rfl) fun _ => noted_copyoutLoop _ _ _ _

/-! ## `exec` -/

end Xv6.Vm
