import Xv6.Boot
import Xv6.Lib.Transition
import Xv6.NameCalls

/-!
# Runs of the calls on names

Any processes make calls on names, one after the other. A run of such calls is a run of the
directory tree : each call makes one of its changes at most, and frees files (`calls_refine_tree`).
It leaves no inode locked and no reference behind, so that the next call finds what it needs.
-/

open Prog Layout SlotMap Transition Multiset

namespace Xv6

/-- A call of a process that completes. -/
def callStep (s : FS) (a : Fin NPROC × Call) : Option FS :=
  match a.2.run a.1 s with
  | .ok _ s' => some s'
  | .error _ _ => none

/-- The call makes one change of the tree at most, and then frees files without links. -/
def OneChange (s : FS) (a : Fin NPROC × Call) : Prop :=
  ∀ s', callStep s a = some s' → Changes (ninum s.sb) ∅ (view s) (view s')

/-- How many processes have slot `k` as current directory. -/
def users (procs : Fin NPROC → Proc) (k : Iptr) : ℕ :=
  ∑ q, if (procs q).cwd = some k then 1 else 0

/-- No process is in a call, and no transaction is open. `L` are the references, one for each
current directory among them. -/
structure AtRest (L : Multiset (Iptr × ℕ)) (s : FS) : Prop where
  inv : Inv L L ∅ s
  dots : Dots (ninum s.sb) (view s)
  root : ROOTINO < ninum s.sb
  cwds : ∀ k, users s.procs k ≤ (L.map Prod.fst).count k
  outstanding : s.log.outstanding = 0

section

variable {L L' : Multiset (Iptr × ℕ)} {s s' : FS} {p : Fin NPROC}

theorem AtRest.ready (h : AtRest L s) (p : Fin NPROC) : Ready p L s where
  inv := h.inv
  dots := h.dots
  root := h.root
  cwd k hk := by
    have hone : 1 ≤ users s.procs k := by
      refine le_trans ?_ (Finset.single_le_sum_of_canonicallyOrdered (Finset.mem_univ p))
      rw [if_pos hk]
    obtain ⟨x, hx, rfl⟩ := mem_map.1
      (one_le_count_iff_mem.1 (hone.trans (h.cwds k)))
    exact ⟨x.2, hx⟩

/-- What a call on names does when it completes. -/
theorem call_ran (h : Ready p L s) {c : Call} (hc : c.OnNames) {r : Bool}
    (hrun : c.run p s = .ok r s') : (∃ n, Ran L n s s') ∨ Moved L p s s' := by
  have hdev : T_DEV ≠ 0 := by decide
  cases c with
  | link old new => exact .inl ⟨2, (wp_ok (sysLink_spec h old new) hrun).1⟩
  | unlink path => exact .inl ⟨2, (wp_ok (sysUnlink_spec h path) hrun).1⟩
  | mkdir path => exact .inl ⟨6, (wp_ok (sysMake_spec h path (show T_DIR ≠ 0 by decide)) hrun).1⟩
  | mknod args =>
    cases args with
    | none =>
      have hmake : sysMake p none T_DEV 0 0 s = .ok r s' := hrun
      exact .inl ⟨6, (wp_ok (sysMake_spec h none hdev) hmake).1⟩
    | some args =>
      have hmake : sysMake p (some args.1) T_DEV args.2.1 args.2.2 s = .ok r s' := hrun
      exact .inl ⟨6, (wp_ok (sysMake_spec h _ hdev) hmake).1⟩
  | chdir path =>
    have hmoved := wp_ok (sysChdir_spec h path) hrun
    split_ifs at hmoved
    · exact .inr hmoved
    · exact .inl ⟨0, hmoved.1⟩
  | dup | read | write | close | «open» | exec | fork | exit => exact hc.elim

/-- The state after a transaction, with the current directories there are then. -/
theorem AtRest.ran {n : ℕ} {procs : Fin NPROC → Proc} (h : AtRest L s) (hran : Ran L' n s s')
    (hcwds : ∀ k, users procs k ≤ (L'.map Prod.fst).count k) :
    AtRest L' { s' with procs := procs } ∧ Changes (ninum s.sb) ∅ (view s) (view s') := by
  have hsb : s'.sb = s.sb := congrArg Env.sb hran.env
  have hn := h.inv.store.geometry.ninum_le
  have hdots : Dots (ninum s'.sb) (view s') := by
    rw [hsb]
    exact hran.changes.induction h.dots fun _ _ hW hc => hW.change hn hc
  have hroot : ROOTINO < ninum s'.sb := hsb ▸ h.root
  have hout : s'.log.outstanding = 0 := (congrArg Env.outstanding hran.env).trans h.outstanding
  exact ⟨⟨hran.inv.congr rfl rfl rfl, hdots, hroot, hcwds, hout⟩,
    hran.changes.mono (Set.empty_subset _)⟩

/-- A completed call on names ends at rest, and changes the tree as a transaction does. -/
theorem AtRest.step {a : Fin NPROC × Call} (h : AtRest L s) (hc : a.2.OnNames)
    (hs : callStep s a = some s') : (∃ L', AtRest L' s' ∧ L'.card = L.card) ∧
      Changes (ninum s.sb) ∅ (view s) (view s') := by
  obtain ⟨p, c⟩ := a
  unfold callStep at hs
  cases hrun : c.run p s with
  | error e s1 => rw [hrun] at hs; cases hs
  | ok r s1 =>
    rw [hrun] at hs
    cases hs
    obtain ⟨n, hran⟩ | ⟨cwd, c, ip, i, s1, hcwd, hmem, -, hran, rfl⟩ := call_ran (h.ready p) hc hrun
    · have hprocs : s'.procs = s.procs := congrArg Env.procs hran.env
      obtain ⟨hrest, hch⟩ := h.ran hran (hprocs ▸ h.cwds)
      exact ⟨⟨L, hrest, rfl⟩, hch⟩
    -- the current directory of `p` is another
    have hprocs : s1.procs = s.procs := congrArg Env.procs hran.env
    have hcwds : ∀ k, users (s1.setCwd p ip).procs k ≤
        (((ip, i) ::ₘ L.erase (cwd, c)).map Prod.fst).count k := fun k => by
      have hsum := sum_update_add (fun q : Proc => if q.cwd = some k then 1 else 0) s.procs p
        { s.procs p with cwd := some ip }
      have hcount := congrArg (fun M => (M.map Prod.fst).count k) (cons_erase hmem)
      have hle := h.cwds k
      simp only [map_cons, count_cons, hcwd, Option.some.injEq, eq_comm (a := k),
        users, FS.setCwd, hprocs] at hsum hcount hle ⊢
      omega
    obtain ⟨hrest, hch⟩ := h.ran hran hcwds
    refine ⟨⟨_, hrest, ?_⟩, hch⟩
    rw [card_cons, card_erase_add_one hmem]

/-- A run of calls on names, of any processes, is a run of the directory tree, with one change for
a call at most. It ends as it began, with no inode locked, no transaction open, as many references,
and every directory in order. -/
theorem calls_refine_tree {calls : List (Fin NPROC × Call)} (h : AtRest L s)
    (hcalls : ∀ a ∈ calls, a.2.OnNames) (hrun : run callStep s calls = some s') :
    (∃ L', AtRest L' s' ∧ L'.card = L.card) ∧ Along callStep OneChange s calls := by
  have hstep : ∀ t a t', (∃ L', AtRest L' t ∧ L'.card = L.card) → a.2.OnNames →
      callStep t a = some t' → ∃ L', AtRest L' t' ∧ L'.card = L.card := by
    rintro t a t' ⟨M, ht, hcard⟩ hc hs
    obtain ⟨⟨M', hrest, hcard'⟩, -⟩ := ht.step hc hs
    exact ⟨M', hrest, hcard'.trans hcard⟩
  refine ⟨run_invariant hstep ⟨L, h, rfl⟩ (along_of_forall hcalls) hrun,
    along_of_invariant hstep ?_ ⟨L, h, rfl⟩ (along_of_forall hcalls)⟩
  rintro t a ⟨M, ht, -⟩ hc t' hs
  exact (ht.step hc hs).2

end

/-- The file `f` gets the name `g` and loses the name `f`, and a directory is made and entered. -/
theorem calls_refine_tree_small :
    ∃ s', run callStep small [(0, .link [102] [103]), (0, .unlink [102]),
        (0, .mkdir (some [100])), (0, .chdir (some [100]))] = some s' ∧
      (∃ L', AtRest L' s' ∧ L'.card = bootRefs.card) ∧
        Along callStep OneChange small [(0, .link [102] [103]), (0, .unlink [102]),
          (0, .mkdir (some [100])), (0, .chdir (some [100]))] := by
  have hrest : AtRest bootRefs small :=
    ⟨small_ready.inv, small_ready.dots, small_ready.root, by decide, rfl⟩
  obtain ⟨s', hs'⟩ := Option.isSome_iff_exists.1 (show (run callStep small
    [(0, .link [102] [103]), (0, .unlink [102]), (0, .mkdir (some [100])),
      (0, .chdir (some [100]))]).isSome = true by decide +kernel)
  exact ⟨s', hs', calls_refine_tree hrest (by simp [Call.OnNames]) hs'⟩

end Xv6
