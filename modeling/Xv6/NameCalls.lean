import Xv6.Create
import Xv6.Resolve

/-!
# Calls that fail

A call on names that returns `-1` leaves every file, every directory entry, the bitmap and the
current directory as they were (`failed_call_untouched`). Most calls find out before they write
anything. `sys_link` stores a link count before it knows whether the new name can be made, and takes
it back on the way out.
-/

open Prog Layout SlotMap

namespace Xv6

section

variable {p : Fin NPROC} {L : Multiset (Iptr × ℕ)} {s : FS}

/-- Process `p` with another current directory. -/
def FS.setCwd (s : FS) (p : Fin NPROC) (k : Iptr) : FS :=
  { s with procs := Function.update s.procs p { s.procs p with cwd := some k } }

/-- The current directory of process `p` is another one : the reference to the new directory comes
in the place of the reference to the old. -/
def Moved (L : Multiset (Iptr × ℕ)) (p : Fin NPROC) (s s' : FS) : Prop :=
  ∃ cwd c ip i s1, (s.procs p).cwd = some cwd ∧ (cwd, c) ∈ L ∧ (view s i).type = T_DIR ∧
    Ran ((ip, i) ::ₘ L.erase (cwd, c)) 0 s s1 ∧ s' = s1.setCwd p ip

/-- `sys_chdir` once it has an inode. -/
theorem chdirTo_spec {s1 : FS} {ip : Iptr} {i : ℕ} (h : Ready p L s)
    (h1 : Inv L ((ip, i) ::ₘ L) ∅ s1) (hq1 : Quiet s.begun s1) :
    wp (do
        ilock ip
        let s ← get
        if (s.icache ip).din.type ≠ T_DIR then
          iunlockput ip
          endOp
          return false
        else do
          iunlock ip
          match (s.procs p).cwd with
          | some cwd => iput cwd
          | none => panic "trap"
          endOp
          modifyProc p fun q => { q with cwd := some ip }
          return true)
      (fun r s' => if r = true then Moved L p s s' else Ran L 0 s s' ∧ Untouched s s')
      (fun _ _ => True) s1 := by
  have hik : (ip, i) ∈ (ip, i) ::ₘ L := Multiset.mem_cons_self _ _
  refine wp_seq_partial (ilock_spec h1 hik) ?_
  rintro _ s2 ⟨-, -, h2, hq2⟩
  have hiB : ip ∈ insert ip (∅ : Finset Iptr) := Finset.mem_insert_self _ _
  replace hq2 := hq1.trans hq2
  have hV2 : view s2 = view s := hq2.view_eq
  have hprocs : s2.procs = s.procs := congrArg Env.procs hq2.env
  rw [wp_bind, wp_get, ← h2.store.type_eq (h2.loaded hik hiB), hV2, hprocs]
  by_cases hdir : (view s i).type ≠ T_DIR
  · rw [if_pos hdir]
    refine wp_seq_total (iunlockput_only h2 le_rfl) ?_
    rintro _ s3 ⟨h3, hq3⟩
    refine wp_mono (wp_endOp_quiet (n := 0) false h3 (hq2.trans hq3)) ?_
    rintro r s' ⟨rfl, hran, hun⟩
    exact ⟨hran, hun⟩
  rw [if_neg hdir]
  refine wp_seq_total (iunlock_spec h2 hiB) ?_
  rintro _ s3 ⟨h3, hq3⟩
  rw [Finset.erase_insert (Finset.notMem_empty ip)] at h3
  replace hq3 := hq2.trans hq3
  cases hcwd : (s.procs p).cwd with
  | none => trivial
  | some cwd =>
    obtain ⟨c, hc⟩ := h.cwd cwd hcwd
    have h3' : Inv ((cwd, c) ::ₘ (ip, i) ::ₘ L.erase (cwd, c))
        ((cwd, c) ::ₘ (ip, i) ::ₘ L.erase (cwd, c)) ∅ s3 := by
      rw [Multiset.cons_swap, Multiset.cons_erase hc]
      exact h3.mono (Multiset.le_cons_self _ _) le_rfl
    refine wp_seq (iput_drop h3' (Finset.notMem_empty cwd)) ?_
    rintro _ s4 ⟨h4, hV4, heff4⟩
    have hch : Changes (ninum s.sb) (Held ((ip, i) ::ₘ L.erase (cwd, c))) (view s) (view s4) := by
      rw [hV4, hq3.view_eq]
      exact Changes.refl.frees (h3'.released_frees _)
    have heff : Eff (metaBlocks s.sb c c) 0 s.begun s4 :=
      (hq3.eff.mono (Finset.empty_subset _) le_rfl).file rfl heff4
    have hend := wp_endOp () h4 hch Finset.card_le_two heff
    rw [wp_bind] at hend ⊢
    refine wp_mono hend ?_
    rintro _ s5 ⟨-, hran, -⟩
    exact ⟨cwd, c, ip, i, s5, hcwd, hc, not_not.1 hdir, hran, rfl⟩

/-- `sys_chdir` changes the current directory to another, or changes nothing. -/
theorem sysChdir_spec (h : Ready p L s) (path : Option (List UInt8)) :
    wp (sysChdir p path)
      (fun r s' => if r = true then Moved L p s s' else Ran L 0 s s' ∧ Untouched s s')
      (fun _ _ => True) s := by
  unfold sysChdir
  refine wp_seq_partial (beginOp_spec s) ?_
  rintro _ _ rfl
  have hfail : ∀ s1, Inv L L ∅ s1 → Quiet s.begun s1 →
      wp (do
          endOp
          return false)
        (fun r s' => if r = true then Moved L p s s' else Ran L 0 s s' ∧ Untouched s s')
        (fun _ _ => True) s1 := by
    intro s1 h1 hq1
    refine wp_mono (wp_endOp_quiet (n := 0) false h1 hq1) ?_
    rintro r s' ⟨rfl, hran, hun⟩
    exact ⟨hran, hun⟩
  cases path with
  | none => exact hfail _ h.begun.inv (Quiet.refl _)
  | some path =>
    refine wp_seq_partial (namei_spec h.begun path) ?_
    rintro r s1 ⟨hq1, ⟨rfl, -, h1⟩ | ⟨ip, i, rfl, -, h1⟩⟩
    · exact hfail s1 h1 hq1
    · exact chdirTo_spec h h1 hq1

end

/-! ## Failure -/

/-- The calls that make, take away or follow names, and open no file. -/
def Call.OnNames : Call → Prop
  | .link _ _ | .unlink _ | .mkdir _ | .mknod _ | .chdir _ => True
  | _ => False

/-- The current directory of process `p` is the inode it was. -/
def SameCwd (p : Fin NPROC) (s s' : FS) : Prop :=
  (s'.procs p).cwd = (s.procs p).cwd ∧
    ∀ k, (s.procs p).cwd = some k → (s'.icache k).inum = (s.icache k).inum

section

variable {p : Fin NPROC} {L : Multiset (Iptr × ℕ)} {s s' : FS}

theorem Ran.sameCwd {n : ℕ} (h : Ready p L s) (hran : Ran L n s s') : SameCwd p s s' := by
  have hprocs : s'.procs = s.procs := congrArg Env.procs hran.env
  refine ⟨by rw [hprocs], fun k hk => ?_⟩
  obtain ⟨i, hi⟩ := h.cwd k hk
  rw [hran.inv.inum _ hi, h.inv.inum _ hi]

/-- A call on names that fails changes no file, nor the bitmap, nor the current directory. -/
theorem failed_call_untouched (h : Ready p L s) {c : Call} (hc : c.OnNames)
    (hrun : c.run p s = .ok false s') : Untouched s s' ∧ SameCwd p s s' := by
  have hdone : ∀ {n : ℕ}, Ran L n s s' ∧ (false = false → Untouched s s') →
      Untouched s s' ∧ SameCwd p s s' := fun hs => ⟨hs.2 rfl, hs.1.sameCwd h⟩
  have hmake : ∀ {path : Option (List UInt8)} {type major minor : Int16}, type ≠ 0 →
      sysMake p path type major minor s = .ok false s' → Untouched s s' ∧ SameCwd p s s' :=
    fun htype hrun => hdone (wp_ok (sysMake_spec h _ htype) hrun)
  cases c with
  | link old new => exact hdone (wp_ok (sysLink_spec h old new) hrun)
  | unlink path => exact hdone (wp_ok (sysUnlink_spec h path) hrun)
  | mkdir path => exact hmake (show T_DIR ≠ 0 by decide) hrun
  | mknod args =>
    cases args with
    | none => exact hmake (show T_DEV ≠ 0 by decide) (show sysMake p none T_DEV 0 0 s = _ from hrun)
    | some args =>
      exact hmake (show T_DEV ≠ 0 by decide)
        (show sysMake p (some args.1) T_DEV args.2.1 args.2.2 s = _ from hrun)
  | chdir path =>
    obtain ⟨hran, hun⟩ := wp_ok (sysChdir_spec h path) hrun
    exact ⟨hun, hran.sameCwd h⟩
  | dup | read | write | close | «open» | exec | fork | exit => exact hc.elim

end

/-- A call that returns `-1`. -/
def Fails (r : EStateM.Result Stop FS Bool) : Bool :=
  match r with
  | .ok false _ => true
  | _ => false

theorem exists_of_fails {r : EStateM.Result Stop FS Bool} (h : Fails r = true) :
    ∃ s', r = .ok false s' := by
  unfold Fails at h
  split at h
  · exact ⟨_, rfl⟩
  · exact absurd h Bool.false_ne_true

/-- The link of the file `f` as `f` is taken back. -/
theorem failed_call_untouched_link : ∃ s', (Call.link [102] [102]).run 0 small = .ok false s' ∧
    Untouched small s' ∧ SameCwd 0 small s' := by
  obtain ⟨s', hs'⟩ := exists_of_fails
    (show Fails ((Call.link [102] [102]).run 0 small) = true by decide +kernel)
  exact ⟨s', hs', failed_call_untouched small_ready (c := .link [102] [102]) trivial hs'⟩

end Xv6
