import Xv6.Create
import Xv6.Resolve

/-!
# Opening files

`sys_open` finds or makes the inode (`openInode_spec`), and then takes a file structure and a
descriptor for it (`openFile_spec`). With `O_CREATE` the new file is in its directory by the time
either of these can be missing. The call then returns `-1` and leaves the file it made
(`open_leaves_file`), which happens if and only if the path names a file to be made and there is no
free file structure or descriptor (`failed_open_untouched_iff`).
-/

open Function Prog Layout SlotMap Finset

namespace Xv6

/-! ## The file table and the descriptors -/

/-- The state with another file table and other processes. -/
def FS.withTables (s : FS) (ftable : Fptr → File) (procs : Fin NPROC → Proc) : FS :=
  { s with ftable := ftable, procs := procs }

theorem Eff.withTables {V : Finset ℕ} {n : ℕ} {s s' : FS} (h : Eff V n s s')
    (ftable : Fptr → File) (procs : Fin NPROC → Proc) :
    Eff V n (s.withTables ftable procs) (s'.withTables ftable procs) :=
  ⟨congrArg (fun e : Env => { e with ftable := ftable, procs := procs }) h.env, h.loads⟩

/-- A file structure that is not in use has no inode. -/
def FilesOk (s : FS) : Prop :=
  ∀ f, (s.ftable f).ref = 0 → (s.ftable f).type = .none

/-- There is no file structure or no descriptor for process `p`. -/
def NoDescriptor (s : FS) (p : Fin NPROC) : Prop :=
  (∀ f, (s.ftable f).ref ≠ 0) ∨ ∀ fd, (s.procs p).ofile fd ≠ none

theorem filealloc_spec (s : FS) {E : Stop → FS → Prop} :
    wp filealloc (fun r s' => r = none ∧ s' = s ∧ (∀ f, (s.ftable f).ref ≠ 0) ∨
        ∃ f, r = some f ∧ (s.ftable f).ref = 0 ∧ s' = s.withTables
          (update s.ftable f { s.ftable f with ref := 1 }) s.procs) E s := by
  unfold filealloc
  rw [wp_bind, wp_get]
  cases hf : (List.finRange NFILE).find? fun f => (s.ftable f).ref == 0 with
  | none =>
    refine .inl ⟨rfl, rfl, fun f h0 => ?_⟩
    exact List.find?_eq_none.1 hf f (List.mem_finRange f) (beq_iff_eq.2 h0)
  | some f =>
    refine .inr ⟨f, rfl, ?_, rfl⟩
    simpa using List.find?_some hf

theorem fdalloc_spec (s : FS) (p : Fin NPROC) (f : Fptr) {E : Stop → FS → Prop} :
    wp (fdalloc p f) (fun r s' => r = none ∧ s' = s ∧ (∀ fd, (s.procs p).ofile fd ≠ none) ∨
        ∃ fd, r = some fd ∧ (s.procs p).ofile fd = none ∧ s' = s.withTables s.ftable
          (update s.procs p { s.procs p with
            ofile := update (s.procs p).ofile fd (some f) })) E s := by
  unfold fdalloc
  rw [wp_bind, wp_get]
  cases hf : (List.finRange NOFILE).find? fun d => (s.procs p).ofile d == none with
  | none =>
    refine .inl ⟨rfl, rfl, fun fd h0 => ?_⟩
    exact List.find?_eq_none.1 hf fd (List.mem_finRange fd) (beq_iff_eq.2 h0)
  | some fd =>
    refine .inr ⟨fd, rfl, ?_, rfl⟩
    simpa using List.find?_some hf

theorem fileclose_last {s : FS} {f : Fptr} (href : (s.ftable f).ref = 1)
    (htype : (s.ftable f).type = .none) {E : Stop → FS → Prop} :
    wp (fileclose f) (fun _ s' => s' = s.withTables
      (update s.ftable f { s.ftable f with ref := 0, type := .none }) s.procs) E s := by
  unfold fileclose modifyFile
  rw [wp_bind, wp_get]
  dsimp only
  rw [href, htype, if_neg (by decide), if_neg (by decide), wp_bind, wp_modify]
  rfl

theorem fileclose_taken {s : FS} {f : Fptr} (href : (s.ftable f).ref = 0)
    (htype : (s.ftable f).type = .none) {E : Stop → FS → Prop} :
    wp (fileclose f) (fun _ s' => s' = s) E (s.withTables
      (update s.ftable f { s.ftable f with ref := 1 }) s.procs) := by
  set taken := s.withTables (update s.ftable f { s.ftable f with ref := 1 }) s.procs
  have hentry : taken.ftable f = { s.ftable f with ref := 1 } := update_self _ _ _
  refine wp_mono (fileclose_last (by rw [hentry]) (by rw [hentry]; exact htype)) ?_
  rintro _ s' rfl
  have hback : ({ taken.ftable f with ref := 0, type := .none } : File) = s.ftable f := by
    rw [hentry, ← href, ← htype]
  have hft : update taken.ftable f (s.ftable f) = s.ftable := by
    show update (update s.ftable f _) f (s.ftable f) = s.ftable
    rw [update_idem, update_eq_self]
  rw [hback, hft]
  rfl

section

variable {p : Fin NPROC} {L : Multiset (Iptr × ℕ)} {s s1 : FS} {path : List UInt8}
  {omode : UInt32} {ip : Iptr}

/-- The call is to make a file. -/
def Creates (s : FS) (p : Fin NPROC) (path : List UInt8) (omode : UInt32) : Prop :=
  omode &&& O_CREATE ≠ 0 ∧ Missing (view s) (startInode s p path) (elems path)

/-- The inode that `sys_open` opens is one that was there, or a new one. A directory is opened for
reading only. -/
def Opens (L : Multiset (Iptr × ℕ)) (p : Fin NPROC) (path : List UInt8) (omode : UInt32) (s : FS)
    (ip : Iptr) (s' : FS) : Prop :=
  ∃ i, Inv L ((ip, i) ::ₘ L) (insert ip ∅) s' ∧ ((view s' i).type = T_DIR → omode = O_RDONLY) ∧
    (Quiet s s' ∧ ¬ Creates s p path omode ∨
      Creates s p path omode ∧ (view s i).type = 0 ∧ (view s' i).type ≠ 0 ∧
        Changes (ninum s.sb) (Held ((ip, i) ::ₘ L)) (view s) (view s') ∧
        ∃ d, Eff (metaBlocks s.sb i d) 6 s s')

/-- The first part of `sys_open` returns a locked inode, or changes nothing. -/
theorem openInode_spec (h : Ready p L s) (path : List UInt8) (omode : UInt32) :
    wp (openInode p path omode) (fun r s' =>
        r = none ∧ ¬ Creates s p path omode ∧ Quiet s s' ∧ Inv L L ∅ s' ∨
          ∃ ip, r = some ip ∧ Opens L p path omode s ip s')
      (fun _ _ => True) s := by
  unfold openInode
  by_cases hmode : omode &&& O_CREATE ≠ 0
  · rw [if_pos hmode]
    refine wp_mono (create_spec h path (show T_FILE ≠ 0 by decide)) ?_
    rintro r s' (⟨rfl, hno, hq, h'⟩ | ⟨ip, rfl, i, h', hi, hcreated⟩)
    · exact .inl ⟨rfl, fun hc => hno hc.2, hq, h'⟩
    refine .inr ⟨ip, rfl, i, h', fun hdir => absurd (hi.symm.trans hdir) (by decide), ?_⟩
    rcases hcreated with ⟨hq, -, hno⟩ | ⟨hmissing, hfree, hch, heff⟩
    · exact .inl ⟨hq, fun hc => hno hc.2⟩
    · exact .inr ⟨⟨hmode, hmissing⟩, hfree, by rw [hi]; decide, hch, heff⟩
  · have hno : ¬ Creates s p path omode := fun hc => hmode hc.1
    rw [if_neg hmode]
    refine wp_seq_partial (namei_spec h path) ?_
    rintro r s1 ⟨hq1, ⟨rfl, -, h1⟩ | ⟨ip, i, rfl, -, h1⟩⟩
    · exact .inl ⟨rfl, hno, hq1, h1⟩
    dsimp only
    have hik : (ip, i) ∈ (ip, i) ::ₘ L := Multiset.mem_cons_self _ _
    refine wp_seq_partial (ilock_spec h1 hik) ?_
    rintro _ s2 ⟨-, -, h2, hq2⟩
    have hiB : ip ∈ insert ip (∅ : Finset Iptr) := mem_insert_self _ _
    replace hq2 := hq1.trans hq2
    rw [wp_bind, wp_get, ← h2.store.type_eq (h2.loaded hik hiB)]
    by_cases hdir : (view s2 i).type = T_DIR ∧ omode ≠ O_RDONLY
    · rw [if_pos hdir]
      refine wp_seq_total (iunlockput_only h2 le_rfl) ?_
      rintro _ s3 ⟨h3, hq3⟩
      exact .inl ⟨rfl, hno, hq2.trans hq3, h3⟩
    · rw [if_neg hdir, wp_pure]
      exact .inr ⟨ip, rfl, i, h2, fun hty => not_not.1 fun hne => hdir ⟨hty, hne⟩,
        .inl ⟨hq2, hno⟩⟩

/-- The way out of `sys_open` that gives the inode back. A file that was made stays. -/
theorem openBad_spec (ho : Opens L p path omode s.begun ip s1) :
    wp (do
        iunlockput ip
        endOp
        return (none : Option (Fin NOFILE)))
      (fun r s' => r = none ∧ Ran L 6 s s' ∧ (Untouched s s' ↔ ¬ Creates s p path omode))
      (fun _ _ => True) s1 := by
  obtain ⟨i, h1, -, hcase⟩ := ho
  refine wp_seq_total (iunlockput_only h1 le_rfl) ?_
  rintro _ s2 ⟨h2, hq2⟩
  rcases hcase with ⟨hq1, hno⟩ | ⟨hcreates, hfree, hi, hch, d, heff⟩
  · refine wp_mono (wp_endOp_quiet (n := 6) none h2 (hq1.trans hq2)) ?_
    rintro r s' ⟨rfl, hran, hun⟩
    exact ⟨rfl, hran, iff_of_true hun hno⟩
  · have heff2 : Eff (metaBlocks s.sb i d) 6 s.begun s2 := heff.quiet hq2
    refine wp_mono (wp_endOp none h2 ?_ card_le_two heff2) ?_
    · rw [hq2.view_eq]
      exact hch.mono (held_cons_subset _ _)
    · rintro r s' ⟨rfl, hran, hun⟩
      refine ⟨rfl, hran, iff_of_false (fun hun' => hi ?_) (not_not.2 hcreates)⟩
      rw [← hq2.view_eq, ← hun.files, hun'.files]
      exact hfree

/-- File structure `f` and descriptor `fd` of process `p` are taken. -/
def FS.taken (s : FS) (p : Fin NPROC) (f : Fptr) (fd : Fin NOFILE) : FS :=
  s.withTables (update s.ftable f { s.ftable f with ref := 1 })
    (update s.procs p { s.procs p with
      ofile := update (s.procs p).ofile fd (some f) })

/-- File structure `f` is for the inode in slot `ip`. -/
def FS.opened (s : FS) (f : Fptr) (ip : Iptr) (omode : UInt32) : FS :=
  { s with ftable := update s.ftable f { s.ftable f with
      type := .inode
      ip := ip
      off := 0
      readable := decide (omode &&& O_WRONLY = 0)
      writable := decide (omode &&& O_WRONLY ≠ 0) || decide (omode &&& O_RDWR ≠ 0) } }

/-- What a call of `sys_open` does that returns `fd`. -/
def OpenedAt (L : Multiset (Iptr × ℕ)) (p : Fin NPROC) (omode : UInt32) (s : FS)
    (fd : Fin NOFILE) (s' : FS) : Prop :=
  ∃ f ip i s1, (s.ftable f).ref = 0 ∧ (s.procs p).ofile fd = none ∧
    (view s' i).type ≠ 0 ∧ ((view s' i).type = T_DIR → omode = O_RDONLY) ∧
    Ran ((ip, i) ::ₘ L) 6 (s.taken p f fd) s1 ∧ s' = s1.opened f ip omode

/-- The second part of `sys_open`. -/
theorem openFile_spec (hfiles : FilesOk s) (ho : Opens L p path omode s.begun ip s1) :
    wp (openFile p ip omode) (fun r s' =>
        r = none ∧ NoDescriptor s p ∧ Ran L 6 s s' ∧ (Untouched s s' ↔ ¬ Creates s p path omode) ∨
          ∃ fd, r = some fd ∧ OpenedAt L p omode s fd s')
      (fun _ _ => True) s1 := by
  have henv : s1.ftable = s.ftable ∧ s1.procs = s.procs := by
    obtain ⟨i, -, -, ⟨hq, -⟩ | ⟨-, -, -, -, d, heff⟩⟩ := ho
    · exact ⟨congrArg Env.ftable hq.env, congrArg Env.procs hq.env⟩
    · exact ⟨congrArg Env.ftable heff.env, congrArg Env.procs heff.env⟩
  obtain ⟨hft, hps⟩ := henv
  unfold openFile
  refine wp_seq (filealloc_spec s1) ?_
  rintro r _ (⟨rfl, rfl, hfull⟩ | ⟨f, rfl, href, rfl⟩)
  · refine wp_mono (openBad_spec ho) ?_
    rintro r s' ⟨rfl, hran, hun⟩
    exact .inl ⟨rfl, .inl (hft ▸ hfull), hran, hun⟩
  dsimp only
  refine wp_seq (fdalloc_spec _ p f) ?_
  rintro r _ (⟨rfl, rfl, hfull⟩ | ⟨fd, rfl, hfd, rfl⟩)
  · dsimp only
    rw [hft] at href
    have htype := hfiles f href
    rw [← hft] at href htype
    refine wp_seq (fileclose_taken href htype) ?_
    rintro _ _ rfl
    refine wp_mono (openBad_spec ho) ?_
    rintro r s' ⟨rfl, hran, hun⟩
    exact .inl ⟨rfl, .inr (hps ▸ hfull), hran, hun⟩
  dsimp only
  -- the tables as they are now, in the states before and after
  obtain ⟨i, h1, hdir, hcase⟩ := ho
  have heff : ∃ d, Eff (metaBlocks s.sb i d) 6 s.begun s1 ∧
      Changes (ninum s.sb) (Held ((ip, i) ::ₘ L)) (view s) (view s1) := by
    rcases hcase with ⟨hq, -⟩ | ⟨-, -, -, hch, d, heff⟩
    · exact ⟨0, hq.eff.mono (empty_subset _) (Nat.zero_le 6), hq.view_eq ▸ .refl⟩
    · exact ⟨d, heff, hch⟩
  obtain ⟨d, heff, hch⟩ := heff
  show wp _ _ _ (s1.withTables (update s1.ftable f { s1.ftable f with ref := 1 })
    (update s1.procs p { s1.procs p with
      ofile := update (s1.procs p).ofile fd (some f) }))
  replace hfd : (s.procs p).ofile fd = none := hps ▸ hfd
  rw [hft] at href
  rw [hft, hps]
  have hiB : ip ∈ insert ip (∅ : Finset Iptr) := mem_insert_self _ _
  have h2 : Inv L ((ip, i) ::ₘ L) (insert ip ∅)
      (s1.withTables (s.taken p f fd).ftable (s.taken p f fd).procs) := h1.congr rfl rfl rfl
  have heff2 : Eff (metaBlocks s.sb i d) 6 (s.taken p f fd).begun
      (s1.withTables (s.taken p f fd).ftable (s.taken p f fd).procs) := heff.withTables _ _
  refine wp_seq_total (iunlock_spec h2 hiB) ?_
  rintro _ s3 ⟨h3, hq3⟩
  rw [erase_insert (notMem_empty ip)] at h3
  have hV3 : view s3 = view s1 := hq3.view_eq
  have hend := wp_endOp () (h3.mono (Multiset.le_cons_self _ _) le_rfl)
    (s := s.taken p f fd) (hV3 ▸ hch) card_le_two (heff2.quiet hq3)
  rw [wp_bind] at hend ⊢
  refine wp_mono hend ?_
  rintro _ s4 ⟨-, hran, hun⟩
  have hV4 : view s4 = view s1 := hun.files.trans hV3
  have hloaded := h1.loaded (Multiset.mem_cons_self _ _) hiB
  refine .inr ⟨fd, rfl, f, ip, i, s4, href, hfd, ?_, fun hty => hdir (hV4 ▸ hty), hran, rfl⟩
  show (view s4 i).type ≠ 0
  rw [hV4, h1.store.type_eq hloaded]
  exact h1.store.typed _ _ hloaded

/-- `sys_open` opens a file, or fails. If it was to make the file it then leaves it. -/
theorem sysOpen_spec (h : Ready p L s) (hfiles : FilesOk s) (path : List UInt8) (omode : UInt32) :
    wp (sysOpen p path omode) (fun r s' =>
        r = none ∧ Ran L 6 s s' ∧
            (Untouched s s' ↔ ¬ (Creates s p path omode ∧ NoDescriptor s p)) ∨
          ∃ fd, r = some fd ∧ OpenedAt L p omode s fd s')
      (fun _ _ => True) s := by
  unfold sysOpen
  refine wp_seq_partial (beginOp_spec s) ?_
  rintro _ _ rfl
  refine wp_seq (openInode_spec h.begun path omode) ?_
  rintro r s1 (⟨rfl, hno, hq1, h1⟩ | ⟨ip, rfl, ho⟩)
  · refine wp_mono (wp_endOp_quiet (n := 6) none h1 hq1) ?_
    rintro r s' ⟨rfl, hran, hun⟩
    exact .inl ⟨rfl, hran, iff_of_true hun fun hbad => hno hbad.1⟩
  · refine wp_mono (openFile_spec hfiles ho) ?_
    rintro r s' (⟨rfl, hnone, hran, hun⟩ | hopened)
    · exact .inl ⟨rfl, hran, by simp only [hun, hnone, and_true]⟩
    · exact .inr hopened

/-- A call of `sys_open` that fails leaves the files and the bitmap as they were if and only if it
was not to make a file for which there is no file structure or no descriptor. -/
theorem failed_open_untouched_iff (h : Ready p L s) (hfiles : FilesOk s) {s' : FS}
    (hrun : sysOpen p path omode s = .ok none s') :
    Untouched s s' ↔ ¬ (Creates s p path omode ∧ NoDescriptor s p) := by
  rcases wp_ok (sysOpen_spec h hfiles path omode) hrun with ⟨-, -, hun⟩ | ⟨fd, hr, -⟩
  · exact hun
  · exact absurd hr.symm (Option.some_ne_none fd)

end

/-! ## A process without descriptors -/

/-- The first process has one end of a pipe at each of its descriptors. -/
def busy : FS :=
  { small with
    ftable := fun f => if f.val = 0 then ⟨.pipe, 16, true, false, 0, 0, 0⟩
      else ⟨.none, 0, false, false, 0, 0, 0⟩
    procs := fun q => if q.val = 0 then ⟨some 0, fun _ => some 0⟩ else ⟨none, fun _ => none⟩ }

theorem busy_ready : Ready 0 bootRefs busy :=
  small_ready.congr rfl rfl rfl rfl

theorem busy_files : FilesOk busy := by
  intro f href
  show (if f.val = 0 then (⟨.pipe, 16, true, false, 0, 0, 0⟩ : File)
    else ⟨.none, 0, false, false, 0, 0, 0⟩).type = .none
  by_cases hf : f.val = 0
  · have hpipe : (busy.ftable f).ref = 16 := by
      simp only [busy, if_pos hf]
    rw [hpipe] at href
    exact absurd href (by decide)
  · rw [if_neg hf]

/-- The type of file `i` after `sys_open` has failed. -/
def typeAfter (i : ℕ) : EStateM.Result Stop FS (Option (Fin NOFILE)) → Option Int16
  | .ok none s' => some (view s' i).type
  | _ => none

theorem exists_of_typeAfter {i : ℕ} {type : Int16}
    {r : EStateM.Result Stop FS (Option (Fin NOFILE))} (h : typeAfter i r = some type) :
    ∃ s', r = .ok none s' ∧ (view s' i).type = type := by
  unfold typeAfter at h
  split at h
  · exact ⟨_, rfl, Option.some.inj h⟩
  · exact absurd h (by simp)

/-- The file `x` is made, with inode 3, and `sys_open` returns `-1`. -/
theorem open_leaves_file : Ready 0 bootRefs busy ∧ FilesOk busy ∧
    ∃ s', sysOpen 0 [120] O_CREATE busy = .ok none s' ∧ ¬ Untouched busy s' := by
  obtain ⟨s', hs', htype⟩ := exists_of_typeAfter
    (show typeAfter 3 (sysOpen 0 [120] O_CREATE busy) = some T_FILE by decide +kernel)
  refine ⟨busy_ready, busy_files, s', hs', fun hun => ?_⟩
  have hfree : (view busy 3).type = 0 := by
    show (view small 3).type = 0
    rw [view_small, node_type]
    decide
  rw [hun.files, hfree] at htype
  exact absurd htype (by decide)

/-- The file `f` is there, so nothing is made. It is not opened for want of a descriptor. -/
theorem failed_open_untouched_busy : ∃ s', sysOpen 0 [102] O_CREATE busy = .ok none s' ∧
    Untouched busy s' := by
  obtain ⟨s', hs', -⟩ := exists_of_typeAfter
    (show typeAfter 2 (sysOpen 0 [102] O_CREATE busy) = some T_FILE by decide +kernel)
  refine ⟨s', hs', (failed_open_untouched_iff busy_ready busy_files hs').2 ?_⟩
  rintro ⟨⟨-, d, e, hd, he, hchild⟩, -⟩
  have helems : elems [102] = [[102]] := by decide
  rw [helems] at hd he
  rw [parentOf, if_neg (by decide)] at hd
  obtain rfl : [102] = e := Option.some.inj he
  obtain rfl : 1 = d := Option.some.inj ((Option.filter_eq_some_iff.1 hd).1)
  exact absurd (child_small.symm.trans hchild) (by decide)

end Xv6
