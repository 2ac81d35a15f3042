import Xv6.Links

/-!
# Unlinking

`sys_unlink` as a change of the tree (`sysUnlink_spec`). It takes the entry of a file or of an empty
directory out of its directory, and a file whose last name and last reference are gone is freed. The
directory itself is given back before the link count of the file is stored, which makes no
difference to the files (`released_update`).
-/

open Function Prog Layout SlotMap Multiset

namespace Xv6

/-! ## The order of the changes -/

section

variable {V : ℕ → Node} {L : Multiset (Iptr × ℕ)} {k : Iptr} {i j : ℕ}

theorem released_of_ne (hne : j ≠ i) : released V L k i j = V j := by
  unfold released
  split_ifs
  · exact update_of_ne hne _ _
  · rfl

theorem released_update (hne : j ≠ i) (nd : Node) :
    released (update V j nd) L k i = update (released V L k i) j nd := by
  unfold released
  rw [update_of_ne hne.symm]
  split_ifs
  · exact update_comm hne _ _ _
  · rfl

end

section

variable {p : Fin NPROC} {L : Multiset (Iptr × ℕ)} {s s1 : FS} {dp ip : Iptr} {d i : ℕ}

theorem sysUnlinkBad_spec (h : Inv L ((dp, d) ::ₘ L) (insert dp ∅) s1) (hq : Quiet s.begun s1) :
    wp (sysUnlinkBad dp) (fun r s' => Ran L 2 s s' ∧ (r = false → Untouched s s'))
      (fun _ _ => True) s1 := by
  unfold sysUnlinkBad
  refine wp_seq_total (iunlockput_only h le_rfl) ?_
  rintro _ s2 ⟨h2, hq2⟩
  exact wp_endOp_untouched false h2 (hq.trans hq2)

/-- `sys_unlink` once the entry is gone : the directory is given back, the file has a link less. -/
theorem sysUnlinkFile_spec
    (h : Inv ((dp, d) ::ₘ (ip, i) ::ₘ L) ((dp, d) ::ₘ (ip, i) ::ₘ L) (insert ip (insert dp ∅)) s1)
    (hne : ip ≠ dp)
    (hch : Changes (ninum s.sb) (Held L) (view s)
      (update (view s1) i ((view s1 i).addLinks (-1))))
    (heff : Eff (metaBlocks s.sb i d) 2 s.begun s1) :
    wp (do
        iunlockput dp
        modifyDin ip fun d => { d with nlink := d.nlink - 1 }
        iupdate ip
        iunlockput ip
        endOp
        return true)
      (fun r s' => Ran L 2 s s' ∧ (r = false → Untouched s s')) (fun _ _ => True) s1 := by
  have hid : i ≠ d := h.inum_ne (by simp) (mem_cons_self _ _) hne
  have herase : (insert ip (insert dp (∅ : Finset Iptr))).erase dp = insert ip ∅ := by
    rw [Finset.erase_insert_of_ne hne, Finset.erase_insert (Finset.notMem_empty dp)]
  refine wp_seq (iunlockput_drop h (Finset.mem_insert_of_mem (Finset.mem_insert_self _ _))) ?_
  rintro _ s2 ⟨h2, hV2, heff2⟩
  rw [herase] at h2
  replace heff2 := heff.dir rfl heff2
  have hik : (ip, i) ∈ (ip, i) ::ₘ L := mem_cons_self _ _
  have hiB : ip ∈ insert ip (∅ : Finset Iptr) := by simp
  rw [wp_bind, wp_modifyDin]
  refine wp_seq (h2.addLinks hik hiB (Int16.sub_eq_add_neg _ _)) ?_
  rintro _ s3 ⟨h3, hV3, heff3, -⟩
  replace heff3 := heff2.file rfl heff3.inode
  rw [hV2, released_of_ne hid, ← released_update hid] at hV3
  refine wp_seq (iunlockput_drop h3 hiB) ?_
  rintro _ s4 ⟨h4, hV4, heff4⟩
  rw [Finset.erase_insert (Finset.notMem_empty ip)] at h4
  have hch4 : Changes (ninum s.sb) (Held L) (view s) (view s4) := by
    rw [hV4]
    refine (hch.frees ?_).frees (h3.released_frees _)
    rw [hV3]
    exact (h.released_frees _).mono (held_cons_subset _ _)
  exact wp_endOp_true h4 hch4 Finset.card_le_two (heff3.file rfl heff4)

/-- `sys_unlink` from the point where the entry goes. -/
theorem sysUnlinkEntry_spec {e : ℕ} {name : Name}
    (h : Inv L ((dp, d) ::ₘ (ip, i) ::ₘ L) (insert ip (insert dp ∅)) s1) (hne : ip ≠ dp)
    (hq : Quiet s.begun s1) (hd : (view s d).type = T_DIR)
    (hdot : name ≠ nameOf dot) (hdotdot : name ≠ nameOf dotdot)
    (hfind : (view s d).find name = some e) (hslot : (view s d).slot e = some (name, i))
    (hi : (view s i).type ≠ 0) (hnlink : 1 ≤ (view s i).nlink)
    (hempty : (view s i).type = T_DIR →
      ∀ e', 2 ≤ e' → e' < (view s i).nent → (view s i).slot e' = none) :
    wp (sysUnlinkEntry dp ip (e * DIRENT))
      (fun r s' => Ran L 2 s s' ∧ (r = false → Untouched s s')) (fun _ _ => True) s1 := by
  have hdk : (dp, d) ∈ (dp, d) ::ₘ (ip, i) ::ₘ L := mem_cons_self _ _
  have hik : (ip, i) ∈ (dp, d) ::ₘ (ip, i) ::ₘ L := by simp
  have hiB : ip ∈ insert ip (insert dp (∅ : Finset Iptr)) := by simp
  have hdB : dp ∈ insert ip (insert dp (∅ : Finset Iptr)) := by simp
  have hid : i ≠ d := h.inum_ne hik hdk hne
  have hV1 : view s1 = view s := hq.view_eq
  have hd1 : (view s1 d).type ≠ T_DEV := by
    rw [hV1, hd]
    decide
  have he : e < (view s1 d).nent := by
    rw [hV1]
    exact (find_eq_some hfind).1
  unfold sysUnlinkEntry
  refine wp_seq_partial (writeDirent_spec h.store (h.loaded hdk hdB) hd1 he.le noDirent _) ?_
  intro _ s2 hent
  obtain ⟨h2, hV2⟩ := h.entered hent
  have hput := hent.put
  rw [hV1] at hV2 hput
  have heff2 : Eff (metaBlocks s.sb i d) 2 s.begun s2 :=
    (hq.eff.mono (Finset.empty_subset _) le_rfl).dir (n := 2) rfl hent.eff
  replace h2 : Inv ((dp, d) ::ₘ (ip, i) ::ₘ L) ((dp, d) ::ₘ (ip, i) ::ₘ L)
      (insert ip (insert dp ∅)) s2 :=
    h2.mono ((le_cons_self _ _).trans (le_cons_self _ _)) le_rfl
  have hVi : view s2 i = view s i := by rw [hV2, update_of_ne hid]
  rw [wp_bind, wp_get, ← h2.store.type_eq (h2.loaded hik hiB), hVi]
  by_cases hdir : (view s i).type = T_DIR
  · rw [if_pos hdir]
    rw [wp_bind, wp_modifyDin]
    refine wp_seq (h2.addLinks hdk hdB (Int16.sub_eq_add_neg _ _)) ?_
    rintro _ s3 ⟨h3, hV3, heff3, -⟩
    refine sysUnlinkFile_spec h3 hne (.single ?_) (heff2.dir rfl heff3.inode)
    rw [hV3, update_of_ne hid, hVi, hV2, update_idem, update_self]
    exact .rmdir hd hid hdot hdotdot hfind hslot hdir hnlink (hempty hdir) hput
  · rw [if_neg hdir]
    refine sysUnlinkFile_spec h2 hne (.single ?_) heff2
    rw [hVi, hV2]
    exact .unlink hd hdot hdotdot hfind hslot hi hdir hnlink hput

/-- `sys_unlink` takes a name away, or changes nothing. -/
theorem sysUnlink_spec (h : Ready p L s) (path : List UInt8) :
    wp (sysUnlink p path) (fun r s' => Ran L 2 s s' ∧ (r = false → Untouched s s'))
      (fun _ _ => True) s := by
  unfold sysUnlink
  refine wp_seq_partial (beginOp_spec s) ?_
  rintro _ _ rfl
  refine wp_seq_partial (nameiparent_spec h.begun path) ?_
  rintro r s1 ⟨hq1, ⟨rfl, -, h1⟩ | ⟨dp, d, rfl, -, h1, hd⟩⟩
  · exact wp_endOp_untouched false h1 hq1
  generalize lastElem (elems path) s.begun.stack = name
  dsimp only
  have hdk : (dp, d) ∈ (dp, d) ::ₘ L := mem_cons_self _ _
  refine wp_seq_partial (ilock_spec h1 hdk) ?_
  rintro _ s2 ⟨-, -, h2, hq2⟩
  have hdB : dp ∈ insert dp (∅ : Finset Iptr) := by simp
  replace hq2 := hq1.trans hq2
  by_cases hdots : namecmp name dot = 0 ∨ namecmp name dotdot = 0
  · rw [if_pos hdots]
    exact sysUnlinkBad_spec h2 hq2
  rw [if_neg hdots]
  rw [namecmp_eq_zero_iff, namecmp_eq_zero_iff, not_or] at hdots
  refine wp_seq_partial (dirlookup_inv h2 hdk hdB (h.begun.wfDirs hq2) name) ?_
  rintro r s3 ⟨-, hr⟩
  rw [show view s2 = view s from hq2.view_eq] at hr
  cases hfind : (view s d).find (nameOf name) with
  | none =>
    rw [hfind] at hr
    obtain ⟨rfl, rfl⟩ := hr
    exact sysUnlinkBad_spec h2 hq2
  | some e =>
    rw [hfind] at hr
    obtain ⟨ip, i, hslot, rfl, h3, hq3⟩ := hr
    dsimp only
    replace hq3 := hq2.trans hq3
    have hik : (ip, i) ∈ (ip, i) ::ₘ (dp, d) ::ₘ L := mem_cons_self _ _
    refine wp_seq_partial (ilock_spec h3 hik) ?_
    rintro _ s4 ⟨hipB, hi, h4, hq4⟩
    have hne : ip ≠ dp := fun heq => hipB (heq ▸ hdB)
    have hiB : ip ∈ insert ip (insert dp (∅ : Finset Iptr)) := by simp
    rw [hq3.view_eq] at hi
    replace hq4 := hq3.trans hq4
    have hV4 : view s4 = view s := hq4.view_eq
    have hl4 := h4.loaded hik hiB
    rw [wp_bind, wp_get, ← h4.store.nlink_eq hl4, ← h4.store.type_eq hl4, hV4]
    by_cases hnlink : (view s i).nlink < 1
    · rw [if_pos hnlink]
      trivial
    rw [if_neg hnlink]
    -- the two references in the order in which they are given back
    have h4' := h4
    rw [cons_swap] at h4'
    have hentry := fun hempty => sysUnlinkEntry_spec h4' hne hq4 hd hdots.1 hdots.2
      hfind hslot hi (Int16.not_lt.1 hnlink) hempty
    by_cases hdir : (view s i).type = T_DIR
    · rw [if_pos hdir]
      have hempty : wp (not <$> isdirempty ip) (fun full s' => s' = s4 ∧ (full = false →
          ∀ e', 2 ≤ e' → e' < (view s i).nent → (view s i).slot e' = none)) (fun _ _ => True)
          s4 := by
        have hsize := (h.dots.wfDirs i hdir).size
        rw [← hV4] at hdir hsize
        rw [wp_map]
        refine wp_mono' (isdirempty_spec h4.store hl4 hdir hsize) ?_ fun _ _ => False.elim
        rintro r s' ⟨rfl, hr⟩
        rw [hV4] at hr
        exact ⟨rfl, fun hfull => hr.1 (Bool.not_eq_eq_eq_not.1 hfull)⟩
      refine wp_seq hempty ?_
      rintro full _ ⟨rfl, hfull⟩
      cases full with
      | false => exact hentry fun _ => hfull rfl
      | true =>
        rw [if_pos rfl]
        refine wp_seq_total (iunlockput_keep h4 hiB (le_cons_self _ _)) ?_
        rintro _ s5 ⟨h5, hq5⟩
        rw [Finset.erase_insert hipB] at h5
        exact sysUnlinkBad_spec h5 (hq4.trans hq5)
    · rw [if_neg hdir, wp_bind, wp_pure, if_neg Bool.false_ne_true]
      exact hentry fun hty => absurd hty hdir

end

end Xv6
