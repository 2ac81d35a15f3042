import Xv6.Unlink

/-!
# Making files

`create` finds a file or makes one, a file, a device or a directory with its dots, and enters it in
its directory (`createNew_spec`, `create_spec`). On it rest `sys_mkdir` and `sys_mknod`, which keep
no reference to what they made.
-/

open Function Prog Layout SlotMap Multiset

namespace Xv6

/-! ## The dots of a new directory -/

section

variable {n i : ℕ} {major minor : Int16} {nd : Node}

theorem made_nent (type major minor nlink : Int16) :
    ((Node.made type).relink major minor nlink).nent = 0 :=
  Nat.zero_div _

theorem made_wfDir (type major minor nlink : Int16) :
    WfDir n ((Node.made type).relink major minor nlink) :=
  ⟨⟨0, rfl⟩, fun e he => absurd (made_nent type major minor nlink ▸ he) (Nat.not_lt_zero e)⟩

theorem made_find (type major minor nlink : Int16) (name : Name) :
    ((Node.made type).relink major minor nlink).find name = none := by
  rw [Node.find, SlotMap.find, made_nent]
  rfl

theorem made_vacant (type major minor nlink : Int16) :
    ((Node.made type).relink major minor nlink).vacant = 0 := by
  rw [Node.vacant, SlotMap.vacant, made_nent]
  rfl

theorem oneDot (h : ((Node.made T_DIR).relink major minor 1).Put 0 (newDirent dot i) nd)
    (hpos : 1 ≤ i) (hlt : i < 2 ^ 16) : nd.find (nameOf dotdot) = none ∧ nd.vacant = 1 := by
  have hsize : nd.size = 16 := h.size
  have hnent : nd.nent = 1 := by
    rw [Node.nent, hsize]
    rfl
  have hslot : nd.slot 0 = some (nameOf dot, i) := by
    rw [h.slot, if_pos rfl, newDirent_slot dot (by omega) hlt]
  constructor
  · refine find_eq_none_iff.2 fun e he a ha => ?_
    rw [hnent] at he
    obtain rfl : e = 0 := by omega
    rw [hslot] at ha
    exact nameOf_dot_ne (Prod.mk.inj (Option.some.inj ha)).1
  · rw [Node.vacant, SlotMap.vacant, hnent]
    simp [hslot]

end

section

variable {p : Fin NPROC} {L : Multiset (Iptr × ℕ)} {s s1 : FS} {dp ip : Iptr} {d i n : ℕ}
  {name : ℕ → UInt8} {type major minor : Int16}

/-- The end of `create` : the new file gets its name. -/
theorem createLink_spec
    (h : Inv ((dp, d) ::ₘ (ip, i) ::ₘ L) ((dp, d) ::ₘ (ip, i) ::ₘ L) (insert ip (insert dp ∅)) s1)
    (hne : ip ≠ dp) (hwf : WfDirs (ninum s.sb) (view s1))
    (hfind : (view s1 d).find (nameOf name) = none) (hnlink : (view s1 i).nlink ≠ 0)
    (hch : ∀ nd, (view s1 d).Put (view s1 d).vacant (newDirent name i) nd →
      Change (ninum s.sb) (Held ((ip, i) ::ₘ L)) (view s) (update (view s1) d nd))
    (heff : Eff (metaBlocks s.sb i d) n s s1) :
    wp (do
        if ← dirlink dp name ((← get).icache ip).inum then
          iunlockput dp
          return ip
        else
          panic "create: dirlink")
      (fun r s' => r = ip ∧ Inv L ((ip, i) ::ₘ L) (insert ip ∅) s' ∧ view s' i = view s1 i ∧
        Changes (ninum s.sb) (Held ((ip, i) ::ₘ L)) (view s) (view s') ∧
        Eff (metaBlocks s.sb i d) (n + 2) s s')
      (fun _ _ => True) s1 := by
  have hdk : (dp, d) ∈ (dp, d) ::ₘ (ip, i) ::ₘ L := mem_cons_self _ _
  have hik : (ip, i) ∈ (dp, d) ::ₘ (ip, i) ::ₘ L := by simp
  have hdB : dp ∈ insert ip (insert dp (∅ : Finset Iptr)) := by simp
  have hid : i ≠ d := h.inum_ne hik hdk hne
  have herase : (insert ip (insert dp (∅ : Finset Iptr))).erase dp = insert ip ∅ := by
    rw [Finset.erase_insert_of_ne hne, Finset.erase_insert (Finset.notMem_empty dp)]
  have hsb : s1.sb = s.sb := congrArg Env.sb heff.env
  rw [wp_bind, wp_get, show (s1.icache ip).inum = i from h.inum _ hik]
  refine wp_seq (dirlink_inv h hdk hdB (hsb ▸ hwf) name i) ?_
  rintro r s2 ⟨-, h2, heff2, hput⟩
  rw [if_pos hfind] at hput
  obtain ⟨rfl, hput, hV2⟩ := hput
  rw [if_pos rfl]
  replace heff2 := heff.dir rfl heff2
  refine wp_seq (iunlockput_drop h2 hdB) ?_
  rintro _ s3 ⟨h3, hV3, heff3⟩
  rw [herase] at h3
  have hVi : view s3 i = view s1 i := by
    rw [hV3, released_of_ne hid, hV2, update_of_ne hid]
  refine ⟨rfl, h3.anchor (le_cons_self _ _) fun j htype hno => ?_, hVi, ?_,
    heff2.dir rfl heff3⟩
  · obtain ⟨l, hl, -⟩ := h3.anchored j (Finset.notMem_empty j) htype hno
    rcases mem_cons.1 hl with heq | hl
    · obtain ⟨rfl, rfl⟩ := Prod.mk.inj heq
      rw [hVi] at hno
      exact absurd hno hnlink
    · exact ⟨l, hl⟩
  · rw [hV3]
    refine Changes.frees (.single ?_) (h2.released_frees _)
    rw [hV2]
    exact hch _ hput

/-- The part of `create` for directories : one link more for the directory it is in, and the
dots. -/
theorem createDots_spec
    (h : Inv ((dp, d) ::ₘ (ip, i) ::ₘ L) ((dp, d) ::ₘ (ip, i) ::ₘ L) (insert ip (insert dp ∅)) s1)
    (hne : ip ≠ dp) (hwf : WfDirs (ninum s.sb) (view s)) (hd : (view s d).type = T_DIR)
    (hfree : (view s i).type = 0) (hlen : ninum s.sb ≤ 2 ^ 16)
    (hV : view s1 = update (view s) i ((Node.made T_DIR).relink major minor 1))
    (hfind : (view s d).find (nameOf name) = none)
    (heff : Eff (metaBlocks s.sb i d) n s s1) :
    wp (do
        modifyDin dp fun d => { d with nlink := d.nlink + 1 }
        iupdate dp
        let self := ((← get).icache ip).inum
        if ← dirlink ip dot self then
          if ← dirlink ip dotdot ((← get).icache dp).inum then
            pure ()
          else
            panic "create dots"
        else
          panic "create dots"
        if ← dirlink dp name ((← get).icache ip).inum then
          iunlockput dp
          return ip
        else
          panic "create: dirlink")
      (fun r s' => r = ip ∧ Inv L ((ip, i) ::ₘ L) (insert ip ∅) s' ∧ (view s' i).type = T_DIR ∧
        Changes (ninum s.sb) (Held ((ip, i) ::ₘ L)) (view s) (view s') ∧
        Eff (metaBlocks s.sb i d) (n + 6) s s')
      (fun _ _ => True) s1 := by
  have hdk : (dp, d) ∈ (dp, d) ::ₘ (ip, i) ::ₘ L := mem_cons_self _ _
  have hik : (ip, i) ∈ (dp, d) ::ₘ (ip, i) ::ₘ L := by simp
  have hiB : ip ∈ insert ip (insert dp (∅ : Finset Iptr)) := by simp
  have hdB : dp ∈ insert ip (insert dp (∅ : Finset Iptr)) := by simp
  have hid : i ≠ d := h.inum_ne hik hdk hne
  have hsb1 : s1.sb = s.sb := congrArg Env.sb heff.env
  obtain ⟨hpos, hlt⟩ := h.bounds hik
  obtain ⟨hdpos, hdlt⟩ := h.bounds hdk
  rw [hsb1] at hlt hdlt
  rw [wp_bind, wp_modifyDin]
  refine wp_seq (h.addLinks hdk hdB rfl) ?_
  rintro _ s2 ⟨h2, hV2, heff2, -⟩
  replace heff2 := heff.dir rfl heff2.inode
  have hsb2 : s2.sb = s.sb := congrArg Env.sb heff2.env
  rw [hV, update_of_ne hid.symm] at hV2
  have hi2 : view s2 i = (Node.made T_DIR).relink major minor 1 := by
    rw [hV2, update_of_ne hid, update_self]
  have hwf2 : WfDirs (ninum s.sb) (view s2) := by
    rw [hV2]
    exact (hwf.update fun _ => made_wfDir _ _ _ _).update fun _ => (hwf d hd).addLinks 1
  rw [wp_bind, wp_get, show (s2.icache ip).inum = i from h2.inum _ hik]
  dsimp only
  refine wp_seq (dirlink_inv h2 hik hiB (hsb2 ▸ hwf2) dot i) ?_
  rintro r s3 ⟨-, h3, heff3, hput3⟩
  rw [hi2, if_pos (made_find _ _ _ _ _), made_vacant] at hput3
  obtain ⟨rfl, hput3, hV3⟩ := hput3
  rw [if_pos rfl]
  replace heff3 := heff2.file rfl heff3
  have hsb3 : s3.sb = s.sb := congrArg Env.sb heff3.env
  obtain ⟨hfind3, hvac3⟩ := oneDot hput3 hpos (hlt.trans_le hlen)
  have hwf3 : WfDirs (ninum s.sb) (view s3) := by
    rw [hV3]
    refine hwf2.update fun _ => (made_wfDir T_DIR major minor 1).put hput3 (Nat.zero_le _) ?_
    exact newDirent_lt hlt dot
  rw [wp_bind, wp_get, show (s3.icache dp).inum = d from h3.inum _ hdk]
  refine wp_seq (dirlink_inv h3 hik hiB (hsb3 ▸ hwf3) dotdot d) ?_
  rintro r s4 ⟨-, h4, heff4, hput4⟩
  rw [if_pos hfind3, hvac3] at hput4
  obtain ⟨rfl, hput4, hV4⟩ := hput4
  rw [if_pos rfl]
  replace heff4 := heff3.file rfl heff4
  have hnew : NewDir d i major minor (view s4 i) := ⟨view s3 i, hput3, hput4⟩
  have hd4 : view s4 d = (view s d).addLinks 1 := by
    rw [hV4, update_of_ne hid.symm, hV3, update_of_ne hid.symm, hV2,
      update_self]
  have hV4' : ∀ nd, update (view s4) d nd =
      update (update (view s) i (view s4 i)) d nd := by
    intro nd
    funext j
    by_cases hjd : j = d
    · subst hjd
      rw [update_self, update_self]
    rw [update_of_ne hjd, update_of_ne hjd]
    by_cases hji : j = i
    · subst hji
      rw [update_self]
    · rw [update_of_ne hji, hV4, update_of_ne hji, hV3,
        update_of_ne hji, hV2, update_of_ne hjd, update_of_ne hji]
  obtain ⟨hok, -, -, hnlink⟩ := hnew.dirOk hpos hlt hdpos hdlt hlen
  refine wp_mono (createLink_spec (s := s) h4 hne ?_ ?_ ?_ ?_ heff4) ?_
  · rw [hV4]
    exact hwf3.update fun _ => hok.toWfDir
  · rw [hd4, Node.addLinks_find]
    exact hfind
  · rw [hnlink]
    decide
  · intro nd hput
    rw [hd4, Node.addLinks_vacant] at hput
    rw [hV4']
    exact .mkdir hd hfree hpos hlt hdpos hdlt hnew hfind hput
  · rintro r s' ⟨rfl, h', hi', hch, heff'⟩
    exact ⟨rfl, h', hi' ▸ hnew.type, hch, heff'⟩

/-- `create` of a file that is not there makes it. -/
theorem createNew_spec (h : Inv L ((dp, d) ::ₘ L) (insert dp ∅) s1) (hq : Quiet s s1)
    (hdots : Dots (ninum s.sb) (view s)) (hlen : ninum s.sb ≤ 2 ^ 16)
    (hd : (view s d).type = T_DIR) (hfind : (view s d).find (nameOf name) = none)
    (htype : type ≠ 0) :
    wp (createNew dp name type major minor) (fun ip s' => ∃ i, (view s i).type = 0 ∧
        (view s' i).type = type ∧ Inv L ((ip, i) ::ₘ L) (insert ip ∅) s' ∧
        Changes (ninum s.sb) (Held ((ip, i) ::ₘ L)) (view s) (view s') ∧
        Eff (metaBlocks s.sb i d) 6 s s')
      (fun _ _ => True) s1 := by
  have hdk : (dp, d) ∈ (dp, d) ::ₘ L := mem_cons_self _ _
  have hsb1 : s1.sb = s.sb := congrArg Env.sb hq.env
  unfold createNew
  rw [wp_bind, wp_get, h.store.distinct.dev dp (h.ref_pos hdk)]
  refine wp_seq (ialloc_spec h htype) ?_
  rintro ip s2 ⟨i, hfree, h2, hV2, heff2⟩
  rw [hq.view_eq] at hfree hV2
  replace heff2 : Eff (metaBlocks s.sb i d) 0 s s2 :=
    (hq.eff.mono (Finset.empty_subset _) le_rfl).file rfl heff2.inode
  have hik : (ip, i) ∈ (ip, i) ::ₘ (dp, d) ::ₘ L := mem_cons_self _ _
  refine wp_seq_partial (ilock_spec h2 hik) ?_
  rintro _ s3 ⟨hipB, -, h3, hq3⟩
  have hne : ip ≠ dp := fun heq => hipB (heq ▸ Finset.mem_insert_self _ _)
  have hiB : ip ∈ insert ip (insert dp (∅ : Finset Iptr)) := by simp
  have heff3 := heff2.quiet hq3
  rw [wp_bind, wp_modifyDin]
  refine wp_seq (h3.relink hik hiB rfl fun h0 => absurd h0 (show (1 : Int16) ≠ 0 by decide)) ?_
  rintro _ s4 ⟨h4, hV4, heff4, -⟩
  replace heff4 := heff3.file rfl heff4.inode
  rw [hq3.view_eq, hV2, update_self, update_idem] at hV4
  have hi4 : view s4 i = (Node.made type).relink major minor 1 := by
    rw [hV4, update_self]
  have h4' : Inv ((dp, d) ::ₘ (ip, i) ::ₘ L) ((dp, d) ::ₘ (ip, i) ::ₘ L)
      (insert ip (insert dp ∅)) s4 := by
    have hlinked := h4.linked (i := i) (by rw [hi4]; show (1 : Int16) ≠ 0; decide)
    rw [insert_empty_eq, Finset.erase_singleton, cons_swap] at hlinked
    exact hlinked.mono ((le_cons_self _ _).trans (le_cons_self _ _)) le_rfl
  have hid : i ≠ d := h4.inum_ne hik (mem_cons_of_mem hdk) hne
  by_cases hdir : type = T_DIR
  · rw [if_pos hdir]
    subst hdir
    refine wp_mono (createDots_spec h4' hne hdots.wfDirs hd hfree hlen hV4 hfind heff4) ?_
    rintro r s' ⟨rfl, h', hi', hch, heff'⟩
    exact ⟨i, hfree, hi', h', hch, heff'⟩
  · rw [if_neg hdir]
    obtain ⟨hpos, hlt⟩ := h4.bounds hik
    rw [show s4.sb = s.sb from congrArg Env.sb heff4.env] at hlt
    have hd4 : view s4 d = view s d := by rw [hV4, update_of_ne hid.symm]
    refine wp_mono (createLink_spec (s := s) h4' hne ?_ ?_ ?_ ?_ heff4) ?_
    · rw [hV4]
      exact hdots.wfDirs.update fun _ => made_wfDir _ _ _ _
    · rw [hd4]
      exact hfind
    · rw [hi4]
      show (1 : Int16) ≠ 0
      decide
    · intro nd hput
      rw [hd4] at hput
      rw [hV4]
      exact .make hd hfree htype hdir hpos hlt hfind hput
    · rintro r s' ⟨rfl, h', hi', hch, heff'⟩
      refine ⟨i, hfree, ?_, h', hch, heff'.mono le_rfl (by omega)⟩
      rw [hi', hi4]
      rfl

/-- The inode that `create` returns is one that was there, or a new one. -/
def Created (L : Multiset (Iptr × ℕ)) (p : Fin NPROC) (path : List UInt8) (type : Int16) (s : FS)
    (ip : Iptr) (s' : FS) : Prop :=
  ∃ i, Inv L ((ip, i) ::ₘ L) (insert ip ∅) s' ∧ (view s' i).type = type ∧
    (Quiet s s' ∧ type = T_FILE ∧ ¬ Missing (view s) (startInode s p path) (elems path) ∨
      Missing (view s) (startInode s p path) (elems path) ∧ (view s i).type = 0 ∧
        Changes (ninum s.sb) (Held ((ip, i) ::ₘ L)) (view s) (view s') ∧
        ∃ d, Eff (metaBlocks s.sb i d) 6 s s')

/-- `create` returns a locked inode, or changes nothing. -/
theorem create_spec (h : Ready p L s) (path : List UInt8) (htype : type ≠ 0) :
    wp (create p path type major minor) (fun r s' =>
        r = none ∧ ¬ Missing (view s) (startInode s p path) (elems path) ∧ Quiet s s' ∧
            Inv L L ∅ s' ∨
          ∃ ip, r = some ip ∧ Created L p path type s ip s')
      (fun _ _ => True) s := by
  unfold create
  refine wp_seq_partial (nameiparent_spec h path) ?_
  rintro r s1 ⟨hq1, ⟨rfl, hnone, h1⟩ | ⟨dp, d, rfl, hsome, h1, hd⟩⟩
  · exact .inl ⟨rfl, not_missing_of_none hnone, hq1, h1⟩
  have hmissing := missing_iff hsome s.stack
  generalize lastElem (elems path) s.stack = name at hmissing ⊢
  dsimp only
  have hdk : (dp, d) ∈ (dp, d) ::ₘ L := mem_cons_self _ _
  refine wp_seq_partial (ilock_spec h1 hdk) ?_
  rintro _ s2 ⟨-, -, h2, hq2⟩
  have hdB : dp ∈ insert dp (∅ : Finset Iptr) := by simp
  replace hq2 := hq1.trans hq2
  refine wp_seq_partial (dirlookup_inv h2 hdk hdB (h.wfDirs hq2) name) ?_
  rintro r s3 ⟨-, hr⟩
  rw [hq2.view_eq] at hr
  cases hfind : (view s d).find (nameOf name) with
  | none =>
    rw [hfind] at hr
    obtain ⟨rfl, rfl⟩ := hr
    refine wp_seq (createNew_spec h2 hq2 h.dots h.ninum_le hd hfind htype) ?_
    rintro ip s4 ⟨i, hfree, hi, h4, hch, heff⟩
    exact .inr ⟨ip, rfl, i, h4, hi, .inr ⟨hmissing.2 hfind, hfree, hch, d, heff⟩⟩
  | some e =>
    rw [hfind] at hr hmissing
    obtain ⟨ip, i, -, rfl, h3, hq3⟩ := hr
    dsimp only
    replace hq3 := hq2.trans hq3
    have hno : ¬ Missing (view s) (startInode s p path) (elems path) := fun hm =>
      Option.some_ne_none e (hmissing.1 hm)
    rw [cons_swap] at h3
    refine wp_seq_total (iunlockput_only h3 (le_cons_self _ _)) ?_
    rintro _ s4 ⟨h4, hq4⟩
    have hik : (ip, i) ∈ (ip, i) ::ₘ L := mem_cons_self _ _
    refine wp_seq_partial (ilock_spec h4 hik) ?_
    rintro _ s5 ⟨-, -, h5, hq5⟩
    have hiB : ip ∈ insert ip (∅ : Finset Iptr) := by simp
    replace hq5 := (hq3.trans hq4).trans hq5
    rw [wp_bind, wp_get, ← h5.store.type_eq (h5.loaded hik hiB)]
    by_cases hfile : type = T_FILE ∧ (view s5 i).type = T_FILE
    · rw [if_pos hfile, wp_pure]
      exact .inr ⟨ip, rfl, i, h5, hfile.2.trans hfile.1.symm, .inl ⟨hq5, hfile.1, hno⟩⟩
    · rw [if_neg hfile]
      refine wp_seq_total (iunlockput_only h5 le_rfl) ?_
      rintro _ s6 ⟨h6, hq6⟩
      exact .inl ⟨rfl, hno, hq5.trans hq6, h6⟩

/-! ## `sys_mkdir`, `sys_mknod` and `sys_chdir` -/

/-- `sys_mkdir` and `sys_mknod` make a file, or change nothing. -/
theorem sysMake_spec (h : Ready p L s) (path : Option (List UInt8)) (htype : type ≠ 0) :
    wp (sysMake p path type major minor)
      (fun r s' => Ran L 6 s s' ∧ (r = false → Untouched s s')) (fun _ _ => True) s := by
  unfold sysMake
  refine wp_seq_partial (beginOp_spec s) ?_
  rintro _ _ rfl
  cases path with
  | none => exact wp_endOp_untouched false h.begun.inv (Quiet.refl _)
  | some path =>
    dsimp only
    refine wp_seq (create_spec h.begun path htype) ?_
    rintro r s1 (⟨rfl, -, hq1, h1⟩ | ⟨ip, rfl, i, h1, -, hcreated⟩)
    · exact wp_endOp_untouched false h1 hq1
    dsimp only
    refine wp_seq_total (iunlockput_only h1 le_rfl) ?_
    rintro _ s2 ⟨h2, hq2⟩
    rcases hcreated with ⟨hq1, -, -⟩ | ⟨-, -, hch, d, heff⟩
    · exact wp_endOp_untouched true h2 (hq1.trans hq2)
    · have heff2 : Eff (metaBlocks s.sb i d) 6 s.begun s2 := heff.quiet hq2
      refine wp_endOp_true h2 ?_ Finset.card_le_two heff2
      rw [hq2.view_eq]
      exact hch.mono (held_cons_subset _ _)

end

end Xv6
