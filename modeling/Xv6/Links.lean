import Xv6.Tree

/-!
# Links

A call as a change of the tree. It is one transaction (`Op`) that leaves the references it found,
no lock, and the files after a few changes (`Ran`), or as they were when it fails (`Untouched`).
`sys_link` is the first : its change is `Change.link` (`sysLink_spec`).
-/

open Function Prog Layout SlotMap Finset

namespace Xv6

/-! ## Transactions -/

/-- The state after `begin_op`. -/
def FS.begun (s : FS) : FS :=
  { s with log := { s.log with outstanding := s.log.outstanding + 1 } }

/-- The state after `end_op`. -/
def FS.ended (s : FS) : FS :=
  { s with log :=
      if s.log.outstanding = 1 then
        { s.log with outstanding := 0, lh := [], committed := s.log.lh :: s.log.committed }
      else { s.log with outstanding := s.log.outstanding - 1 } }

/-- `begin_op` starts an operation, or sleeps. -/
theorem beginOp_spec (s : FS) :
    wp beginOp (fun _ s' => s' = s.begun) (fun x _ => x = .sleep) s := by
  unfold beginOp
  rw [wp_bind, wp_get]
  split_ifs
  · rfl
  · rfl

/-- `end_op` ends it. -/
theorem endOp_spec (s : FS) : wp endOp (fun _ s' => s' = s.ended) (fun _ _ => False) s := by
  unfold endOp
  simp only [wp_bind, wp_modify, wp_get]
  unfold FS.ended
  by_cases h : s.log.outstanding = 1
  · rw [if_pos (by rw [h]; rfl), if_pos h, wp_modify, h]
    rfl
  · rw [if_neg (by omega), if_neg h]
    rfl

theorem InvX.congr {X : Finset ℕ} {R L : Multiset (Iptr × ℕ)} {B : Finset Iptr} {s s' : FS}
    (h : InvX X R L B s) (hd : s'.disk = s.disk) (hsb : s'.sb = s.sb)
    (hc : s'.icache = s.icache) : InvX X R L B s' := by
  obtain ⟨disk, sb, log, icache, ftable, procs, devices, stack⟩ := s
  obtain ⟨disk', sb', log', icache', ftable', procs', devices', stack'⟩ := s'
  obtain rfl : disk' = disk := hd
  obtain rfl : sb' = sb := hsb
  obtain rfl : icache' = icache := hc
  exact ⟨⟨h.store.geometry, h.store.super, h.store.distinct, h.store.typed, h.store.clean,
    h.store.owned⟩, h.le, h.ref, h.inum, h.busy, h.locked, h.anchored⟩

theorem view_congr {s s' : FS} (hd : s'.disk = s.disk) (hsb : s'.sb = s.sb)
    (hc : s'.icache = s.icache) : view s' = view s := by
  funext i
  simp only [view, cur, hd, hsb, hc]

theorem Eff.seq {V W : Finset ℕ} {m n : ℕ} {s s' s'' : FS} (h : Eff V m s s') (h' : Eff W n s' s'')
    (hW : W ⊆ V) : Eff V (m + n) s s'' :=
  (h.trans h').mono (union_subset le_rfl hW) le_rfl

theorem Eff.quiet {V : Finset ℕ} {m : ℕ} {s s' s'' : FS} (h : Eff V m s s') (hq : Quiet s' s'') :
    Eff V m s s'' :=
  h.seq hq.eff (empty_subset V)

/-- One transaction, that logs blocks of `V` and at most `n` others. -/
def Op (V : Finset ℕ) (n : ℕ) (s s' : FS) : Prop :=
  ∃ s1, Eff V n s.begun s1 ∧ s'.log = s1.ended.log

/-! ## Running a call -/

/-- The files the references refer to. -/
def Held (L : Multiset (Iptr × ℕ)) : Set ℕ :=
  { i | ∃ k, (k, i) ∈ L }

theorem held_cons_subset (L : Multiset (Iptr × ℕ)) (q : Iptr × ℕ) : Held L ⊆ Held (q ::ₘ L) := by
  rintro i ⟨k, hk⟩
  exact ⟨k, Multiset.mem_cons_of_mem hk⟩

/-- A state in which process `p` can make a call : `L` are the references, its current directory
is one of them, and no inode is locked. -/
structure Ready (p : Fin NPROC) (L : Multiset (Iptr × ℕ)) (s : FS) : Prop where
  inv : Inv L L ∅ s
  dots : Dots (ninum s.sb) (view s)
  root : ROOTINO < ninum s.sb
  cwd : ∀ k, (s.procs p).cwd = some k → ∃ i, (k, i) ∈ L

/-- What one transaction of a call does. -/
structure Ran (L : Multiset (Iptr × ℕ)) (n : ℕ) (s s' : FS) : Prop where
  inv : Inv L L ∅ s'
  changes : Changes (ninum s.sb) (Held L) (view s) (view s')
  env : s'.env = { s.env with committed := s'.log.committed }
  op : ∃ W : Finset ℕ, W.card ≤ 2 ∧ Op (W ∪ bitmapBlocks s.sb) n s s'

section

variable {p : Fin NPROC} {L : Multiset (Iptr × ℕ)} {B : Finset Iptr}
  {s s1 : FS} {k : Iptr} {i n : ℕ}

theorem Ready.begun (h : Ready p L s) : Ready p L s.begun :=
  ⟨h.inv.congr rfl rfl rfl, h.dots, h.root, h.cwd⟩

theorem Ready.ninum_le (h : Ready p L s) : ninum s.sb ≤ 2 ^ 16 :=
  h.inv.store.geometry.ninum_le

theorem InvX.released_frees {R : Multiset (Iptr × ℕ)} {X : Finset ℕ}
    (h : InvX X R ((k, i) ::ₘ L) B s)
    (V : ℕ → Node) : Frees (Held L) V (released V L k i) := by
  unfold released
  split_ifs with hc
  · refine .single ⟨i, ?_, hc.2, rfl⟩
    rintro ⟨l, hl⟩
    obtain rfl := h.slot_unique (Multiset.mem_cons_of_mem hl) (Multiset.mem_cons_self _ _)
    exact hc.1 hl
  · exact .refl

/-- The files and the bitmap are as they were. -/
structure Untouched (s s' : FS) : Prop where
  files : view s' = view s
  bitmap : ∀ b ∈ bitmapBlocks s.sb, s'.disk b = s.disk b

theorem Quiet.untouched (hq : Quiet s s1) : Untouched s s1 :=
  ⟨hq.view_eq, fun b _ => congrFun hq.disk b⟩

theorem Untouched.trans {s' : FS} (h : Untouched s s1) (h' : Untouched s1 s')
    (hsb : s1.sb = s.sb) : Untouched s s' :=
  ⟨h'.files.trans h.files, fun b hb => (h'.bitmap b (hsb ▸ hb)).trans (h.bitmap b hb)⟩

theorem InvX.anchor {R : Multiset (Iptr × ℕ)} (h : Inv R L B s) {R' : Multiset (Iptr × ℕ)}
    (hR : R' ≤ L) (hanch : ∀ j, (view s j).type ≠ 0 → (view s j).nlink = 0 → j ∈ Held R') :
    Inv R' L B s where
  store := h.store
  le := hR
  ref := h.ref
  inum := h.inum
  busy := h.busy
  locked := h.locked
  anchored j hj htype hnlink := by
    obtain ⟨l, hl, hload⟩ := h.anchored j hj htype hnlink
    obtain ⟨l', hl'⟩ := hanch j htype hnlink
    obtain rfl := h.slot_unique (Multiset.mem_of_le h.le hl) (Multiset.mem_of_le hR hl')
    exact ⟨l, hl', hload⟩

theorem wp_endOp {α : Type} (a : α) {W : Finset ℕ} (h : Inv L L ∅ s1)
    (hch : Changes (ninum s.sb) (Held L) (view s) (view s1)) (hW : W.card ≤ 2)
    (heff : Eff (W ∪ bitmapBlocks s.sb) n s.begun s1) :
    wp (do
        endOp
        return a) (fun r s' => r = a ∧ Ran L n s s' ∧ Untouched s1 s') (fun _ _ => True) s1 := by
  refine wp_seq_partial (endOp_spec s1) ?_
  rintro _ _ rfl
  have hview : view s1.ended = view s1 := rfl
  have henv := heff.env
  have hout : s1.log.outstanding = s.log.outstanding + 1 := congrArg Env.outstanding henv
  refine ⟨rfl, ⟨h.congr rfl rfl rfl, hview ▸ hch, ?_, W, hW, s1, heff, rfl⟩, hview,
    fun _ _ => rfl⟩
  have h1 : s1.sb = s.sb := congrArg Env.sb henv
  have h2 : s1.log.size = s.log.size := congrArg Env.size henv
  have h3 : s1.ftable = s.ftable := congrArg Env.ftable henv
  have h4 : s1.procs = s.procs := congrArg Env.procs henv
  have h5 : s1.devices = s.devices := congrArg Env.devices henv
  have h6 : s1.stack = s.stack := congrArg Env.stack henv
  have h7 : s1.ended.log.size = s.log.size := by
    unfold FS.ended
    split_ifs <;> exact h2
  have h8 : s1.ended.log.outstanding = s.log.outstanding := by
    unfold FS.ended
    split_ifs with hone
    · exact by simp only; omega
    · exact by simp only; omega
  show Env.mk s1.sb _ _ _ s1.ftable s1.procs s1.devices s1.stack =
    Env.mk s.sb s.log.size s.log.outstanding _ s.ftable s.procs s.devices s.stack
  rw [h1, h3, h4, h5, h6, h7, h8]

theorem wp_endOp_quiet {α : Type} (a : α) (h : Inv L L ∅ s1) (hq : Quiet s.begun s1) :
    wp (do
        endOp
        return a) (fun r s' => r = a ∧ Ran L n s s' ∧ Untouched s s') (fun _ _ => True) s1 := by
  have hview : view s1 = view s := hq.view_eq
  have hcard : (∅ : Finset ℕ).card ≤ 2 := Nat.zero_le 2
  refine wp_mono (wp_endOp a h (hview ▸ .refl) hcard
    (hq.eff.mono (empty_subset _) (Nat.zero_le n))) ?_
  rintro r s' ⟨rfl, hran, hun⟩
  have hun' := hq.untouched.trans hun (congrArg Env.sb hq.env)
  exact ⟨rfl, hran, hun'.files, hun'.bitmap⟩

theorem wp_endOp_untouched (b : Bool) (h : Inv L L ∅ s1) (hq : Quiet s.begun s1) :
    wp (do
        endOp
        return b) (fun r s' => Ran L n s s' ∧ (r = false → Untouched s s'))
      (fun _ _ => True) s1 := by
  refine wp_mono (wp_endOp_quiet (n := n) b h hq) ?_
  rintro r s' ⟨-, hran, hun⟩
  exact ⟨hran, fun _ => hun⟩

theorem wp_endOp_true {W : Finset ℕ} (h : Inv L L ∅ s1)
    (hch : Changes (ninum s.sb) (Held L) (view s) (view s1)) (hW : W.card ≤ 2)
    (heff : Eff (W ∪ bitmapBlocks s.sb) n s.begun s1) :
    wp (do
        endOp
        return true) (fun r s' => Ran L n s s' ∧ (r = false → Untouched s s'))
      (fun _ _ => True) s1 := by
  refine wp_mono (wp_endOp true h hch hW heff) ?_
  rintro r s' ⟨rfl, hran, -⟩
  exact ⟨hran, fun hr => absurd hr.symm Bool.false_ne_true⟩

theorem InvX.inum_ne {X : Finset ℕ} {R : Multiset (Iptr × ℕ)} {l : Iptr} {j : ℕ}
    (h : InvX X R L B s) (hk : (k, i) ∈ L) (hl : (l, j) ∈ L) (hne : k ≠ l) : i ≠ j := by
  rintro rfl
  exact hne (h.slot_unique hk hl)

theorem Ready.wfDirs (h : Ready p L s) (hq : Quiet s s1) : WfDirs (ninum s1.sb) (view s1) := by
  rw [show s1.sb = s.sb from congrArg Env.sb hq.env, hq.view_eq]
  exact h.dots.wfDirs

/-- `namei` returns a reference to the file of a path. -/
theorem namei_spec (h : Ready p L s) (path : List UInt8) :
    wp (namei p path) (fun r s' => Quiet s s' ∧
        (r = none ∧ walk (view s) (startInode s p path) (elems path) = none ∧ Inv L L ∅ s' ∨
          ∃ k i, r = some k ∧ walk (view s) (startInode s p path) (elems path) = some i ∧
            Inv L ((k, i) ::ₘ L) ∅ s'))
      (fun x _ => Stuck L s p path x) s := by
  unfold namei
  refine wp_seq (namex_spec h.inv h.dots.wfDirs h.root h.cwd path false) ?_
  intro r s1 hw
  rw [target_false] at hw
  obtain ⟨rfl, hnone, h1⟩ | ⟨k, i, rfl, hsome, h1⟩ := hw.cases
  · exact ⟨hw.1, .inl ⟨rfl, hnone, h1⟩⟩
  · exact ⟨hw.1, .inr ⟨k, i, rfl, hsome, h1⟩⟩

theorem nameiparent_spec (h : Ready p L s) (path : List UInt8) :
    wp (nameiparent p path) (fun r s' => Quiet s s' ∧
        (r = none ∧ target (view s) true (startInode s p path) (elems path) = none ∧
            Inv L L ∅ s' ∨
          ∃ k i, r = some (k, lastElem (elems path) s.stack) ∧
            target (view s) true (startInode s p path) (elems path) = some i ∧
            Inv L ((k, i) ::ₘ L) ∅ s' ∧ (view s i).type = T_DIR))
      (fun x _ => Stuck L s p path x) s := by
  refine wp_mono (namex_spec h.inv h.dots.wfDirs h.root h.cwd path true) ?_
  intro r s1 hw
  obtain ⟨rfl, hnone, h1⟩ | ⟨k, i, rfl, hsome, h1⟩ := hw.cases
  · exact ⟨hw.1, .inl ⟨rfl, hnone, h1⟩⟩
  · exact ⟨hw.1, .inr ⟨k, i, rfl, hsome, h1, target_true_type _ _ _ _ hsome⟩⟩

theorem InvX.addLinks {X : Finset ℕ} {R : Multiset (Iptr × ℕ)} {m δ : Int16} (h : InvX X R L B s)
    (hk : (k, i) ∈ R) (hB : k ∈ B) (hm : m = (s.icache k).din.nlink + δ) :
    wp (iupdate k) (fun _ s' => InvX X R L B s' ∧
        view s' = update (view s) i ((view s i).addLinks δ) ∧
        Eff {IBLOCK i s.sb} 0 s s' ∧ ∀ b ∈ bitmapBlocks s.sb, s'.disk b = s.disk b)
      (fun _ _ => True) (s.setDin k { (s.icache k).din with nlink := m }) := by
  have hk' := Multiset.mem_of_le h.le hk
  have hl := h.loaded hk' hB
  refine wp_mono (h.relink hk' hB rfl fun _ => .inr hk) ?_
  rintro _ s' ⟨h', hview, heff, hdisk⟩
  refine ⟨h', hview.trans ?_, heff, fun b hb => hdisk b ?_⟩
  · rw [Node.addLinks, Node.relink, hm, ← h.store.major_eq hl, ← h.store.minor_eq hl,
      ← h.store.nlink_eq hl]
  · have hlow := (mem_Ico.1 hb).1
    have hhigh := (h.store.geometry.inode_block (h.store.lt hl)).2
    omega

end

/-! ## `sys_link` -/

section

variable {p : Fin NPROC} {L : Multiset (Iptr × ℕ)} {s s1 : FS} {k : Iptr} {i : ℕ}

/-- The inode blocks of two inodes, and the bitmap. -/
def metaBlocks (sb : Superblock) (i d : ℕ) : Finset ℕ :=
  {IBLOCK i sb, IBLOCK d sb} ∪ bitmapBlocks sb

theorem inode_mem_metaBlocks (sb : Superblock) (i d : ℕ) : IBLOCK i sb ∈ metaBlocks sb i d :=
  mem_union_left _ (mem_insert_self _ _)

theorem inode_mem_metaBlocks' (sb : Superblock) (i d : ℕ) : IBLOCK d sb ∈ metaBlocks sb i d :=
  mem_union_left _ (mem_insert_of_mem (mem_singleton_self _))

theorem bitmap_subset_metaBlocks (sb : Superblock) (i d : ℕ) :
    bitmapBlocks sb ⊆ metaBlocks sb i d :=
  subset_union_right

theorem Eff.inode {m n : ℕ} {s2 : FS} (h : Eff {IBLOCK m s1.sb} n s1 s2) :
    Eff (insert (IBLOCK m s1.sb) (bitmapBlocks s1.sb)) n s1 s2 :=
  h.mono (singleton_subset_iff.2 (mem_insert_self _ _)) le_rfl

theorem Eff.file {sb : Superblock} {d m n : ℕ} {s2 : FS} (h : Eff (metaBlocks sb i d) m s s1)
    (hsb : s.sb = sb) (h' : Eff (insert (IBLOCK i s1.sb) (bitmapBlocks s1.sb)) n s1 s2) :
    Eff (metaBlocks sb i d) (m + n) s s2 := by
  rw [show s1.sb = sb from (congrArg Env.sb h.env).trans hsb] at h'
  exact h.seq h' (insert_subset (inode_mem_metaBlocks _ _ _)
    (bitmap_subset_metaBlocks _ _ _))

theorem Eff.dir {sb : Superblock} {d m n : ℕ} {s2 : FS} (h : Eff (metaBlocks sb i d) m s s1)
    (hsb : s.sb = sb) (h' : Eff (insert (IBLOCK d s1.sb) (bitmapBlocks s1.sb)) n s1 s2) :
    Eff (metaBlocks sb i d) (m + n) s s2 := by
  rw [show s1.sb = sb from (congrArg Env.sb h.env).trans hsb] at h'
  exact h.seq h' (insert_subset (inode_mem_metaBlocks' _ _ _)
    (bitmap_subset_metaBlocks _ _ _))

/-- The way out of `sys_link` that takes the link back. -/
theorem sysLinkBad_spec {d n : ℕ} (hs : Inv L L ∅ s)
    (h : Inv ((k, i) ::ₘ L) ((k, i) ::ₘ L) ∅ s1)
    (hV : view s1 = update (view s) i ((view s i).addLinks 1))
    (hbits : ∀ b ∈ bitmapBlocks s.sb, s1.disk b = s.disk b)
    (heff : Eff (metaBlocks s.sb i d) n s.begun s1) :
    wp (sysLinkBad k) (fun r s' => Ran L n s s' ∧ (r = false → Untouched s s'))
      (fun _ _ => True) s1 := by
  have hk : (k, i) ∈ (k, i) ::ₘ L := Multiset.mem_cons_self _ _
  unfold sysLinkBad
  refine wp_seq_partial (ilock_spec h hk) ?_
  rintro _ s2 ⟨-, -, h2, hq2⟩
  have hkB : k ∈ insert k (∅ : Finset Iptr) := mem_insert_self _ _
  have heff2 := heff.quiet hq2
  have hsb2 : s2.sb = s.sb := congrArg Env.sb heff2.env
  rw [wp_bind, wp_modifyDin]
  refine wp_seq (h2.addLinks hk hkB (Int16.sub_eq_add_neg _ _)) ?_
  rintro _ s3 ⟨h3, hview3, heff3, hbits3⟩
  -- one link more and one less
  have hV3 : view s3 = view s := by
    rw [hview3, hq2.view_eq, hV, update_self, update_idem]
    refine update_eq_iff.2 ⟨?_, fun _ _ => rfl⟩
    rw [Node.addLinks, Node.addLinks, Int16.add_assoc, Int16.add_right_neg, Int16.add_zero]
  rw [hsb2] at hbits3
  have heff3 := heff2.file rfl heff3.inode
  -- so the reference is not the last to an inode without links
  have h3' : Inv L ((k, i) ::ₘ L) (insert k ∅) s3 :=
    h3.anchor (Multiset.le_cons_self _ _) fun j htype hnlink => by
      rw [hV3] at htype hnlink
      obtain ⟨l, hl, -⟩ := hs.anchored j (notMem_empty j) htype hnlink
      exact ⟨l, hl⟩
  refine wp_seq_total (iunlockput_only h3' le_rfl) ?_
  rintro _ s4 ⟨h4, hq4⟩
  have hun : Untouched s s4 := by
    refine ⟨hq4.view_eq.trans hV3, fun b hb => ?_⟩
    rw [hq4.disk, hbits3 b hb, hq2.disk, hbits b hb]
  have heff4 := heff3.quiet hq4
  refine wp_mono (wp_endOp false h4 (hun.files ▸ .refl) card_le_two heff4) ?_
  rintro r s' ⟨-, hran, hun'⟩
  exact ⟨hran, fun _ => hun.trans hun' (congrArg Env.sb heff4.env)⟩

/-- `sys_link` from the point where the directory of the new name is found. -/
theorem sysLink_dirlink {dp : Iptr} {d : ℕ} (name : ℕ → UInt8) (hs : Ready p L s)
    (h : Inv ((k, i) ::ₘ L) ((dp, d) ::ₘ (k, i) ::ₘ L) ∅ s1)
    (hV : view s1 = update (view s) i ((view s i).addLinks 1))
    (hbits : ∀ b ∈ bitmapBlocks s.sb, s1.disk b = s.disk b) (hi : (view s i).type ≠ 0)
    (hdir : (view s i).type ≠ T_DIR) (heff : Eff (metaBlocks s.sb i d) 0 s.begun s1) :
    wp (do
        ilock dp
        let s ← get
        let linked ←
          if (s.icache dp).dev ≠ (s.icache k).dev then
            pure false
          else
            dirlink dp name (s.icache k).inum
        iunlockput dp
        if linked then
          iput k
          endOp
          return true
        else
          sysLinkBad k)
      (fun r s' => Ran L 2 s s' ∧ (r = false → Untouched s s')) (fun _ _ => True) s1 := by
  have hdk : (dp, d) ∈ (dp, d) ::ₘ (k, i) ::ₘ L := Multiset.mem_cons_self _ _
  have hk : (k, i) ∈ (dp, d) ::ₘ (k, i) ::ₘ L :=
    Multiset.mem_cons_of_mem (Multiset.mem_cons_self _ _)
  refine wp_seq_partial (ilock_spec h hdk) ?_
  rintro _ s2 ⟨-, -, h2, hq2⟩
  have hdB : dp ∈ insert dp (∅ : Finset Iptr) := mem_insert_self _ _
  have heff2 := heff.quiet hq2
  have hsb2 : s2.sb = s.sb := congrArg Env.sb heff2.env
  have hV2 := hq2.view_eq.trans hV
  obtain ⟨hpos, hlt⟩ := h2.bounds hk
  rw [wp_bind, wp_get, h2.store.distinct.dev dp (h2.ref_pos hdk),
    h2.store.distinct.dev k (h2.ref_pos hk), if_neg (not_not.2 rfl),
    show (s2.icache k).inum = i from h2.inum _ hk]
  have hwf : WfDirs (ninum s2.sb) (view s2) := by
    rw [hsb2, hV2]
    refine hs.dots.wfDirs.update fun hty => absurd ?_ hdir
    rwa [Node.addLinks_type] at hty
  refine wp_seq (dirlink_inv h2 hdk hdB hwf name i) ?_
  rintro linked s3 ⟨hd, h3, heff3, hput⟩
  rw [hsb2] at hlt
  have heff3 := heff2.dir rfl heff3
  refine wp_seq_total (iunlockput_only h3 le_rfl) ?_
  rintro _ s4 ⟨h4, hq4⟩
  have heff4 := heff3.quiet hq4
  have hne : d ≠ i := by
    rintro rfl
    rw [hV2, update_self, Node.addLinks_type] at hd
    exact hdir hd
  rw [hV2, update_of_ne hne] at hput hd
  by_cases hfind : (view s d).find (nameOf name) = none
  · rw [if_pos hfind] at hput
    obtain ⟨rfl, hput, hV3⟩ := hput
    rw [if_pos rfl]
    refine wp_seq (iput_drop h4 (notMem_empty k)) ?_
    rintro _ s5 ⟨h5, hV5, heff5⟩
    have hch : Changes (ninum s.sb) (Held L) (view s) (view s5) := by
      rw [hV5]
      refine Changes.frees (.single ?_) (h4.released_frees _)
      rw [hq4.view_eq, hV3]
      exact .link hd hi hdir hpos hlt hfind hput
    exact wp_endOp_true h5 hch card_le_two (heff4.file rfl heff5)
  · rw [if_neg hfind] at hput
    obtain ⟨rfl, hq3⟩ := hput
    rw [if_neg Bool.false_ne_true]
    have hq := (hq2.trans hq3).trans hq4
    refine sysLinkBad_spec hs.inv h4 (hq.view_eq.trans hV) (fun b hb => ?_) heff4
    rw [hq.disk, hbits b hb]

/-- `sys_link` adds a name, or changes no file. -/
theorem sysLink_spec (h : Ready p L s) (old new : List UInt8) :
    wp (sysLink p old new) (fun r s' => Ran L 2 s s' ∧ (r = false → Untouched s s'))
      (fun _ _ => True) s := by
  unfold sysLink
  refine wp_seq_partial (beginOp_spec s) ?_
  rintro _ _ rfl
  refine wp_seq_partial (namei_spec h.begun old) ?_
  rintro r s1 ⟨hq1, ⟨rfl, -, h1⟩ | ⟨ip, i, rfl, -, h1⟩⟩
  · exact wp_endOp_untouched false h1 hq1
  dsimp only
  have hk : (ip, i) ∈ (ip, i) ::ₘ L := Multiset.mem_cons_self _ _
  refine wp_seq_partial (ilock_spec h1 hk) ?_
  rintro _ s2 ⟨-, hi, h2, hq2⟩
  have hkB : ip ∈ insert ip (∅ : Finset Iptr) := mem_insert_self _ _
  replace hi : (view s i).type ≠ 0 := by rwa [hq1.view_eq] at hi
  replace hq2 := hq1.trans hq2
  have hV2 : view s2 = view s := hq2.view_eq
  have hty2 := h2.store.type_eq (h2.loaded hk hkB)
  rw [hV2] at hty2
  rw [wp_bind, wp_get, ← hty2]
  by_cases hdir : (view s i).type = T_DIR
  · rw [if_pos hdir]
    refine wp_seq_total (iunlockput_only h2 le_rfl) ?_
    rintro _ s3 ⟨h3, hq3⟩
    exact wp_endOp_untouched false h3 (hq2.trans hq3)
  rw [if_neg hdir]
  have hsb2 : s2.sb = s.sb := congrArg Env.sb hq2.env
  rw [wp_bind, wp_modifyDin]
  refine wp_seq ((h2.mono (Multiset.le_cons_self _ _) le_rfl).addLinks hk hkB rfl) ?_
  rintro _ s3 ⟨h3, hV3, heff3, hbits3⟩
  refine wp_seq_total (iunlock_spec h3 hkB) ?_
  rintro _ s4 ⟨h4, hq4⟩
  rw [erase_insert (notMem_empty ip)] at h4
  rw [hsb2] at hbits3
  have hbits4 : ∀ b ∈ bitmapBlocks s.sb, s4.disk b = s.disk b := fun b hb => by
    rw [hq4.disk, hbits3 b hb, hq2.disk]
    rfl
  have hV4 : view s4 = update (view s) i ((view s i).addLinks 1) := by
    rw [hq4.view_eq, hV3, hV2]
  have heff4 : ∀ d, Eff (metaBlocks s.sb i d) 0 s.begun s4 := fun d =>
    ((hq2.eff.mono (empty_subset _) le_rfl).file rfl heff3.inode).quiet hq4
  have hsb4 : s4.sb = s.sb := congrArg Env.sb (heff4 0).env
  have hready : Ready p ((ip, i) ::ₘ L) s4 := by
    refine ⟨h4, ?_, hsb4 ▸ h.root, fun c hc => ?_⟩
    · rw [hsb4, hV4]
      refine h.dots.update fun hty => absurd ?_ hdir
      rwa [Node.addLinks_type] at hty
    · rw [show s4.procs = s.procs from congrArg Env.procs (heff4 0).env] at hc
      obtain ⟨j, hj⟩ := h.cwd c hc
      exact ⟨j, Multiset.mem_cons_of_mem hj⟩
  refine wp_seq_partial (nameiparent_spec hready new) ?_
  intro r s5 hr
  have hbits5 : ∀ b ∈ bitmapBlocks s.sb, s5.disk b = s.disk b := fun b hb => by
    rw [hr.1.disk, hbits4 b hb]
  obtain ⟨hq5, ⟨rfl, -, h5⟩ | ⟨dp, d, rfl, -, h5, -⟩⟩ := hr
  · exact sysLinkBad_spec h.inv h5 (hq5.view_eq.trans hV4) hbits5
      (((heff4 0).quiet hq5).mono le_rfl (Nat.zero_le 2))
  · exact sysLink_dirlink _ h h5 (hq5.view_eq.trans hV4) hbits5 hi hdir ((heff4 d).quiet hq5)

end

end Xv6
