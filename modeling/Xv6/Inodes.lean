import Xv6.Dir

/-!
# Making and changing inodes

What the calls of `sysfile.c` do to the inodes they hold, under the invariant of a call :
`ialloc` makes an inode without links, `iupdate` stores new links and device numbers, and
`dirlookup`, `dirlink` and `isdirempty` work on a locked directory. Each changes the files by
one update of the view.

A directory is well formed when it is made of whole entries that name inodes of the disk
(`WfDir`); then `dirlookup` can refer to any inode it finds.
-/

open Function Prog Layout SlotMap

namespace Xv6

/-! ## Allocating an inode -/

/-- A file `ialloc` makes. -/
def Node.made (type : Int16) : Node := ⟨type, 0, 0, 0, 0, fun _ => none⟩

section

variable {X : Finset ℕ} {R L : Multiset (Iptr × ℕ)} {B : Finset Iptr} {s s' : FS} {k : Iptr}
  {i : ℕ} {type : Int16}

theorem addr_zero (type : Int16) (j : ℕ) :
    ({ Dinode.zero with type := type } : Dinode).addr j = 0 := by
  unfold Dinode.addr
  split_ifs <;> rfl

theorem slotAddr_zero (disk : ℕ → Block) (type : Int16) (j : ℕ) :
    slotAddr disk { Dinode.zero with type := type } j = 0 := by
  unfold slotAddr
  rw [addr_zero, addr_zero, if_pos rfl, ite_self]

/-- A free inode is allocated on the disk. -/
theorem Store.alloc (h : Store none s) (hi : i < ninum s.sb) (hfree : (view s i).type = 0)
    (htype : type ≠ 0) :
    Store none (s.write (IBLOCK i s.sb)
      (putDinode s.disk s.sb i { Dinode.zero with type := type })) ∧
      view (s.write (IBLOCK i s.sb) (putDinode s.disk s.sb i { Dinode.zero with type := type })) =
        update (view s) i (Node.made type) := by
  set d : Dinode := { Dinode.zero with type := type } with hd
  set s' := s.write (IBLOCK i s.sb) (putDinode s.disk s.sb i d) with hs'
  rw [view_type] at hfree
  -- a loaded inode is not free
  have hnot : ∀ k, ¬ Loaded s k i := fun k hk => h.cur_type hk hfree
  have hput : ∀ j, dinode s'.disk s'.sb j = if j = i then d else dinode s.disk s.sb j :=
    fun j => dinode_put s.disk s.sb i j d
  have hcur : cur s' = update (cur s) i d := by
    funext j
    by_cases hji : j = i
    · subst hji
      rw [update_self, cur_of_not_loaded (s := s') hi hnot, hput, if_pos rfl]
    · rw [update_of_ne hji]
      rcases Nat.lt_or_ge j (ninum s.sb) with hj | hj
      · by_cases hl : ∃ l, Loaded s l j
        · obtain ⟨l, hl⟩ := hl
          rw [cur_of_loaded (s := s') h.distinct hl, h.cur_eq hl]
          rfl
        · have hl' := not_exists.1 hl
          rw [cur_of_not_loaded (s := s') hj hl', hput, if_neg hji, cur_of_not_loaded hj hl']
      · rw [cur_of_le hj, cur_of_le (s := s') hj]
  have hblk := h.geometry.inode_block hi
  have hdata : ∀ c, InData s.sb c → s'.disk c = s.disk c := fun c hc =>
    update_of_ne (h.geometry.data_ne_inode hc hi) _ _
  refine ⟨⟨h.geometry, ?_, h.distinct, h.typed, fun l j hl _ => ?_, ?_⟩,
    view_eq_update (fun l hl => ?_) ?_⟩
  · exact (readsb_congr (update_of_ne (by omega) _ _)).trans h.super
  · have hji : j ≠ i := by
      rintro rfl
      exact hnot l hl
    exact (h.clean l j hl (by simp)).trans ((hput j).trans (if_neg hji)).symm
  · rw [hcur]
    refine (h.owned.set_empty (.inl hfree) (fun j _ => slotAddr_zero _ _ j) rfl).disk_congr hdata
      fun c hc => used_congr (update_of_ne ?_ _ _)
    exact h.geometry.bitmap_ne_inode hc hi
  · refine view_frame (by rw [hcur, update_of_ne hl]) fun c m hown => ?_
    exact hdata c (h.owned.exact.used_of_own _ _ hown).1
  · rw [view, hcur, update_self, node, if_neg htype, Node.made, hd]
    refine Node.ext rfl rfl rfl rfl rfl (funext fun n => ?_)
    simp only [fileAddr, slotAddr_zero, ne_eq, not_true_eq_false, and_false, if_false]

/-- `ialloc` makes an inode without links and adds a reference to it. -/
theorem ialloc_spec (h : InvX X R L B s) (htype : type ≠ 0) :
    wp (ialloc ROOTDEV type) (fun k s' => ∃ i, (view s i).type = 0 ∧
        InvX (insert i X) R ((k, i) ::ₘ L) B s' ∧
        view s' = update (view s) i (Node.made type) ∧ Eff {IBLOCK i s.sb} 0 s s')
      (fun _ _ => True) s := by
  unfold ialloc
  rw [wp_bind, wp_get]
  cases hf : (List.range s.sb.ninodes.toNat).find? fun inum =>
      decide (1 ≤ inum) && (dinode s.disk s.sb inum).type == 0 with
  | none => trivial
  | some i =>
    have hi : i < ninum s.sb :=
      (List.mem_range.1 (List.mem_of_find?_eq_some hf)).trans_le h.store.geometry.ninodes_le
    have htest := List.find?_some hf
    simp only [Bool.and_eq_true, decide_eq_true_eq, beq_iff_eq] at htest
    have hfree : (view s i).type = 0 := by
      rw [view_type, ← h.store.dinode_eq hi]
      exact htest.2
    obtain ⟨hst, hview⟩ := h.store.alloc hi hfree htype
    dsimp only
    refine wp_seq_partial (logWrite_spec s _ _) ?_
    rintro _ s1 ⟨rfl, -⟩
    have hstep := Step.write s (IBLOCK i s.sb)
      (putDinode s.disk s.sb i { Dinode.zero with type := type })
    have h1 : InvX (insert i X) R L B (s.write (IBLOCK i s.sb)
        (putDinode s.disk s.sb i { Dinode.zero with type := type })) :=
      InvX.step { h with
        anchored := fun j hj => h.anchored j fun hX => hj (Finset.mem_insert_of_mem hX) }
        hst hstep.same fun j hj hty hn => by
          have hji : j ≠ i := fun e => hj (e ▸ Finset.mem_insert_self _ _)
          rw [hview, update_of_ne hji] at hty hn
          exact .inl ⟨hty, hn⟩
    refine wp_mono' (iget_spec h1 htest.1 hi) ?_ fun _ _ _ => trivial
    rintro k s2 ⟨h2, hq⟩
    refine ⟨i, hfree, h2, hq.view_eq.trans hview, ?_⟩
    exact (hstep.toEff.trans hq.eff).mono (by simp) le_rfl

end

/-! ## Links and device numbers -/

/-- The file with other links and device numbers. -/
def Node.relink (nd : Node) (major minor nlink : Int16) : Node :=
  { nd with major := major, minor := minor, nlink := nlink }

section

variable {X : Finset ℕ} {R L : Multiset (Iptr × ℕ)} {B : Finset Iptr} {s s' : FS} {k : Iptr}
  {i : ℕ} {d : Dinode}

/-- `iupdate` after a change of the links or the device numbers of a locked inode. -/
theorem InvX.relink (h : InvX X R L B s) (hk : (k, i) ∈ L) (hB : k ∈ B)
    (hd : d = { (s.icache k).din with major := d.major, minor := d.minor, nlink := d.nlink })
    (hanch : d.nlink = 0 → i ∈ X ∨ (k, i) ∈ R) :
    wp (iupdate k) (fun _ s' => InvX X R L B s' ∧
        view s' = update (view s) i ((view s i).relink d.major d.minor d.nlink) ∧
        Eff {IBLOCK i s.sb} 0 s s' ∧ ∀ b, b ≠ IBLOCK i s.sb → s'.disk b = s.disk b)
      (fun _ _ => True) (s.setDin k d) := by
  have hl := h.loaded hk hB
  have htype : d.type = (s.icache k).din.type := by rw [hd]
  have haddrs : d.addrs = (s.icache k).din.addrs := by rw [hd]
  have hsize : d.size = (s.icache k).din.size := by rw [hd]
  have hcur := h.store.cur_eq hl
  obtain ⟨hst, hview⟩ := h.store.setDin_view (.inl rfl) hl htype haddrs fun hdev => by
    refine Owned.full_congr (h.store.owned.full i (h.store.lt hl) (h.store.cur_type hl) ?_) ?_ ?_
    · rw [hcur, ← htype]
      exact hdev
    · rw [hcur, hsize]
    · intro n _
      refine slotAddr_congr (fun j _ => ?_) (fun _ => rfl) _
      simp only [Dinode.addr, haddrs, hcur]
  have hl' : Loaded (s.setDin k d) k i := (SameSlots.setDin s k d).loaded.2 hl
  have hnode : (⟨d.type, d.major, d.minor, d.nlink, d.size.toNat, (view s i).blocks⟩ : Node) =
      (view s i).relink d.major d.minor d.nlink := by
    rw [Node.relink, htype, hsize, ← h.store.type_eq hl, ← h.store.size_eq hl]
  rw [hnode] at hview
  refine wp_mono (wp_and (wp_mono' (iupdate_spec hst hl') (fun _ _ => id) fun _ _ _ => trivial)
    (iupdate_disk (s.setDin k d) k)) ?_
  rintro _ s' ⟨hf, hdisk⟩
  rw [hl'.2.2] at hdisk
  have hview' := hf.view_eq.trans hview
  have hsame := (SameSlots.setDin s k d).trans hf.step.same
  refine ⟨h.step hf.store hsame fun j hj hty hn => ?_, hview', ?_, hdisk⟩
  · by_cases hji : j = i
    · subst hji
      rw [hview', update_self] at hn
      obtain hX | hR := hanch hn
      · exact absurd hX hj
      · exact .inr ⟨k, hR, hl⟩
    · rw [hview', update_of_ne hji] at hty hn
      exact .inl ⟨hty, hn⟩
  · exact ⟨hf.step.env, hf.step.loads⟩

theorem InvX.linked (h : InvX X R L B s) (hn : (view s i).nlink ≠ 0) : InvX (X.erase i) R L B s :=
  { h with
    anchored := fun j hj hty hn' => by
      refine h.anchored j (fun hX => ?_) hty hn'
      have hji : j ≠ i := by
        rintro rfl
        exact hn hn'
      exact hj (Finset.mem_erase.2 ⟨hji, hX⟩) }

end

/-! ## Directories -/

/-- Whole entries, which name inodes below `n`. -/
structure WfDir (n : ℕ) (nd : Node) : Prop where
  size : DIRENT ∣ nd.size
  lt : ∀ e < nd.nent, ∀ name j, nd.slot e = some (name, j) → j < n

/-- The directories are well formed. -/
def WfDirs (n : ℕ) (V : ℕ → Node) : Prop :=
  ∀ i, (V i).type = T_DIR → WfDir n (V i)

section

variable {X : Finset ℕ} {R L : Multiset (Iptr × ℕ)} {B : Finset Iptr} {s s' : FS} {k : Iptr} {i : ℕ}

theorem InvX.entered {e : ℕ} {de : Dirent} (h : InvX X R L B s) (hent : Entered s k i e de s') :
    InvX X R L B s' ∧ view s' = update (view s) i (view s' i) := by
  refine ⟨h.step hent.store hent.same fun j _ hty hn => .inl ?_, view_eq_update hent.other rfl⟩
  by_cases hji : j = i
  · subst hji
    rw [hent.put.type] at hty
    rw [hent.put.nlink] at hn
    exact ⟨hty, hn⟩
  · rw [hent.other j hji] at hty hn
    exact ⟨hty, hn⟩

variable (h : InvX X R L B s) (hk : (k, i) ∈ L) (hB : k ∈ B) (hwf : WfDirs (ninum s.sb) (view s))
include h hk hB hwf

/-- `dirlookup` of a locked directory. -/
theorem dirlookup_inv (name : ℕ → UInt8) :
    wp (dirlookup k name) (fun r s' => (view s i).type = T_DIR ∧
        match (view s i).find (nameOf name) with
        | none => r = none ∧ s' = s
        | some e => ∃ ip j, (view s i).slot e = some (nameOf name, j) ∧ r = some (ip, e * DIRENT) ∧
            InvX X R ((ip, j) ::ₘ L) B s' ∧ Quiet s s')
      (fun x _ => (view s i).type = T_DIR →
        x = .panic "iget: no inodes" ∧ ∀ l, (s.icache l).ref ≠ 0) s := by
  have hl := h.loaded hk hB
  by_cases htype : (view s i).type = T_DIR
  · have hd := hwf i htype
    refine wp_mono' (dirlookup_spec h.store hl htype hd.size name) (fun r s' hr => ⟨htype, ?_⟩)
      fun x _ hx _ => ?_
    · cases hf : (view s i).find (nameOf name) with
      | none =>
        rw [hf] at hr
        exact hr
      | some e =>
        rw [hf] at hr
        obtain ⟨ip, rfl, hg⟩ := hr
        obtain ⟨he, j, hj⟩ := find_eq_some hf
        rw [(Node.slot_eq_some hj).2.2] at hg
        exact ⟨ip, j, hj, rfl, h.got (Node.slot_pos hj) (hd.lt e he _ _ hj) hg⟩
    · obtain ⟨hx, e, -, -, hno⟩ := hx
      exact ⟨hx, fun l => (hno l).1⟩
  · unfold dirlookup
    rw [wp_bind, wp_get, if_pos fun hty => htype ((h.store.type_eq hl).trans hty)]
    exact fun hty => absurd hty htype

/-- `dirlink` of a locked directory. -/
theorem dirlink_inv (name : ℕ → UInt8) (inum : ℕ) :
    wp (dirlink k name inum) (fun r s' => (view s i).type = T_DIR ∧ InvX X R L B s' ∧
        Eff (insert (IBLOCK i s.sb) (bitmapBlocks s.sb)) 2 s s' ∧
        if (view s i).find (nameOf name) = none then
          r = true ∧ (view s i).Put (view s i).vacant (newDirent name inum) (view s' i) ∧
            view s' = update (view s) i (view s' i)
        else r = false ∧ Quiet s s')
      (fun _ _ => True) s := by
  have hl := h.loaded hk hB
  by_cases htype : (view s i).type = T_DIR
  · have hd := hwf i htype
    refine wp_mono' (dirlink_spec h.store hl htype hd.size name inum)
      (fun r s' hr => ⟨htype, ?_⟩) fun _ _ _ => trivial
    split_ifs at hr ⊢ with hf
    · obtain ⟨rfl, hent⟩ := hr
      obtain ⟨h', hview⟩ := h.entered hent
      exact ⟨h', hent.eff, rfl, hent.put, hview⟩
    · obtain ⟨rfl, ip, hrec⟩ := hr
      obtain ⟨h', hq⟩ := h.recycled hrec
      exact ⟨h', hq.eff.mono (Finset.empty_subset _) (Nat.zero_le _), rfl, hq⟩
  · unfold dirlink dirlookup
    rw [wp_bind, wp_bind, wp_get, if_pos fun hty => htype ((h.store.type_eq hl).trans hty)]
    trivial

end

theorem WfDir.put {n e : ℕ} {nd nd' : Node} {de : Dirent} (h : WfDir n nd) (hput : nd.Put e de nd')
    (he : e ≤ nd.nent) (hde : ∀ name j, de.slot = some (name, j) → j < n) : WfDir n nd' where
  size := hput.dvd h.size
  lt e' he' name j hj := by
    obtain hx | ⟨e'', he'', -, hq⟩ := (hput.fills h.size he).exists_iff.1 ⟨e', he', hj⟩
    · exact hde name j hx
    · exact h.lt e'' he'' name j hq

theorem WfDirs.update {n i : ℕ} {V : ℕ → Node} {nd : Node} (h : WfDirs n V)
    (hnd : nd.type = T_DIR → WfDir n nd) : WfDirs n (update V i nd) := by
  intro j hj
  by_cases hji : j = i
  · subst hji
    rw [update_self] at hj ⊢
    exact hnd hj
  · rw [update_of_ne hji] at hj ⊢
    exact h j hj

end Xv6
