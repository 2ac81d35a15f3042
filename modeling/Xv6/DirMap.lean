import Xv6.Dir
import Xv6.FileArray

/-!
# A directory is a finite map

A directory that was filled by `dirlink` and emptied by the entry-clearing writes of
`sys_unlink` (`Built`) stands for a finite map from names to inode numbers, `Node.lookup`.
`dirlookup` computes the map, `dirlink` adds an absent name to it and refuses one that is
there, and clearing the entry `dirlookup` reported takes the name out of it. In between the
kernel may do what it likes as long as it leaves the entries of the directory.
-/

open Prog Layout SlotMap

namespace Xv6

variable {s s' : FS} {k : Iptr} {i : ℕ}

/-- The entries of directory `i` are those it had. -/
structure SameDir (s : FS) (i : ℕ) (s' : FS) : Prop where
  type : (view s' i).type = (view s i).type
  size : (view s' i).size = (view s i).size
  dirent : ∀ e, (view s' i).dirent e = (view s i).dirent e

/-- The content of directory `i`, which is loaded in slot `k`, came about by `dirlink` and by
the entry-clearing writes of `sys_unlink`. -/
inductive Built (k : Iptr) (i : ℕ) : FS → Prop where
  | empty {s : FS} (hst : Store none s) (hk : Loaded s k i) (htype : (view s i).type = T_DIR)
      (hsize : (view s i).size = 0) : Built k i s
  | link {s s' : FS} {name : ℕ → UInt8} {inum : ℕ} {r : Bool} (hb : Built k i s)
      (hrun : dirlink k name inum s = .ok r s') : Built k i s'
  | clear {s s1 s2 s' : FS} {name : ℕ → UInt8} {ip : Iptr} {off : ℕ} (hb : Built k i s)
      (hrun : dirlookup k name s = .ok (some (ip, off)) s1) (hst : Store none s2)
      (hk : Loaded s2 k i) (hsame : SameDir s i s2)
      (hclear : writeDirent k off noDirent "unlink: writei" s2 = .ok () s') : Built k i s'
  | other {s s' : FS} (hb : Built k i s) (hst : Store none s') (hk : Loaded s' k i)
      (hsame : SameDir s i s') : Built k i s'

/-- Directory `i` is loaded in slot `k` and its names are distinct. -/
structure IsDir (s : FS) (k : Iptr) (i : ℕ) : Prop where
  store : Store none s
  loaded : Loaded s k i
  type : (view s i).type = T_DIR
  size : DIRENT ∣ (view s i).size
  distinct : SlotMap.Distinct (view s i).slot (view s i).nent

namespace SameDir

variable (h : SameDir s i s')
include h

theorem slot_eq : (view s' i).slot = (view s i).slot :=
  funext fun e => by rw [Node.slot, h.dirent, Node.slot]

theorem nent_eq : (view s' i).nent = (view s i).nent := by
  rw [Node.nent, h.size, Node.nent]

theorem isDir (hd : IsDir s k i) (hst : Store none s') (hk : Loaded s' k i) : IsDir s' k i := by
  refine ⟨hst, hk, h.type.trans hd.type, h.size ▸ hd.size, ?_⟩
  rw [h.slot_eq, h.nent_eq]
  exact hd.distinct

theorem find_eq (name : Name) : (view s' i).find name = (view s i).find name := by
  rw [Node.find, Node.find, h.slot_eq, h.nent_eq]

theorem lookup_eq (name : Name) : (view s' i).lookup name = (view s i).lookup name := by
  rw [Node.lookup, Node.lookup, h.slot_eq, h.nent_eq]

end SameDir

theorem IsDir.recycled {ip : Iptr} (h : IsDir s k i) (hr : Recycled s ip s') :
    IsDir s' k i ∧ view s' = view s := by
  obtain ⟨hst, hq⟩ := h.store.recycled hr
  have hview := hq.view_eq
  refine ⟨⟨hst, ?_, hview ▸ h.type, hview ▸ h.size, hview ▸ h.distinct⟩, hview⟩
  obtain rfl | ⟨jp, h0, -, -, rfl⟩ := hr
  · exact h.loaded
  · have hne : k ≠ ip := by
      rintro rfl
      exact absurd h.loaded.1 (by omega)
    rw [Loaded, setSlot_of_ne s jp hne]
    exact h.loaded

theorem Entered.isDir {e : ℕ} {de : Dirent} (hent : Entered s k i e de s') (h : IsDir s k i)
    (hd : SlotMap.Distinct (view s' i).slot (view s' i).nent) : IsDir s' k i :=
  ⟨hent.store, hent.same.loaded.2 h.loaded, hent.put.type.trans h.type, hent.put.dvd h.size, hd⟩

theorem Node.find_eq_none_iff {nd : Node} {name : Name} :
    nd.find name = none ↔ nd.lookup name = none := by
  rw [Node.find, Node.lookup, SlotMap.find_eq_none_iff, SlotMap.lookup_eq_none_iff]

namespace IsDir

variable (h : IsDir s k i)
include h

/-- `dirlookup` computes the map. -/
theorem dirlookup (name : ℕ → UInt8) :
    wp (Xv6.dirlookup k name) (fun r s' =>
        r.map (fun q => (s'.icache q.1).inum) = (view s i).lookup (nameOf name) ∧
        r.map Prod.snd = ((view s i).find (nameOf name)).map (· * DIRENT) ∧
        s'.disk = s.disk ∧ s'.log = s.log)
      (fun er _ => er = .panic "iget: no inodes" ∧ ∀ ip, (s.icache ip).ref ≠ 0) s := by
  refine wp_mono' (dirlookup_spec h.store h.loaded h.type h.size name) (fun r s' hr => ?_) ?_
  · cases hf : (view s i).find (nameOf name) with
    | none =>
      rw [hf] at hr
      obtain ⟨rfl, rfl⟩ := hr
      exact ⟨(Node.find_eq_none_iff.1 hf).symm, rfl, rfl, rfl⟩
    | some e =>
      rw [hf] at hr
      obtain ⟨ip, rfl, hg⟩ := hr
      obtain ⟨-, a, ha⟩ := find_eq_some hf
      have hlook : (view s i).lookup (nameOf name) = some ((view s i).dirent e).inum.toNat := by
        rw [(Node.slot_eq_some ha).2.2, Node.lookup, SlotMap.lookup,
          show SlotMap.find _ _ _ = some e from hf, Option.bind_some, ha]
        rfl
      rw [hlook]
      obtain ⟨-, -, hinum, rfl⟩ | ⟨-, -, rfl⟩ := hg
      · exact ⟨by simpa using hinum, rfl, rfl, rfl⟩
      · exact ⟨by simp, rfl, rfl, rfl⟩
  · rintro er s' ⟨rfl, e, -, -, hno⟩
    exact ⟨rfl, fun ip => (hno ip).1⟩

/-- `dirlink` adds an absent name. -/
theorem dirlink_absent {name : ℕ → UInt8} (habs : (view s i).lookup (nameOf name) = none)
    (inum : ℕ) :
    wp (dirlink k name inum) (fun r s' => r = true ∧ IsDir s' k i ∧
        (inum ≠ 0 → inum < 2 ^ 16 → ∀ name', (view s' i).lookup name' =
          if name' = nameOf name then some inum else (view s i).lookup name'))
      (fun _ _ => ¬ Room s i (view s i).vacant) s := by
  have hfind := Node.find_eq_none_iff.2 habs
  refine wp_mono' (dirlink_spec h.store h.loaded h.type h.size name inum) (fun r s' hr => ?_)
    fun er s' her => ?_
  · rw [if_pos hfind] at hr
    obtain ⟨rfl, hent⟩ := hr
    have hfills := hent.put.fills h.size (vacant_le _ _)
    by_cases hin : (newDirent name inum).inum = 0
    · -- an entry with inode number 0 is empty
      have hslot : (newDirent name inum).slot = none := Dirent.slot_eq_none_iff.2 hin
      rw [hslot] at hfills
      refine ⟨rfl, hent.isDir h (hfills.distinct h.distinct fun _ _ hx => by cases hx), ?_⟩
      intro h0 hlt
      rw [newDirent_slot name h0 hlt] at hslot
      cases hslot
    · have hslot : (newDirent name inum).slot =
          some (nameOf name, (newDirent name inum).inum.toNat) := by
        rw [Dirent.slot, if_neg hin, newDirent_key]
      rw [hslot] at hfills
      obtain ⟨hd, hlook⟩ := h.distinct.fill hfills vacant_eq_none hfind
      refine ⟨rfl, hent.isDir h hd, fun h0 hlt name' => ?_⟩
      rw [newDirent_slot name h0 hlt, Option.some.injEq, Prod.mk.injEq] at hslot
      rw [hslot.2]
      exact hlook name'
  · rwa [if_pos hfind] at her

/-- `dirlink` of a name that is there returns `-1` and changes no file. -/
theorem dirlink_present {name : ℕ → UInt8} (hpres : (view s i).lookup (nameOf name) ≠ none)
    (inum : ℕ) :
    wp (dirlink k name inum) (fun r s' => r = false ∧ IsDir s' k i ∧ view s' = view s ∧
        s'.disk = s.disk ∧ s'.log = s.log)
      (fun er _ => er = .panic "iget: no inodes" ∧ ∀ ip, (s.icache ip).ref ≠ 0) s := by
  have hfind : (view s i).find (nameOf name) ≠ none := mt Node.find_eq_none_iff.1 hpres
  refine wp_mono' (dirlink_spec h.store h.loaded h.type h.size name inum) (fun r s' hr => ?_)
    fun er s' her => ?_
  · rw [if_neg hfind] at hr
    obtain ⟨rfl, ip, hrec⟩ := hr
    obtain ⟨hd, hview⟩ := h.recycled hrec
    refine ⟨rfl, hd, hview, ?_⟩
    obtain rfl | ⟨jp, -, -, -, rfl⟩ := hrec
    · exact ⟨rfl, rfl⟩
    · exact ⟨rfl, rfl⟩
  · rw [if_neg hfind] at her
    obtain ⟨rfl, e, -, -, hno⟩ := her
    exact ⟨rfl, fun ip => (hno ip).1⟩

theorem clear {name : Name} {e : ℕ} (hfind : (view s i).find name = some e) (msg : String) :
    wp (writeDirent k (e * DIRENT) noDirent msg) (fun _ s' => IsDir s' k i ∧
        ∀ name', (view s' i).lookup name' =
          if name' = name then none else (view s i).lookup name')
      (fun _ _ => ¬ Room s i e) s := by
  have he := (find_eq_some hfind).1
  have hdev : (view s i).type ≠ T_DEV := by
    rw [h.type]
    decide
  refine wp_mono (writeDirent_spec h.store h.loaded hdev he.le noDirent msg) fun _ s' hent => ?_
  have hfills := hent.put.fills h.size he.le
  rw [noDirent_slot] at hfills
  obtain ⟨hd, hlook⟩ := h.distinct.empty hfills hfind
  exact ⟨hent.isDir h hd, hlook⟩

end IsDir

theorem Built.isDir (hb : Built k i s) : IsDir s k i := by
  induction hb with
  | empty hst hk htype hsize =>
    refine ⟨hst, hk, htype, by rw [hsize]; exact Nat.dvd_zero _, fun e he => ?_⟩
    rw [Node.nent, hsize] at he
    exact absurd he (Nat.not_lt_zero _)
  | @link s s' name inum r _ hrun ih =>
    by_cases habs : (view s i).lookup (nameOf name) = none
    · exact (wp_ok (wp_mono' (ih.dirlink_absent habs inum) (fun _ _ => id) fun _ _ _ => trivial)
        hrun).2.1
    · exact (wp_ok (wp_mono' (ih.dirlink_present habs inum) (fun _ _ => id) fun _ _ _ => trivial)
        hrun).2.1
  | @clear s s1 s2 s' name ip off _ hrun hst hk hsame hclear ih =>
    have hr := (wp_ok (ih.dirlookup name) hrun).2.1
    cases hf : (view s i).find (nameOf name) with
    | none =>
      rw [hf] at hr
      cases hr
    | some e =>
      rw [hf] at hr
      obtain rfl : off = e * DIRENT := Option.some.inj hr
      exact (wp_ok ((hsame.isDir ih hst hk).clear ((hsame.find_eq _).trans hf) _) hclear).1
  | other _ hst hk hsame ih => exact hsame.isDir ih hst hk

theorem dirlookup_congr {name name' : ℕ → UInt8} (h : ∀ j < DIRSIZ, name j = name' j) :
    dirlookup k name = dirlookup k name' := by
  have hloop : ∀ offs, dirlookupLoop k name offs = dirlookupLoop k name' offs := by
    intro offs
    induction offs with
    | nil => rfl
    | cons off offs ih => simp only [dirlookupLoop, ih, namecmp_eq_zero_iff, nameOf_congr h]
  simp only [dirlookup, hloop]

theorem dirlink_congr {name name' : ℕ → UInt8} (h : ∀ j < DIRSIZ, name j = name' j) (inum : ℕ) :
    dirlink k name inum = dirlink k name' inum := by
  have hcpy : strncpy name 0 DIRSIZ = strncpy name' 0 DIRSIZ := nameOf_eq_iff.1 (nameOf_congr h)
  simp only [dirlink, dirlookup_congr h, hcpy]

/-- A directory is a finite map keyed by names of `DIRSIZ` bytes. -/
theorem directory_is_map (hb : Built k i s) :
    -- no two live entries have equal names
    (∀ e < (view s i).nent, ∀ e' < (view s i).nent,
      ((view s i).dirent e).inum ≠ 0 → ((view s i).dirent e').inum ≠ 0 →
      namecmp ((view s i).dirent e).cname ((view s i).dirent e').cname = 0 → e = e') ∧
    -- `dirlookup` computes the map
    (∀ name, wp (dirlookup k name) (fun r s' =>
        r.map (fun q => (s'.icache q.1).inum) = (view s i).lookup (nameOf name) ∧
        s'.disk = s.disk ∧ s'.log = s.log)
      (fun er _ => er = .panic "iget: no inodes" ∧ ∀ ip, (s.icache ip).ref ≠ 0) s) ∧
    -- `dirlink` adds an absent name
    (∀ name inum, inum ≠ 0 → inum < 2 ^ 16 → (view s i).lookup (nameOf name) = none →
      wp (dirlink k name inum) (fun r s' => r = true ∧ Built k i s' ∧
          ∀ name', (view s' i).lookup name' =
            if name' = nameOf name then some inum else (view s i).lookup name')
        (fun _ _ => ¬ Room s i (view s i).vacant) s) ∧
    -- and refuses one that is there
    (∀ name inum, (view s i).lookup (nameOf name) ≠ none →
      wp (dirlink k name inum) (fun r s' => r = false ∧ view s' = view s ∧ s'.disk = s.disk ∧
          s'.log = s.log)
        (fun er _ => er = .panic "iget: no inodes" ∧ ∀ ip, (s.icache ip).ref ≠ 0) s) ∧
    -- clearing the entry `dirlookup` reported takes the name out
    (∀ name ip off s1 s2, dirlookup k name s = .ok (some (ip, off)) s1 → Store none s2 →
      Loaded s2 k i → SameDir s i s2 →
      wp (writeDirent k off noDirent "unlink: writei") (fun _ s' => Built k i s' ∧
          ∀ name', (view s' i).lookup name' =
            if name' = nameOf name then none else (view s i).lookup name')
        (fun _ _ => ¬ ∃ e, off = e * DIRENT ∧ Room s2 i e) s2) ∧
    -- names longer than `DIRSIZ` behave as their first `DIRSIZ` bytes
    ∀ name name' : ℕ → UInt8, (∀ j < DIRSIZ, name j = name' j) →
      dirlookup k name = dirlookup k name' ∧
        ∀ inum, dirlink k name inum = dirlink k name' inum := by
  have h := hb.isDir
  refine ⟨fun e he e' he' h0 h0' heq => ?_, fun name => ?_, fun name inum h0 hlt habs => ?_,
    fun name inum hpres => ?_, fun name ip off s1 s2 hrun hst hk hsame => ?_,
    fun name name' hname => ⟨dirlookup_congr hname, dirlink_congr hname⟩⟩
  · have hkey : ((view s i).dirent e).key = ((view s i).dirent e').key := namecmp_eq_zero_iff.1 heq
    have hslot := Node.slot_of_ne h0
    rw [hkey] at hslot
    exact h.distinct e he e' he' _ _ _ hslot (Node.slot_of_ne h0')
  · exact wp_mono (h.dirlookup name) fun r s' hr => ⟨hr.1, hr.2.2⟩
  · have hspec := h.dirlink_absent habs inum
    unfold wp at hspec ⊢
    cases hm : dirlink k name inum s with
    | ok r s' =>
      rw [hm] at hspec
      exact ⟨hspec.1, hb.link hm, hspec.2.2 h0 hlt⟩
    | error er s' =>
      rw [hm] at hspec
      exact hspec
  · exact wp_mono (h.dirlink_present hpres inum) fun r s' hr => ⟨hr.1, hr.2.2⟩
  · have hr := (wp_ok (h.dirlookup name) hrun).2.1
    cases hf : (view s i).find (nameOf name) with
    | none =>
      rw [hf] at hr
      cases hr
    | some e =>
      rw [hf] at hr
      obtain rfl : off = e * DIRENT := Option.some.inj hr
      have h2 := hsame.isDir h hst hk
      have hspec := h2.clear ((hsame.find_eq _).trans hf) "unlink: writei"
      unfold wp at hspec ⊢
      cases hm : writeDirent k (e * DIRENT) noDirent "unlink: writei" s2 with
      | ok r s' =>
        rw [hm] at hspec
        exact ⟨hb.clear hrun hst hk hsame hm, fun name' => by rw [hspec.2, hsame.lookup_eq]⟩
      | error er s' =>
        rw [hm] at hspec
        rintro ⟨e', he', hroom⟩
        obtain rfl : e = e' := Nat.eq_of_mul_eq_mul_right (by decide) he'
        exact hspec hroom

/-- The name `a` goes into an empty directory. -/
theorem directory_is_map_blank : Built 0 1 (blank T_DIR) ∧
    ∃ s', dirlink 0 (cstr [97]) 5 (blank T_DIR) = .ok true s' ∧
      (view s' 1).lookup (nameOf (cstr [97])) = some 5 := by
  -- the state is a variable here, so that the program is not run
  have hgen : ∀ s, Built 0 1 s → (view s 1).lookup (nameOf (cstr [97])) = none →
      Room s 1 (view s 1).vacant → ∃ s', dirlink 0 (cstr [97]) 5 s = .ok true s' ∧
        (view s' 1).lookup (nameOf (cstr [97])) = some 5 := by
    intro s hb habs hroom
    obtain ⟨-, -, hlink, -⟩ := directory_is_map hb
    obtain ⟨r, s', hrun, rfl, -, hlook⟩ := exists_ok_of_wp
      (wp_mono' (hlink (cstr [97]) 5 (by decide) (by decide) habs) (fun _ _ => id)
        fun _ _ hno => hno hroom)
    exact ⟨s', hrun, (hlook _).trans (if_pos rfl)⟩
  have hv := blank_view (show T_DIR ≠ 0 by decide)
  have hb : Built 0 1 (blank T_DIR) := .empty (blank_store (by decide)) blank_loaded hv.1 hv.2
  have hnent : (view (blank T_DIR) 1).nent = 0 := by
    rw [Node.nent, hv.2]
    rfl
  have habs : (view (blank T_DIR) 1).lookup (nameOf (cstr [97])) = none := by
    rw [Node.lookup, lookup_eq_none_iff, hnent]
    exact fun e he => absurd he (Nat.not_lt_zero e)
  have hvacant : (view (blank T_DIR) 1).vacant = 0 :=
    Nat.le_zero.1 ((vacant_le _ _).trans_eq hnent)
  have hroom : Room (blank T_DIR) 1 (view (blank T_DIR) 1).vacant := by
    have hen := blank_enough T_DIR (n := DIRENT) (by decide)
    rw [hvacant]
    exact ⟨by decide, hen⟩
  exact ⟨hb, hgen _ hb habs hroom⟩

end Xv6
