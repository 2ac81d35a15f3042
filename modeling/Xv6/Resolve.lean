import Xv6.Boot

/-!
# Path resolution

What `namei` and `nameiparent` return, by the elements of the path alone (`path_resolution`). The
elements are what is left of the path when it is split at the slashes and the empty pieces are
dropped, so a slash more, next to another or at the end, leads to the same file (`Slashed`).

`namei` returns where the elements lead to, one lookup after another (`walk`). `nameiparent` returns
the directory they lead to without the last of them, which is in the buffer. It checks that this is
a directory : for `f/x` it returns 0 when `f` is a file (`nameiparent_in_file`).
-/

open Prog Layout SlotMap

namespace Xv6

/-! ## Slashes -/

/-- A slash more, next to another or at the end. -/
inductive Slashed : List UInt8 → List UInt8 → Prop
  | double (a b : List UInt8) : Slashed (a ++ slash :: b) (a ++ slash :: slash :: b)
  | trailing {a : List UInt8} (ha : a ≠ []) : Slashed a (a ++ [slash])

theorem elems_append_slash (a b : List UInt8) : elems (a ++ slash :: b) = elems a ++ elems b := by
  rw [elems, List.splitOn, List.splitOnP_append_cons a b (by decide), List.filter_append]
  rfl

section

variable {path path' : List UInt8}

theorem Slashed.elems_eq (h : Slashed path path') : elems path' = elems path := by
  cases h with
  | double a b => rw [elems_append_slash, elems_append_slash, elems_slash]
  | trailing => rw [elems_append_slash, elems_nil, List.append_nil]

theorem Slashed.head_eq (h : Slashed path path') : path'.head? = path.head? := by
  cases h with
  | double a b => cases a <;> rfl
  | trailing ha =>
    obtain ⟨c, l, rfl⟩ := List.exists_cons_of_ne_nil ha
    rfl

theorem Slashed.startInode_eq (h : Slashed path path') (s : FS) (p : Fin NPROC) :
    startInode s p path' = startInode s p path := by
  rw [startInode, startInode, h.head_eq]

end

/-! ## The inodes returned -/

/-- Files without dangling entries, for a process that has a current directory. -/
structure Settled (p : Fin NPROC) (L : Multiset (Iptr × ℕ)) (s : FS) : Prop extends
    Ready p L s where
  entries : NoDangling (view s)
  rooted : (view s ROOTINO).type ≠ 0
  held : ∀ q ∈ L, (view s q.2).type ≠ 0
  present : (s.procs p).cwd ≠ none

/-- The call stops at a full cache : with one inode more than the references all slots are taken. -/
def OutOfInodes {α : Type} (L : Multiset (Iptr × ℕ)) (r : EStateM.Result Stop FS α) : Prop :=
  (∃ s', r = .error (.panic "iget: no inodes") s') ∧ NINODE ≤ (L.map Prod.fst).toFinset.card + 1

/-- `namei` returns inode `t`, and changes no file. -/
def NameiGives (p : Fin NPROC) (s : FS) (path : List UInt8) (t : Option ℕ) : Prop :=
  ∃ r s', namei p path s = .ok r s' ∧ Quiet s s' ∧ r.map (fun k => (s'.icache k).inum) = t

/-- `nameiparent` returns inode `t` and stores the last element, and changes no file. -/
def NameiparentGives (p : Fin NPROC) (s : FS) (path : List UInt8) (t : Option ℕ) : Prop :=
  ∃ r s', nameiparent p path s = .ok r s' ∧ Quiet s s' ∧
    r.map (fun q => (s'.icache q.1).inum) = t ∧
    ∀ q ∈ r, ∃ e, (elems path).getLast? = some e ∧
      ∀ j < DIRSIZ, j ≤ e.length → q.2 j = cstr e j

section

variable {p : Fin NPROC} {L : Multiset (Iptr × ℕ)} {s : FS}

theorem Settled.outOfInodes {α : Type} {m : M α} {Q : α → FS → Prop} {path : List UInt8}
    (h : Settled p L s) (hm : wp m Q (fun x _ => Stuck L s p path x) s) :
    (∃ r s', m s = .ok r s' ∧ Q r s') ∨ OutOfInodes L (m s) := by
  cases hrun : m s with
  | ok r s' => exact .inl ⟨r, s', rfl, wp_ok hm hrun⟩
  | error x s' =>
    rcases wp_error hm hrun h.entries h.rooted h.held with ⟨rfl, hfull⟩ | ⟨-, -, hcwd⟩
    · exact .inr ⟨⟨s', rfl⟩, hfull⟩
    · exact absurd hcwd h.present

theorem namei_gives (h : Settled p L s) (path : List UInt8) :
    NameiGives p s path (walk (view s) (startInode s p path) (elems path)) ∨
      OutOfInodes L (namei p path s) := by
  refine (h.outOfInodes (namei_spec h.toReady path)).imp_left ?_
  rintro ⟨r, s', hrun, hq, hr⟩
  refine ⟨r, s', hrun, hq, ?_⟩
  rcases hr with ⟨rfl, hnone, -⟩ | ⟨k, i, rfl, hsome, hinv⟩
  · exact hnone.symm
  · rw [hsome, Option.map_some, hinv.inum (k, i) (Multiset.mem_cons_self _ _)]

theorem nameiparent_gives (h : Settled p L s) (path : List UInt8) :
    NameiparentGives p s path (parentOf (view s) (startInode s p path) (elems path)) ∨
      OutOfInodes L (nameiparent p path s) := by
  refine (h.outOfInodes (nameiparent_spec h.toReady path)).imp_left ?_
  rintro ⟨r, s', hrun, hq, hr⟩
  rw [target_true_eq] at hr
  refine ⟨r, s', hrun, hq, ?_⟩
  rcases hr with ⟨rfl, hnone, -⟩ | ⟨k, i, rfl, hsome, hinv, -⟩
  · exact ⟨hnone.symm, fun q hq => absurd hq (Option.not_mem_none q)⟩
  · refine ⟨?_, fun q hq => ?_⟩
    · rw [hsome, Option.map_some, hinv.inum (k, i) (Multiset.mem_cons_self _ _)]
    · obtain rfl := Option.mem_some_iff.1 hq
      have hne : elems path ≠ [] := by
        intro hnil
        rw [parentOf, if_pos hnil] at hsome
        exact absurd hsome (by simp)
      obtain ⟨e, he⟩ := Option.ne_none_iff_exists'.1 (mt List.getLast?_eq_none_iff.1 hne)
      exact ⟨e, he, fun j hj hje => lastElem_eq he _ hj hje⟩

/-- `namei` returns the inode that the elements of the path lead to, from the root or from the
current directory, and 0 if one of them is missing or looked up in a file that is no directory.
`nameiparent` does so with all elements but the last, which it stores, and returns 0 as well for a
path without elements and where it gets to a file. A slash more makes no difference. The calls stop
only when the cache is full. -/
theorem path_resolution (h : Settled p L s) (path : List UInt8) :
    (NameiGives p s path (walk (view s) (startInode s p path) (elems path)) ∨
      OutOfInodes L (namei p path s)) ∧
    (NameiparentGives p s path (parentOf (view s) (startInode s p path) (elems path)) ∨
      OutOfInodes L (nameiparent p path s)) ∧
    ∀ path', Slashed path path' →
      (NameiGives p s path' (walk (view s) (startInode s p path) (elems path)) ∨
        OutOfInodes L (namei p path' s)) ∧
      (NameiparentGives p s path' (parentOf (view s) (startInode s p path) (elems path)) ∨
        OutOfInodes L (nameiparent p path' s)) := by
  refine ⟨namei_gives h path, nameiparent_gives h path, fun path' hpath => ?_⟩
  rw [← hpath.elems_eq, ← hpath.startInode_eq s p]
  exact ⟨namei_gives h path', nameiparent_gives h path'⟩

end

/-! ## On the small disk -/

theorem small_settled : Settled 0 bootRefs small where
  toReady := small_ready
  entries := small_noDangling
  rooted := by
    rw [view_small, node_type]
    decide
  held q hq := by
    obtain rfl := Multiset.mem_singleton.1 hq
    rw [view_small, node_type]
    decide
  present := fun h => absurd h (by decide)

theorem bootRefs_room {α : Type} (r : EStateM.Result Stop FS α) : ¬ OutOfInodes bootRefs r :=
  fun h => absurd h.2 (by decide)

theorem child_small : child (view small) 1 [102] = some 2 := by
  rw [child, view_small]
  decide +kernel

/-- The path `/f` leads to the file, and with one slash more as well. -/
theorem path_resolution_small : NameiGives 0 small [47, 102] (some 2) ∧
    NameiGives 0 small [47, 47, 102] (some 2) := by
  have hwalk : walk (view small) (startInode small 0 [47, 102]) (elems [47, 102]) = some 2 := by
    rw [show elems [47, 102] = [[102]] from by decide, walk_cons]
    exact congrArg (Option.bind · _) child_small
  have h := path_resolution small_settled [47, 102]
  rw [hwalk] at h
  exact ⟨h.1.resolve_right (bootRefs_room _),
    (h.2.2 _ (.double [] [102])).1.resolve_right (bootRefs_room _)⟩

/-- For `f/x` all elements but the last lead to `f`, and `nameiparent` returns 0, as `f` is a
file. -/
theorem nameiparent_in_file : Settled 0 bootRefs small ∧
    walk (view small) (startInode small 0 [102, 47, 120]) (elems [102, 47, 120]).dropLast = some 2 ∧
    NameiparentGives 0 small [102, 47, 120] none := by
  have hwalk : walk (view small) (startInode small 0 [102, 47, 120])
      (elems [102, 47, 120]).dropLast = some 2 := by
    rw [show (elems [102, 47, 120]).dropLast = [[102]] from by decide, walk_cons]
    exact congrArg (Option.bind · _) child_small
  have h := (nameiparent_gives small_settled [102, 47, 120]).resolve_right (bootRefs_room _)
  have hnone : parentOf (view small) (startInode small 0 [102, 47, 120]) (elems [102, 47, 120]) =
      none := by
    rw [parentOf, if_neg (by decide), hwalk, Option.filter_some, view_small, node_type]
    decide
  rw [hnone] at h
  exact ⟨small_settled, hwalk, h⟩

end Xv6
