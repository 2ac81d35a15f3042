import Xv6.Inodes

/-!
# Paths

`namex` walks a path one directory at a time : it locks the directory, looks the next name up,
and gives the directory back before it goes on. So between two elements it holds one reference
and no lock, and what it returns is one reference more than there were. The files do not
change : a directory it gives back is never the last reference to an inode without links.

Where a path leads to is said by its elements (`elems`) and by one lookup for each (`walk`,
`target`), and `namexLoop_spec` says that the loop gets there.
-/

open Prog Layout SlotMap Option

namespace Xv6

/-! ## The elements of a path -/

/-- The elements of a path : what is between the slashes. -/
def elems (path : List UInt8) : List (List UInt8) :=
  (path.splitOn slash).filter (· ≠ [])

/-- A name buffer after an element is copied to it. -/
def storeElem (e : List UInt8) (name : ℕ → UInt8) : ℕ → UInt8 := fun i =>
  if DIRSIZ ≤ e.length then
    if i < DIRSIZ then e.getD i 0 else name i
  else
    if i < e.length then e.getD i 0 else if i = e.length then 0 else name i

section

variable {path rest e t : List UInt8} {name name' : ℕ → UInt8}

theorem elems_nil : elems [] = [] := by
  decide

theorem elems_slash (path : List UInt8) : elems (slash :: path) = elems path := by
  rw [elems, List.splitOn, List.splitOnP_cons_eq_if_modifyHead, if_pos (by decide)]
  rfl

theorem elems_dropWhile : ∀ path : List UInt8, elems (path.dropWhile (· == slash)) = elems path
  | [] => rfl
  | c :: path => by
    rw [List.dropWhile_cons]
    split_ifs with hc
    · rw [elems_dropWhile path, eq_of_beq hc, elems_slash]
    · rfl

theorem elems_append (he : e ≠ []) (hslash : ∀ c ∈ e, c ≠ slash)
    (ht : t = [] ∨ t.head? = some slash) : elems (e ++ t) = e :: elems t := by
  have hsep : ∀ c ∈ e, (c == slash) = false := fun c hc => beq_false_of_ne (hslash c hc)
  obtain rfl | ht := ht
  · rw [List.append_nil, elems, List.splitOn, List.splitOnP_eq_singleton hsep, elems_nil]
    simp [he]
  · obtain ⟨t, rfl⟩ : ∃ t', t = slash :: t' := by
      cases t with
      | nil => cases ht
      | cons c t' => exact ⟨t', by rw [some.inj ht]⟩
    rw [elems_slash, elems, List.splitOn,
      List.splitOnP_append_cons_of_forall_mem hsep slash (by decide),
      List.filter_cons_of_pos (by simpa using he)]
    rfl

theorem elems_of_head (hne : path ≠ []) (hhead : path.head hne ≠ slash) :
    elems path = path.takeWhile (· != slash) :: elems (path.dropWhile (· != slash)) := by
  conv_lhs => rw [← List.takeWhile_append_dropWhile (p := (· != slash)) (l := path)]
  refine elems_append ?_ (fun c hc => ?_) ?_
  · obtain ⟨c, q, rfl⟩ := List.exists_cons_of_ne_nil hne
    rw [List.takeWhile_cons_of_pos (by simpa using hhead)]
    exact List.cons_ne_nil _ _
  · simpa using List.all_eq_true.1 List.all_takeWhile c hc
  · by_cases ht : path.dropWhile (· != slash) = []
    · exact .inl ht
    · refine .inr ?_
      have hslash := List.head_dropWhile_not (· != slash) ht
      rw [List.head?_eq_some_head ht]
      simpa using hslash

theorem head_dropWhile_ne (hne : path.dropWhile (· == slash) ≠ []) :
    (path.dropWhile (· == slash)).head hne ≠ slash := by
  simpa using List.head_dropWhile_not (· == slash) hne

theorem elems_ne_nil (hne : path.dropWhile (· == slash) ≠ []) : elems path ≠ [] := by
  rw [← elems_dropWhile, elems_of_head hne (head_dropWhile_ne hne)]
  exact List.cons_ne_nil _ _

/-- `skipelem` returns 0 at the end of the path. -/
theorem skipelem_none (h : skipelem path name = none) : elems path = [] := by
  unfold skipelem at h
  dsimp only at h
  split_ifs at h with hq
  rw [← elems_dropWhile, hq, elems_nil]

/-- Otherwise it takes the first element off. -/
theorem skipelem_some (h : skipelem path name = some (rest, name')) :
    ∃ e, elems path = e :: elems rest ∧ name' = storeElem e name ∧
      (rest = [] ↔ elems rest = []) := by
  unfold skipelem at h
  dsimp only at h
  by_cases hq : path.dropWhile (· == slash) = []
  · rw [if_pos hq] at h
    cases h
  rw [if_neg hq] at h
  obtain ⟨rfl, rfl⟩ := Prod.mk.inj (some.inj h)
  refine ⟨(path.dropWhile (· == slash)).takeWhile (· != slash), ?_, rfl, fun h0 => by
    rw [h0, elems_nil], fun h0 => by_contra fun hne => ?_⟩
  · rw [elems_dropWhile, ← elems_of_head hq (head_dropWhile_ne hq), elems_dropWhile]
  · rw [elems_dropWhile] at h0
    exact elems_ne_nil hne h0

theorem skipelem_length (h : skipelem path name = some (rest, name')) :
    rest.length < path.length := by
  unfold skipelem at h
  dsimp only at h
  set q := path.dropWhile (· == slash) with hq
  have hle : q.length ≤ path.length := (List.dropWhile_suffix _).length_le
  by_cases hne : q = []
  · rw [if_pos hne] at h
    exact absurd h.symm (some_ne_none _)
  rw [if_neg hne] at h
  obtain ⟨rfl, -⟩ := Prod.mk.inj (some.inj h)
  obtain ⟨c, q', hc⟩ := List.exists_cons_of_ne_nil hne
  have hcs : (c != slash) = true := by
    have hhead : (path.dropWhile (· == slash)).head hne ≠ slash := head_dropWhile_ne hne
    simp only [← hq, hc, List.head_cons] at hhead
    simpa using hhead
  have hle' : ((q'.dropWhile (· != slash)).dropWhile (· == slash)).length ≤ q'.length :=
    ((List.dropWhile_suffix _).trans (List.dropWhile_suffix _)).length_le
  have hlen : q.length = q'.length + 1 := by rw [hc, List.length_cons]
  rw [hc, List.dropWhile_cons, if_pos hcs]
  omega

theorem storeElem_of_le {i : ℕ} (hi : i < DIRSIZ) (hle : i ≤ e.length) :
    storeElem e name i = cstr e i := by
  unfold storeElem cstr
  split_ifs with h14 hlt heq
  · rfl
  · rfl
  · rw [heq, List.getD_eq_default _ _ le_rfl]
  · omega

/-- The buffer holds the element, cut to `DIRSIZ` bytes, whatever it held before. -/
theorem nameOf_storeElem (e : List UInt8) (name : ℕ → UInt8) :
    nameOf (storeElem e name) = nameOf (cstr e) := by
  funext j
  unfold nameOf
  have hj := j.isLt
  rw [getD_strncpy _ _ _ _ hj, getD_strncpy _ _ _ _ hj]
  simp only [Nat.zero_add]
  by_cases hle : j.val ≤ e.length
  · have hsame : ∀ m ≤ j.val, storeElem e name m = cstr e m := fun m hm =>
      storeElem_of_le (by omega) (by omega)
    rw [hsame j.val le_rfl]
    congr 1
    exact propext (exists_congr fun m => and_congr_right fun hm => by rw [hsame m hm])
  · have hzero : storeElem e name e.length = 0 ∧ cstr e e.length = 0 := by
      refine ⟨(storeElem_of_le (by omega) le_rfl).trans ?_, ?_⟩ <;>
        exact List.getD_eq_default _ _ le_rfl
    rw [if_pos ⟨e.length, by omega, hzero.1⟩, if_pos ⟨e.length, by omega, hzero.2⟩]

end

/-! ## Giving a locked inode back -/

section

variable {R L : Multiset (Iptr × ℕ)} {B : Finset Iptr} {s : FS} {k : Iptr} {i : ℕ}

theorem iunlockput_keep (h : Inv R ((k, i) ::ₘ L) B s) (hB : k ∈ B) (hR : R ≤ L) :
    wp (iunlockput k) (fun _ s' => Inv R L (B.erase k) s' ∧ Quiet s s') (fun _ _ => False) s := by
  refine wp_seq (iunlock_spec h hB) ?_
  rintro _ s1 ⟨h1, hq1⟩
  refine wp_mono (iput_keep h1 (Finset.notMem_erase k B) hR) ?_
  rintro _ s2 ⟨h2, hq2⟩
  exact ⟨h2, hq1.trans hq2⟩

theorem iunlockput_only (h : Inv R ((k, i) ::ₘ L) (insert k ∅) s) (hR : R ≤ L) :
    wp (iunlockput k) (fun _ s' => Inv R L ∅ s' ∧ Quiet s s') (fun _ _ => False) s := by
  have hwp := iunlockput_keep h (Finset.mem_insert_self _ _) hR
  rwa [Finset.erase_insert (Finset.notMem_empty k)] at hwp

theorem iunlockput_drop (h : Inv ((k, i) ::ₘ L) ((k, i) ::ₘ L) B s) (hB : k ∈ B) :
    wp (iunlockput k) (fun _ s' => Inv L L (B.erase k) s' ∧ view s' = released (view s) L k i ∧
        Eff (insert (IBLOCK i s.sb) (bitmapBlocks s.sb)) 0 s s')
      (fun _ _ => True) s := by
  refine wp_seq_total (iunlock_spec h hB) ?_
  rintro _ s1 ⟨h1, hq⟩
  have hsb : s1.sb = s.sb := congrArg Env.sb hq.env
  refine wp_mono (iput_drop h1 (Finset.notMem_erase k B)) ?_
  rintro _ s2 ⟨h2, hview, heff⟩
  refine ⟨h2, hview.trans (by rw [hq.view_eq]), ?_⟩
  rw [hsb] at heff
  exact (hq.eff.trans heff).mono (by simp) le_rfl

end

/-! ## The walk -/

/-- Every entry of a directory names an allocated inode. -/
def NoDangling (V : ℕ → Node) : Prop :=
  ∀ i, (V i).type = T_DIR → ∀ e < (V i).nent, ∀ name j, (V i).slot e = some (name, j) →
    (V j).type ≠ 0

/-- The file an element names in file `i`, if that is a directory. -/
def child (V : ℕ → Node) (i : ℕ) (e : List UInt8) : Option ℕ :=
  if (V i).type = T_DIR then (V i).lookup (nameOf (cstr e)) else none

/-- The file that elements lead to from file `i`, one after another. -/
def walk (V : ℕ → Node) (i : ℕ) (es : List (List UInt8)) : Option ℕ :=
  es.foldlM (child V) i

/-- The file that `namex` returns : where the elements lead to from file `i`, or else the directory
of the last of them. -/
def target (V : ℕ → Node) (parent : Bool) : ℕ → List (List UInt8) → Option ℕ
  | i, [] => if parent then none else some i
  | i, e :: es =>
    if (V i).type ≠ T_DIR then none
    else if parent ∧ es = [] then some i
    else ((V i).lookup (nameOf (cstr e))).bind fun j => target V parent j es

/-- What `namex` leaves : the references `L`, and one to the inode `t` it returns, with `name` in
the buffer. -/
def Walked (R L : Multiset (Iptr × ℕ)) (t : Option ℕ) (name : ℕ → UInt8) (s : FS)
    (r : Option (Iptr × (ℕ → UInt8))) (s' : FS) : Prop :=
  Quiet s s' ∧
    match t with
    | none => r = none ∧ Inv R L ∅ s'
    | some i => ∃ k, r = some (k, name) ∧ Inv R ((k, i) ::ₘ L) ∅ s'

theorem Walked.of_quiet {R L : Multiset (Iptr × ℕ)} {t : Option ℕ} {name : ℕ → UInt8}
    {s s1 s' : FS} {r : Option (Iptr × (ℕ → UInt8))} (h : Walked R L t name s1 r s')
    (hq : Quiet s s1) : Walked R L t name s r s' :=
  ⟨hq.trans h.1, h.2⟩

theorem Walked.cases {R L : Multiset (Iptr × ℕ)} {t : Option ℕ} {name : ℕ → UInt8} {s s' : FS}
    {r : Option (Iptr × (ℕ → UInt8))} (h : Walked R L t name s r s') :
    r = none ∧ t = none ∧ Inv R L ∅ s' ∨
      ∃ k i, r = some (k, name) ∧ t = some i ∧ Inv R ((k, i) ::ₘ L) ∅ s' := by
  cases t with
  | none => exact .inl ⟨h.2.1, rfl, h.2.2⟩
  | some i =>
    obtain ⟨k, hr, hk⟩ := h.2
    exact .inr ⟨k, i, hr, rfl, hk⟩

theorem walk_cons (V : ℕ → Node) (i : ℕ) (e : List UInt8) (es : List (List UInt8)) :
    walk V i (e :: es) = (child V i e).bind fun j => walk V j es :=
  rfl

theorem target_false (V : ℕ → Node) : ∀ (es : List (List UInt8)) (i : ℕ),
    target V false i es = walk V i es
  | [], _ => rfl
  | e :: es, i => by
    rw [walk_cons, target, child]
    by_cases hdir : (V i).type = T_DIR
    · rw [if_neg (not_not.2 hdir), if_neg (by simp), if_pos hdir]
      exact congrArg _ (funext fun j => target_false V es j)
    · rw [if_pos hdir, if_neg hdir]
      rfl

theorem target_true_type (V : ℕ → Node) : ∀ (es : List (List UInt8)) (i d : ℕ),
    target V true i es = some d → (V d).type = T_DIR
  | [], _, _, h => by simp [target] at h
  | e :: es, i, d, h => by
    unfold target at h
    split_ifs at h with hdir hlast
    · exact some.inj h ▸ not_not.1 hdir
    · obtain ⟨j, -, hj⟩ := bind_eq_some_iff.1 h
      exact target_true_type V es j d hj

/-- The target of `nameiparent` is the walk but for the last name. -/
theorem target_true (V : ℕ → Node) : ∀ (es : List (List UInt8)) (i : ℕ), es ≠ [] →
    target V true i es =
      (walk V i es.dropLast).bind fun d => if (V d).type = T_DIR then some d else none
  | [], _, h => absurd rfl h
  | [e], i, _ => by
    by_cases hdir : (V i).type = T_DIR <;> simp [target, walk, hdir]
  | e :: e' :: es, i, _ => by
    rw [List.dropLast_cons_cons, walk_cons, target, child]
    by_cases hdir : (V i).type = T_DIR
    · rw [if_neg (not_not.2 hdir), if_neg (by simp), if_pos hdir, bind_assoc]
      exact congrArg _ (funext fun j => target_true V (e' :: es) j (List.cons_ne_nil _ _))
    · rw [if_pos hdir, if_neg hdir]
      rfl

/-- The name buffer after elements are copied to it, one after another. -/
def lastElem (es : List (List UInt8)) (name : ℕ → UInt8) : ℕ → UInt8 :=
  es.foldl (fun name e => storeElem e name) name

theorem lastElem_eq {es : List (List UInt8)} {e : List UInt8} (h : es.getLast? = some e)
    (name : ℕ → UInt8) {j : ℕ} (hj : j < DIRSIZ) (hje : j ≤ e.length) :
    lastElem es name j = cstr e j := by
  obtain ⟨es, rfl⟩ := List.getLast?_eq_some_iff.1 h
  rw [lastElem, List.foldl_append, List.foldl_cons, List.foldl_nil, storeElem, cstr]
  by_cases hlen : DIRSIZ ≤ e.length
  · rw [if_pos hlen, if_pos hj]
  · rw [if_neg hlen]
    split_ifs with hlt heq
    · rfl
    · rw [heq, List.getD_eq_default _ _ le_rfl]
    · omega

theorem nameOf_lastElem {es : List (List UInt8)} {e : List UInt8} (h : es.getLast? = some e)
    (name : ℕ → UInt8) : nameOf (lastElem es name) = nameOf (cstr e) := by
  obtain ⟨es, rfl⟩ := List.getLast?_eq_some_iff.1 h
  rw [lastElem, List.foldl_append, List.foldl_cons, List.foldl_nil, nameOf_storeElem]

/-- The directory in which the last element of a path is looked up. -/
def parentOf (V : ℕ → Node) (i : ℕ) (es : List (List UInt8)) : Option ℕ :=
  if es = [] then none
  else (walk V i es.dropLast).filter fun d => (V d).type = T_DIR

theorem target_true_eq (V : ℕ → Node) (i : ℕ) (es : List (List UInt8)) :
    target V true i es = parentOf V i es := by
  unfold parentOf
  by_cases hes : es = []
  · subst hes
    rfl
  · rw [target_true V es i hes, if_neg hes]
    cases walk V i es.dropLast with
    | none => rfl
    | some d =>
      by_cases hdir : (V d).type = T_DIR
      · simp [Option.filter, hdir]
      · simp [Option.filter, hdir]

/-- The last element names no file in a directory that is there. -/
def Missing (V : ℕ → Node) (i : ℕ) (es : List (List UInt8)) : Prop :=
  ∃ d e, parentOf V i es = some d ∧ es.getLast? = some e ∧ child V d e = none

theorem not_missing_of_none {V : ℕ → Node} {i : ℕ} {es : List (List UInt8)}
    (h : target V true i es = none) : ¬ Missing V i es := by
  rintro ⟨d, e, hd, -, -⟩
  rw [← target_true_eq, h] at hd
  exact some_ne_none d hd.symm

/-- The callers of `nameiparent` look up what is in the buffer. -/
theorem missing_iff {V : ℕ → Node} {i d : ℕ} {es : List (List UInt8)}
    (h : target V true i es = some d) (name : ℕ → UInt8) :
    Missing V i es ↔ (V d).find (nameOf (lastElem es name)) = none := by
  have hdir := target_true_type V es i d h
  have hne : es ≠ [] := by
    rintro rfl
    exact some_ne_none d h.symm
  obtain ⟨e, he⟩ := ne_none_iff_exists'.1 (mt List.getLast?_eq_none_iff.1 hne)
  have hchild : child V d e = none ↔ (V d).find (nameOf (lastElem es name)) = none := by
    rw [child, if_pos hdir, nameOf_lastElem he, Node.lookup, Node.find, lookup_eq_none_iff,
      find_eq_none_iff]
  rw [← hchild]
  constructor
  · rintro ⟨d', e', hd', he', hc⟩
    rw [← target_true_eq, h, some.injEq] at hd'
    rw [he, some.injEq] at he'
    rw [hd', he']
    exact hc
  · exact fun hc => ⟨d, e, target_true_eq V i es ▸ h, he, hc⟩

theorem InvX.crowded {X : Finset ℕ} {R L : Multiset (Iptr × ℕ)} {B : Finset Iptr} {s : FS}
    (h : InvX X R L B s) (hfull : ∀ l, (s.icache l).ref ≠ 0) :
    NINODE ≤ (L.map Prod.fst).toFinset.card := by
  have huniv : (L.map Prod.fst).toFinset = Finset.univ := by
    refine Finset.eq_univ_of_forall fun l => Multiset.mem_toFinset.2 ?_
    have hl := hfull l
    rw [h.ref l] at hl
    exact Multiset.count_ne_zero.1 fun h0 => hl (by rw [h0]; rfl)
  rw [huniv, Finset.card_univ, Fintype.card_fin]

section

variable {R L : Multiset (Iptr × ℕ)}

/-- The loop of `namex` from a reference to inode `i`. Without dangling entries the only way to
fail is that the cache is full. -/
theorem namexLoop_spec (parent : Bool) (hR : R ≤ L) : ∀ (fuel : ℕ) (k : Iptr) (i : ℕ)
    (path : List UInt8) (name : ℕ → UInt8) (s : FS), Inv R ((k, i) ::ₘ L) ∅ s →
    WfDirs (ninum s.sb) (view s) → path.length < fuel →
    wp (namexLoop parent fuel k path name)
      (Walked R L (target (view s) parent i (elems path)) (lastElem (elems path) name) s)
      (fun x _ => NoDangling (view s) → (view s i).type ≠ 0 →
        x = .panic "iget: no inodes" ∧ NINODE ≤ (L.map Prod.fst).toFinset.card + 1) s := by
  intro fuel
  induction fuel with
  | zero => exact fun _ _ _ _ _ _ _ hlen => absurd hlen (Nat.not_lt_zero _)
  | succ fuel ih =>
    intro k i path name s h hwf hlen
    have hk : (k, i) ∈ (k, i) ::ₘ L := Multiset.mem_cons_self _ _
    unfold namexLoop
    cases hskip : skipelem path name with
    | none =>
      dsimp only
      rw [skipelem_none hskip]
      cases parent with
      | true =>
        rw [if_pos rfl]
        refine wp_seq_total (iput_keep h (Finset.notMem_empty k) hR) ?_
        rintro _ s1 ⟨h1, hq⟩
        exact ⟨hq, rfl, h1⟩
      | false =>
        rw [if_neg Bool.false_ne_true, wp_pure]
        exact ⟨Quiet.refl s, k, rfl, h⟩
    | some q =>
      obtain ⟨rest, name'⟩ := q
      have hrest := skipelem_length hskip
      obtain ⟨e, helems, rfl, hnil⟩ := skipelem_some hskip
      dsimp only
      rw [helems, lastElem, List.foldl_cons, ← lastElem]
      refine wp_seq (wp_mono' (ilock_spec h hk) (fun _ _ => id) fun _ _ hx _ htype => ?_) ?_
      · exact absurd htype (not_not.2 (hx.resolve_left (Finset.notMem_empty k)))
      rintro _ s1 ⟨-, -, h1, hq1⟩
      have hkB : k ∈ insert k (∅ : Finset Iptr) := Finset.mem_insert_self _ _
      have herase : (insert k (∅ : Finset Iptr)).erase k = ∅ :=
        Finset.erase_insert (Finset.notMem_empty k)
      have hl1 := h1.loaded hk hkB
      have hsb1 : s1.sb = s.sb := congrArg Env.sb hq1.env
      have hty1 : (s1.icache k).din.type = (view s i).type := by
        rw [← h1.store.type_eq hl1, hq1.view_eq]
      -- every way out gives the directory back
      have hput : ∀ (s2 : FS) (L' : Multiset (Iptr × ℕ)),
          Inv R ((k, i) ::ₘ L') (insert k ∅) s2 → R ≤ L' → Quiet s s2 →
          wp (iunlockput k) (fun _ s3 => Inv R L' ∅ s3 ∧ Quiet s s3) (fun _ _ => False) s2 := by
        intro s2 L' h2 hL' hq2
        refine wp_mono (iunlockput_keep h2 hkB hL') ?_
        rintro _ s3 ⟨h3, hq3⟩
        exact ⟨herase ▸ h3, hq2.trans hq3⟩
      have hfail : ∀ (E : Stop → FS → Prop) (s2 : FS), Inv R ((k, i) ::ₘ L) (insert k ∅) s2 →
          Quiet s s2 →
          wp (do
              iunlockput k
              return none) (Walked R L none (lastElem (elems rest) (storeElem e name)) s) E s2 := by
        intro E s2 h2 hq2
        refine wp_seq_total (hput s2 L h2 hR hq2) ?_
        rintro _ s3 ⟨h3, hq3⟩
        exact ⟨hq3, rfl, h3⟩
      rw [wp_bind, wp_get, target]
      by_cases htype : (view s i).type ≠ T_DIR
      · rw [if_pos (hty1 ▸ htype), if_pos htype]
        exact hfail _ s1 h1 hq1
      rw [if_neg (hty1 ▸ htype), if_neg htype]
      have hdir : (view s i).type = T_DIR := not_not.1 htype
      by_cases hstop : parent = true ∧ rest = []
      · rw [if_pos hstop, if_pos ⟨hstop.1, hnil.1 hstop.2⟩, hstop.2, elems_nil]
        refine wp_seq_total (iunlock_spec h1 hkB) ?_
        rintro _ s2 ⟨h2, hq2⟩
        rw [herase] at h2
        exact ⟨hq1.trans hq2, k, rfl, h2⟩
      rw [if_neg hstop, if_neg fun hs => hstop ⟨hs.1, hnil.2 hs.2⟩]
      have hwf1 : WfDirs (ninum s1.sb) (view s1) := by
        rw [hsb1, hq1.view_eq]
        exact hwf
      refine wp_seq (wp_mono' (dirlookup_inv h1 hk hkB hwf1 (storeElem e name)) (fun _ _ => id)
        fun x _ hx _ _ => ?_) ?_
      · obtain ⟨hx, hfull⟩ := hx (by rw [hq1.view_eq]; exact hdir)
        refine ⟨hx, (h1.crowded hfull).trans ?_⟩
        rw [Multiset.map_cons, Multiset.toFinset_cons]
        exact Finset.card_insert_le _ _
      rintro r s2 ⟨-, hr⟩
      rw [hq1.view_eq, nameOf_storeElem] at hr
      cases hf : (view s i).find (nameOf (cstr e)) with
      | none =>
        rw [hf] at hr
        obtain ⟨rfl, rfl⟩ := hr
        rw [Node.lookup, SlotMap.lookup, ← Node.find, hf]
        exact hfail _ _ h1 hq1
      | some e' =>
        rw [hf] at hr
        obtain ⟨ip, j, hj, rfl, h2, hq2⟩ := hr
        have hlook : (view s i).lookup (nameOf (cstr e)) = some j := by
          rw [Node.lookup, SlotMap.lookup, ← Node.find, hf, bind_some, hj]
          rfl
        rw [hlook, bind_some]
        dsimp only
        rw [Multiset.cons_swap] at h2
        have hq2' := hq1.trans hq2
        refine wp_seq_total (hput s2 ((ip, j) ::ₘ L) h2 (hR.trans (Multiset.le_cons_self _ _))
          hq2') ?_
        rintro _ s3 ⟨h3, hq3⟩
        have hsb3 : s3.sb = s.sb := congrArg Env.sb hq3.env
        have hnext := ih ip j rest (storeElem e name) s3 h3
          (by rw [hsb3, hq3.view_eq]; exact hwf) (by omega)
        rw [hq3.view_eq] at hnext
        exact wp_mono' hnext (fun _ _ hw => hw.of_quiet hq3) fun x _ hx hno _ =>
          hx hno (hno i hdir e' (find_eq_some hf).1 _ j hj)

variable {s : FS} {p : Fin NPROC}

/-- The inode a path starts from : the root, or the current directory. -/
def startInode (s : FS) (p : Fin NPROC) (path : List UInt8) : ℕ :=
  if path.head? = some slash then ROOTINO
  else
    match (s.procs p).cwd with
    | some k => (s.icache k).inum
    | none => 0

/-- How `namex` stops when no entry dangles : the cache is full, or the path starts from a current
directory that is not there. -/
def Stuck (L : Multiset (Iptr × ℕ)) (s : FS) (p : Fin NPROC)
    (path : List UInt8) (x : Stop) : Prop :=
  NoDangling (view s) → (view s ROOTINO).type ≠ 0 → (∀ q ∈ L, (view s q.2).type ≠ 0) →
    x = .panic "iget: no inodes" ∧ NINODE ≤ (L.map Prod.fst).toFinset.card + 1 ∨
      x = .panic "trap" ∧ path.head? ≠ some slash ∧ (s.procs p).cwd = none

/-- `namex` returns one reference more, or the references there were. -/
theorem namex_spec (h : Inv R L ∅ s) (hwf : WfDirs (ninum s.sb) (view s))
    (hroot : ROOTINO < ninum s.sb) (hcwd : ∀ k, (s.procs p).cwd = some k → ∃ i, (k, i) ∈ L)
    (path : List UInt8) (parent : Bool) :
    wp (namex p path parent)
      (Walked R L (target (view s) parent (startInode s p path) (elems path))
        (lastElem (elems path) s.stack) s)
      (fun x _ => Stuck L s p path x) s := by
  have hloop : ∀ (k : Iptr) (i : ℕ) (s1 : FS), Inv R ((k, i) ::ₘ L) ∅ s1 → Quiet s s1 →
      wp (namexLoop parent (path.length + 1) k path s.stack)
        (Walked R L (target (view s) parent i (elems path)) (lastElem (elems path) s.stack) s)
        (fun x _ => NoDangling (view s) → (view s i).type ≠ 0 →
          x = .panic "iget: no inodes" ∧ NINODE ≤ (L.map Prod.fst).toFinset.card + 1) s1 := by
    intro k i s1 h1 hq
    have hsb : s1.sb = s.sb := congrArg Env.sb hq.env
    have hspec := namexLoop_spec parent h.le _ k i path s.stack s1 h1
      (by rw [hsb, hq.view_eq]; exact hwf) (Nat.lt_succ_self _)
    rw [hq.view_eq] at hspec
    exact wp_mono' hspec (fun _ _ hw => hw.of_quiet hq) fun _ _ => id
  unfold namex startInode
  rw [wp_bind, wp_get]
  by_cases hslash : path.head? = some slash
  · rw [if_pos hslash, if_pos hslash]
    refine wp_seq (wp_mono' (iget_spec h (le_refl 1) hroot) (fun _ _ => id)
      fun _ _ hx _ _ _ => .inl ⟨hx.1, ?_⟩) ?_
    · exact (h.crowded fun l => (hx.2 l).1).trans (Nat.le_succ _)
    rintro k s1 ⟨h1, hq⟩
    exact wp_mono' (hloop k ROOTINO s1 h1 hq) (fun _ _ => id) fun _ _ hx hno hty _ =>
      .inl (hx hno hty)
  · rw [if_neg hslash, if_neg hslash]
    cases hc : (s.procs p).cwd with
    | none => exact fun _ _ _ => .inr ⟨rfl, hslash, hc⟩
    | some cwd =>
      obtain ⟨i, hi⟩ := hcwd cwd hc
      have hinum : (s.icache cwd).inum = i := h.inum _ hi
      dsimp only
      rw [hinum]
      refine wp_seq_total (idup_spec h hi) ?_
      rintro _ s1 ⟨rfl, h1, hq⟩
      exact wp_mono' (hloop _ i s1 h1 hq) (fun _ _ => id) fun _ _ hx hno _ hL =>
        .inl (hx hno (hL _ hi))

end

end Xv6
