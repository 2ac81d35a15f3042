import Xv6.Path

/-!
# The directory tree

What a file-system call does to the files, whatever blocks and slots it uses for it : `Change`
has one rule for each thing that can happen, with what the code checked before. A transaction makes
one change at most, and then frees the files whose last name and last reference are gone
(`Changes`). `K` holds the files something still refers to, which a release does not free.

The directories of a tree begin with `.` and `..` and have no name twice (`Dots`), and every
change keeps it that way : a name is added in a free entry after it was looked for, and what is
removed is neither `.` nor `..`.
-/

open Function Prog Layout SlotMap Option

namespace Xv6

/-- The file with `δ` links more. -/
@[simps -fullyApplied]
def Node.addLinks (nd : Node) (δ : Int16) : Node :=
  { nd with nlink := nd.nlink + δ }

@[simp] theorem Node.addLinks_slot (nd : Node) (δ : Int16) : (nd.addLinks δ).slot = nd.slot :=
  rfl

@[simp] theorem Node.addLinks_nent (nd : Node) (δ : Int16) : (nd.addLinks δ).nent = nd.nent :=
  rfl

@[simp] theorem Node.addLinks_find (nd : Node) (δ : Int16) (name : Name) :
    (nd.addLinks δ).find name = nd.find name := by
  rw [Node.find, addLinks_slot, addLinks_nent, ← Node.find]

@[simp] theorem Node.addLinks_vacant (nd : Node) (δ : Int16) :
    (nd.addLinks δ).vacant = nd.vacant := by
  rw [Node.vacant, addLinks_slot, addLinks_nent, ← Node.vacant]

theorem WfDir.addLinks {n : ℕ} {nd : Node} (h : WfDir n nd) (δ : Int16) :
    WfDir n (nd.addLinks δ) where
  size := h.size
  lt e he name j hj := by
    rw [Node.addLinks_nent] at he
    rw [Node.addLinks_slot] at hj
    exact h.lt e he name j hj

/-- The file of a new directory `i` in `d`, with the entries `.` and `..`. -/
def NewDir (d i : ℕ) (major minor : Int16) (nd : Node) : Prop :=
  ∃ nd1, ((Node.made T_DIR).relink major minor 1).Put 0 (newDirent dot i) nd1 ∧
    nd1.Put 1 (newDirent dotdot d) nd

/-- A change of the files of a disk with `n` inodes. -/
inductive Change (n : ℕ) (K : Set ℕ) (V : ℕ → Node) : (ℕ → Node) → Prop
  /-- A file without links is freed. -/
  | release {i : ℕ} (hi : i ∉ K) (hnlink : (V i).nlink = 0) :
      Change n K V (update V i Node.free)
  /-- File `i` gets a name in `d`. -/
  | link {d i : ℕ} {name : ℕ → UInt8} {nd : Node} (hd : (V d).type = T_DIR) (hi : (V i).type ≠ 0)
      (hdir : (V i).type ≠ T_DIR) (hpos : 1 ≤ i) (hlt : i < n)
      (hfind : (V d).find (nameOf name) = none)
      (hput : (V d).Put (V d).vacant (newDirent name i) nd) :
      Change n K V (update (update V i ((V i).addLinks 1)) d nd)
  /-- The entry of file `i` in `d` goes. -/
  | unlink {d i e : ℕ} {name : Name} {nd : Node} (hd : (V d).type = T_DIR)
      (hdot : name ≠ nameOf dot) (hdotdot : name ≠ nameOf dotdot)
      (hfind : (V d).find name = some e) (hslot : (V d).slot e = some (name, i))
      (hi : (V i).type ≠ 0) (hdir : (V i).type ≠ T_DIR) (hnlink : 1 ≤ (V i).nlink)
      (hput : (V d).Put e noDirent nd) :
      Change n K V (update (update V d nd) i ((V i).addLinks (-1)))
  /-- The entry of the empty directory `i` in `d` goes. -/
  | rmdir {d i e : ℕ} {name : Name} {nd : Node} (hd : (V d).type = T_DIR) (hne : i ≠ d)
      (hdot : name ≠ nameOf dot) (hdotdot : name ≠ nameOf dotdot)
      (hfind : (V d).find name = some e) (hslot : (V d).slot e = some (name, i))
      (hdir : (V i).type = T_DIR) (hnlink : 1 ≤ (V i).nlink)
      (hempty : ∀ e', 2 ≤ e' → e' < (V i).nent → (V i).slot e' = none)
      (hput : (V d).Put e noDirent nd) :
      Change n K V (update (update V d (nd.addLinks (-1))) i
        ((V i).addLinks (-1)))
  /-- A new file or device `i` with a name in `d`. -/
  | make {d i : ℕ} {type major minor : Int16} {name : ℕ → UInt8} {nd : Node}
      (hd : (V d).type = T_DIR) (hfree : (V i).type = 0) (htype : type ≠ 0) (hdir : type ≠ T_DIR)
      (hpos : 1 ≤ i) (hlt : i < n) (hfind : (V d).find (nameOf name) = none)
      (hput : (V d).Put (V d).vacant (newDirent name i) nd) :
      Change n K V (update
        (update V i ((Node.made type).relink major minor 1)) d nd)
  /-- A new directory `i` with a name in `d`. -/
  | mkdir {d i : ℕ} {major minor : Int16} {name : ℕ → UInt8} {nd ndi : Node}
      (hd : (V d).type = T_DIR) (hfree : (V i).type = 0) (hpos : 1 ≤ i) (hlt : i < n)
      (hdpos : 1 ≤ d) (hdlt : d < n) (hnew : NewDir d i major minor ndi)
      (hfind : (V d).find (nameOf name) = none)
      (hput : ((V d).addLinks 1).Put (V d).vacant (newDirent name i) nd) :
      Change n K V (update (update V i ndi) d nd)

/-- Files without links that nothing refers to are freed. -/
abbrev Frees (K : Set ℕ) : (ℕ → Node) → (ℕ → Node) → Prop :=
  Relation.ReflTransGen fun V V' => ∃ i ∉ K, (V i).nlink = 0 ∧ V' = update V i Node.free

/-- What a transaction does : it makes a change, or none, and then frees files. -/
def Changes (n : ℕ) (K : Set ℕ) (V V' : ℕ → Node) : Prop :=
  ∃ W, (W = V ∨ Change n K V W) ∧ Frees K W V'

section

variable {n : ℕ} {K : Set ℕ} {V V' V'' : ℕ → Node}

theorem Changes.refl : Changes n K V V :=
  ⟨V, .inl rfl, .refl⟩

theorem Changes.single (h : Change n K V V') : Changes n K V V' :=
  ⟨V', .inr h, .refl⟩

/-- What every change keeps, a transaction keeps. -/
theorem Changes.induction {P : (ℕ → Node) → Prop} (h : Changes n K V V') (hV : P V)
    (hstep : ∀ W W', P W → Change n K W W' → P W') : P V' := by
  obtain ⟨W, hW, hf⟩ := h
  have hPW : P W := hW.elim (fun he => he ▸ hV) (hstep V W hV)
  induction hf with
  | refl => exact hPW
  | tail _ hfree ih =>
    obtain ⟨i, hi, hnlink, rfl⟩ := hfree
    exact hstep _ _ ih (.release hi hnlink)

theorem Changes.frees (h : Changes n K V V') (hf : Frees K V' V'') : Changes n K V V'' := by
  obtain ⟨W, hW, hf'⟩ := h
  exact ⟨W, hW, hf'.trans hf⟩

theorem Frees.mono {K' : Set ℕ} (hK : K' ⊆ K) (h : Frees K V V') : Frees K' V V' := by
  refine Relation.ReflTransGen.mono (fun _ _ => ?_) _ _ h
  rintro ⟨i, hi, hfree⟩
  exact ⟨i, fun hmem => hi (hK hmem), hfree⟩

end

/-! ## Types -/

section

variable {n : ℕ} {K : Set ℕ} {V V' : ℕ → Node}

theorem NewDir.type {d i : ℕ} {major minor : Int16} {nd : Node} (h : NewDir d i major minor nd) :
    nd.type = T_DIR := by
  obtain ⟨nd1, h1, h2⟩ := h
  rw [h2.type, h1.type]
  rfl

theorem Change.mono {K' : Set ℕ} (hK : K' ⊆ K) (h : Change n K V V') : Change n K' V V' := by
  cases h with
  | release hi hnlink => exact .release (fun hmem => hi (hK hmem)) hnlink
  | link hd hi hdir hpos hlt hfind hput => exact .link hd hi hdir hpos hlt hfind hput
  | unlink hd hdot hdotdot hfind hslot hi hdir hnlink hput =>
    exact .unlink hd hdot hdotdot hfind hslot hi hdir hnlink hput
  | rmdir hd hne hdot hdotdot hfind hslot hdir hnlink hempty hput =>
    exact .rmdir hd hne hdot hdotdot hfind hslot hdir hnlink hempty hput
  | make hd hfree htype hdir hpos hlt hfind hput =>
    exact .make hd hfree htype hdir hpos hlt hfind hput
  | mkdir hd hfree hpos hlt hdpos hdlt hnew hfind hput =>
    exact .mkdir hd hfree hpos hlt hdpos hdlt hnew hfind hput

theorem Changes.mono {K' : Set ℕ} (hK : K' ⊆ K) (h : Changes n K V V') : Changes n K' V V' := by
  obtain ⟨W, hW, hf⟩ := h
  exact ⟨W, hW.imp_right (Change.mono hK), hf.mono hK⟩

end

/-! ## Directories -/

section

variable {nd nd' : Node} {e : ℕ} {de : Dirent}

theorem Node.Put.slot (h : nd.Put e de nd') (e' : ℕ) :
    nd'.slot e' = if e' = e then de.slot else nd.slot e' := by
  unfold Node.slot
  rw [h.dirent]
  split_ifs <;> rfl

theorem newDirent_lt {n i : ℕ} (hi : i < n) (name : ℕ → UInt8) (name' : Name) (j : ℕ)
    (h : (newDirent name i).slot = some (name', j)) : j < n := by
  unfold Dirent.slot at h
  split_ifs at h with h0
  obtain ⟨-, rfl⟩ := Prod.mk.inj (some.inj h)
  have hle : (newDirent name i).inum.toNat ≤ i := by
    show (UInt16.ofNat i).toNat ≤ i
    rw [UInt16.toNat_ofNat']
    exact Nat.mod_le _ _
  exact hle.trans_lt hi

end

/-- A directory : whole entries that name inodes below `n`, no name twice, `.` for itself first
and `..` second. -/
structure DirOk (n i : ℕ) (nd : Node) : Prop extends WfDir n nd where
  two : 2 ≤ nd.nent
  self : nd.slot 0 = some (nameOf dot, i)
  parent : ∃ j, nd.slot 1 = some (nameOf dotdot, j)
  distinct : SlotMap.Distinct nd.slot nd.nent

/-- Every directory of the tree begins with its dots. -/
def Dots (n : ℕ) (V : ℕ → Node) : Prop :=
  ∀ i, (V i).type = T_DIR → DirOk n i (V i)

theorem nameOf_dot_ne : nameOf dot ≠ nameOf dotdot := by
  intro h
  have h1 := congrFun h ⟨1, by decide⟩
  revert h1
  decide

section

variable {n i : ℕ} {nd nd' : Node}

/-- The dots of a new directory. -/
theorem NewDir.dirOk {d : ℕ} {major minor : Int16} (h : NewDir d i major minor nd)
    (hpos : 1 ≤ i) (hlt : i < n) (hdpos : 1 ≤ d) (hdlt : d < n) (hn : n ≤ 2 ^ 16) :
    DirOk n i nd ∧ nd.nent = 2 ∧ nd.slot 1 = some (nameOf dotdot, d) ∧ nd.nlink = 1 := by
  obtain ⟨nd1, h1, h2⟩ := h
  have hs1 : (newDirent dot i).slot = some (nameOf dot, i) :=
    newDirent_slot dot (by omega) (hlt.trans_le hn)
  have hs2 : (newDirent dotdot d).slot = some (nameOf dotdot, d) :=
    newDirent_slot dotdot (by omega) (hdlt.trans_le hn)
  have hsize1 : nd1.size = 16 := h1.size
  have hsize : nd.size = 32 := by
    rw [h2.size, hsize1]
    rfl
  have hnent : nd.nent = 2 := by
    rw [Node.nent, hsize]
    rfl
  have hdot : nd.slot 0 = some (nameOf dot, i) := by
    rw [h2.slot, if_neg (by decide), h1.slot, if_pos rfl, hs1]
  have hdotdot : nd.slot 1 = some (nameOf dotdot, d) := by
    rw [h2.slot, if_pos rfl, hs2]
  have hcases : ∀ e < nd.nent, e = 0 ∨ e = 1 := by
    intro e he
    omega
  refine ⟨⟨⟨?_, fun e he name j hj => ?_⟩, hnent.ge, hdot, ⟨d, hdotdot⟩, ?_⟩, hnent, hdotdot, ?_⟩
  · rw [hsize]
    exact ⟨2, rfl⟩
  · rcases hcases e he with rfl | rfl
    · rw [hdot] at hj
      exact (Prod.mk.inj (some.inj hj)).2 ▸ hlt
    · rw [hdotdot] at hj
      exact (Prod.mk.inj (some.inj hj)).2 ▸ hdlt
  · intro e he e' he' k a a' hk hk'
    rcases hcases e he with rfl | rfl <;> rcases hcases e' he' with rfl | rfl
    · rfl
    · rw [hdot] at hk
      rw [hdotdot] at hk'
      exact absurd ((Prod.mk.inj (some.inj hk)).1.trans
        (Prod.mk.inj (some.inj hk')).1.symm) nameOf_dot_ne
    · rw [hdotdot] at hk
      rw [hdot] at hk'
      exact absurd ((Prod.mk.inj (some.inj hk')).1.trans
        (Prod.mk.inj (some.inj hk)).1.symm) nameOf_dot_ne
    · rfl
  · rw [h2.nlink, h1.nlink]
    rfl

theorem Dots.update {V : ℕ → Node} (h : Dots n V) (hnd : nd.type = T_DIR → DirOk n i nd) :
    Dots n (update V i nd) := by
  intro j hj
  by_cases hji : j = i
  · subst hji
    rw [update_self] at hj ⊢
    exact hnd hj
  · rw [update_of_ne hji] at hj ⊢
    exact h j hj

theorem DirOk.addLinks (h : DirOk n i nd) (δ : Int16) : DirOk n i (nd.addLinks δ) :=
  { h with }

/-- An entry after the dots changes. -/
theorem DirOk.put {e : ℕ} {de : Dirent} (h : DirOk n i nd) (hput : nd.Put e de nd') (h2 : 2 ≤ e)
    (hle : e ≤ nd.nent) (hlt : ∀ name j, de.slot = some (name, j) → j < n)
    (hd : SlotMap.Distinct nd'.slot nd'.nent) : DirOk n i nd' := by
  obtain ⟨j, hj⟩ := h.parent
  have hnent : nd.nent ≤ nd'.nent := by
    rw [Node.nent, Node.nent, hput.size]
    exact Nat.div_le_div_right (le_max_left _ _)
  refine ⟨h.toWfDir.put hput hle hlt, h.two.trans hnent, ?_, ⟨j, ?_⟩, hd⟩
  · rw [hput.slot, if_neg (by omega), h.self]
  · rw [hput.slot, if_neg (by omega), hj]

/-- The dots are the first two entries. -/
theorem DirOk.two_le {e : ℕ} (h : DirOk n i nd)
    (he : ∀ x, nd.slot e = some x → x.1 ≠ nameOf dot ∧ x.1 ≠ nameOf dotdot) : 2 ≤ e := by
  obtain ⟨j, hj⟩ := h.parent
  by_contra hlt
  obtain rfl | rfl : e = 0 ∨ e = 1 := by omega
  · exact (he _ h.self).1 rfl
  · exact (he _ hj).2 rfl

/-- A new name keeps the dots. -/
theorem DirOk.link {name : ℕ → UInt8} {j : ℕ} (h : DirOk n i nd) (hpos : 1 ≤ j) (hlt : j < n)
    (hn : n ≤ 2 ^ 16) (hfind : nd.find (nameOf name) = none)
    (hput : nd.Put nd.vacant (newDirent name j) nd') : DirOk n i nd' := by
  have hle : nd.vacant ≤ nd.nent := vacant_le _ _
  have h2 : 2 ≤ nd.vacant := by
    by_contra hlt2
    refine hlt2 (h.two_le fun x hx => ?_)
    have hnone := vacant_eq_none ((not_le.1 hlt2).trans_le h.two)
    exact absurd (hx.symm.trans hnone) (some_ne_none x)
  have hfills := hput.fills h.size hle
  rw [newDirent_slot name (by omega) (hlt.trans_le hn)] at hfills
  exact h.put hput h2 hle (newDirent_lt hlt name) (h.distinct.fill hfills vacant_eq_none hfind).1

/-- So does the loss of another. -/
theorem DirOk.unlink {name : Name} {e : ℕ} (h : DirOk n i nd) (hdot : name ≠ nameOf dot)
    (hdotdot : name ≠ nameOf dotdot) (hfind : nd.find name = some e)
    (hput : nd.Put e noDirent nd') : DirOk n i nd' := by
  obtain ⟨he, j, hj⟩ := find_eq_some hfind
  have h2 : 2 ≤ e := h.two_le fun x hx => by
    obtain rfl := some.inj (hj.symm.trans hx)
    exact ⟨hdot, hdotdot⟩
  exact h.put hput h2 he.le (fun _ _ hno => nomatch hno)
    (h.distinct.empty (hput.fills h.size he.le) hfind).1

/-- A change keeps the dots. -/
theorem Dots.change {K : Set ℕ} {V V' : ℕ → Node} (hn : n ≤ 2 ^ 16) (h : Dots n V)
    (hc : Change n K V V') : Dots n V' := by
  cases hc with
  | release hi hnlink => exact h.update fun hty => absurd hty (by decide)
  | link hd hi hdir hpos hlt hfind hput =>
    refine (h.update fun hty => ?_).update fun _ => (h _ hd).link hpos hlt hn hfind hput
    exact absurd hty hdir
  | unlink hd hdot hdotdot hfind hslot hi hdir hnlink hput =>
    refine (h.update fun _ => (h _ hd).unlink hdot hdotdot hfind hput).update fun hty => ?_
    rw [Node.addLinks_type] at hty
    exact absurd hty hdir
  | rmdir hd hne hdot hdotdot hfind hslot hdir hnlink hempty hput =>
    exact (h.update fun _ => ((h _ hd).unlink hdot hdotdot hfind hput).addLinks _).update
      fun _ => (h _ hdir).addLinks _
  | make hd hfree htype hdir hpos hlt hfind hput =>
    refine (h.update fun hty => ?_).update fun _ => (h _ hd).link hpos hlt hn hfind hput
    exact absurd hty hdir
  | mkdir hd hfree hpos hlt hdpos hdlt hnew hfind hput =>
    refine (h.update fun _ => (hnew.dirOk hpos hlt hdpos hdlt hn).1).update fun _ => ?_
    exact ((h _ hd).addLinks 1).link hpos hlt hn hfind hput

theorem Dots.wfDirs {V : ℕ → Node} (h : Dots n V) : WfDirs n V :=
  fun i hi => (h i hi).toWfDir

end

end Xv6
