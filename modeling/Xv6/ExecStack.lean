import Xv6.Copyout

/-!
# The argument stack

`exec` copies the argument strings and the words of `ustack` to the top of the new address space,
downwards. The page below the stack page has no user access, and every copy that leaves the stack
page covers its last byte, so that `copyout` refuses it : `exec` builds the stack exactly if all of
it fits in one page (`pushStack_correct`), and then the user finds it complete at the initial
`esp` (`ArgStack`).
-/

open Layout List
open Prog

namespace Xv6.Vm

/-! ## Stack pointers -/

/-- `sp` after the string `s` is pushed. -/
def argSp (sp : UInt32) (s : List UInt8) : UInt32 :=
  (sp - UInt32.ofNat (s.length + 1)) &&& ~~~3

/-- The pointers to the strings. -/
def argPtrs : UInt32 → List (List UInt8) → List UInt32
  | _, [] => []
  | sp, s :: argv => argSp sp s :: argPtrs (argSp sp s) argv

/-- `sp` after the strings are pushed. -/
def stringsSp (sp : UInt32) (argv : List (List UInt8)) : UInt32 :=
  argv.foldl argSp sp

def ustack (sz : UInt32) (argv : List (List UInt8)) : List UInt32 :=
  0xffffffff :: UInt32.ofNat argv.length ::
    (stringsSp sz argv - (UInt32.ofNat argv.length + 1) * 4) :: argPtrs sz argv ++ [0]

/-- The initial `esp` of the program. -/
def initialEsp (sz : UInt32) (argv : List (List UInt8)) : UInt32 :=
  stringsSp sz argv - (3 + UInt32.ofNat argv.length + 1) * 4

/-- Bytes of a string with its terminator and the padding. -/
def padded (s : List UInt8) : ℕ :=
  (s.length + 4) / 4 * 4

/-- Bytes of the strings. -/
def stringBytes (argv : List (List UInt8)) : ℕ :=
  (argv.map padded).sum

/-- Bytes of the strings and of `ustack`. -/
def stackBytes (argv : List (List UInt8)) : ℕ :=
  stringBytes argv + 4 * (argv.length + 4)

section

variable {sp : UInt32} {s : List UInt8} {argv : List (List UInt8)}

theorem and_not_three (w : UInt32) : (w &&& ~~~3).toNat = w.toNat / 4 * 4 := by
  have hw := w.toNat_lt
  have hand : (w &&& ~~~3).toNat = w.toNat &&& 4294967292 := by
    rw [UInt32.toNat_and]
    rfl
  have hdiv : (w.toNat &&& 4294967292) / 2 ^ 2 = w.toNat / 2 ^ 2 := by
    rw [← Nat.shiftRight_eq_div_pow, ← Nat.shiftRight_eq_div_pow, Nat.shiftRight_and_distrib,
      show 4294967292 >>> 2 = 2 ^ 30 - 1 by decide, Nat.and_two_pow_sub_one_eq_mod]
    exact Nat.mod_eq_of_lt (by rw [Nat.shiftRight_eq_div_pow]; omega)
  have hmod : (w.toNat &&& 4294967292) % 2 ^ 2 = 0 := by
    rw [Nat.and_mod_two_pow, show 4294967292 % 2 ^ 2 = 0 by decide, Nat.and_zero]
  rw [hand]
  omega

theorem argSp_toNat (h4 : sp.toNat % 4 = 0) (hle : padded s ≤ sp.toNat) :
    (argSp sp s).toNat = sp.toNat - padded s := by
  have hsp := sp.toNat_lt
  unfold padded at *
  have hlen : (UInt32.ofNat (s.length + 1)).toNat = s.length + 1 := by
    rw [UInt32.toNat_ofNat']
    omega
  rw [argSp, and_not_three,
    UInt32.toNat_sub_of_le _ _ (by rw [UInt32.le_iff_toNat_le]; omega), hlen]
  omega

theorem padded_mod (s : List UInt8) : padded s % 4 = 0 := by
  unfold padded
  omega

@[simp] theorem stringBytes_cons : stringBytes (s :: argv) = padded s + stringBytes argv := by
  simp [stringBytes]

theorem stringBytes_mod : ∀ argv : List (List UInt8), stringBytes argv % 4 = 0
  | [] => rfl
  | s :: argv => by
    have := padded_mod s
    have := stringBytes_mod argv
    rw [stringBytes_cons]
    omega

@[simp] theorem length_argPtrs : ∀ (argv : List (List UInt8)) (sp : UInt32),
    (argPtrs sp argv).length = argv.length
  | [], _ => rfl
  | _ :: argv, _ => congrArg (· + 1) (length_argPtrs argv _)

theorem stringsSp_toNat : ∀ (argv : List (List UInt8)) (sp : UInt32), sp.toNat % 4 = 0 →
    stringBytes argv ≤ sp.toNat → (stringsSp sp argv).toNat = sp.toNat - stringBytes argv
  | [], sp, _, _ => by simp [stringsSp, stringBytes]
  | s :: argv, sp, h4, hle => by
    rw [stringBytes_cons] at hle ⊢
    have hs := argSp_toNat (s := s) h4 (by omega)
    have := padded_mod s
    have ih := stringsSp_toNat argv (argSp sp s) (by omega) (by omega)
    rw [stringsSp, foldl_cons, ← stringsSp, ih, hs]
    omega

theorem argPtrs_pairwise : ∀ (argv : List (List UInt8)) (sp : UInt32), sp.toNat % 4 = 0 →
    stringBytes argv ≤ sp.toNat →
    (∀ q ∈ (argPtrs sp argv).zip argv, sp.toNat - stringBytes argv ≤ q.1.toNat ∧
      q.1.toNat + (q.2.length + 1) ≤ sp.toNat) ∧
    ((argPtrs sp argv).zip argv).Pairwise fun q q' =>
      q'.1.toNat + (q'.2.length + 1) ≤ q.1.toNat
  | [], sp, _, _ => by simp [argPtrs]
  | s :: argv, sp, h4, hle => by
    rw [stringBytes_cons] at hle ⊢
    have hs := argSp_toNat (s := s) h4 (by omega)
    have hmod := padded_mod s
    have hlen : s.length + 1 ≤ padded s := by
      unfold padded
      omega
    obtain ⟨hin, hpair⟩ := argPtrs_pairwise argv (argSp sp s) (by omega) (by omega)
    rw [argPtrs, zip_cons_cons]
    refine ⟨fun q hq => ?_, pairwise_cons.2 ⟨fun q hq => (hin q hq).2, hpair⟩⟩
    rcases mem_cons.1 hq with rfl | hq
    · dsimp only
      omega
    · have := hin q hq
      omega

end

/-! ## Words of user memory -/

/-- The word at the address `n` of the address space `d`. -/
def Mem.userWord (v : Mem) (d n : ℕ) : UInt32 :=
  Codec.u32.ofByte fun k => v.userByte d (n + k)

/-- The bytes of words. -/
def wordBytes (ws : List UInt32) : List UInt8 :=
  ws.flatMap fun w => (List.range 4).map (Codec.u32.toByte w)

@[simp] theorem length_wordBytes (ws : List UInt32) : (wordBytes ws).length = 4 * ws.length := by
  simp [wordBytes, length_flatMap, Nat.mul_comm]

theorem getD_wordBytes {k : ℕ} (hk : k < 4) : ∀ (ws : List UInt32) (i : ℕ), i < ws.length →
    (wordBytes ws).getD (4 * i + k) 0 = Codec.u32.toByte (ws.getD i 0) k
  | [], _, h => absurd h (by simp)
  | w :: ws, 0, _ => by
    rw [wordBytes, flatMap_cons, getD_append _ _ _ _ (by simpa using hk)]
    simp [hk]
  | w :: ws, i + 1, h => by
    rw [wordBytes, flatMap_cons, getD_append_right _ _ _ _ (by simp; omega)]
    have ih := getD_wordBytes hk ws i (by simpa using h)
    simp only [length_map, length_range, getD_cons_succ]
    rw [← ih, wordBytes, show 4 * (i + 1) + k - 4 = 4 * i + k by omega]

/-- `bytes` stand at the address `n` of the address space `d`. -/
def CopyAt (v : Mem) (d n : ℕ) (bytes : List UInt8) : Prop :=
  ∀ j < bytes.length, v.userByte d (n + j) = bytes.getD j 0

theorem CopyAt.word {v : Mem} {d n i : ℕ} {ws : List UInt32} (h : CopyAt v d n (wordBytes ws))
    (hi : i < ws.length) : v.userWord d (n + 4 * i) = ws.getD i 0 := by
  rw [← Codec.u32.ofByte_toByte (ws.getD i 0)]
  refine Codec.u32.ofByte_congr _ _ fun k hk => ?_
  have hk : k < 4 := hk
  rw [Nat.add_assoc, h _ (by rw [length_wordBytes]; omega), getD_wordBytes hk ws i hi]

/-! ## Loaded images -/

section

variable {v v' v'' : Mem} {cur d n m lo hi : ℕ} {sz : UInt32} {argv : List (List UInt8)}

/-- Only bytes at the addresses from `lo` to `hi` of the address space `d` were written. -/
structure Within (d lo hi : ℕ) (v v' : Mem) : Prop where
  view : SameView v v' d
  outside : ∀ x o, (∀ n, lo ≤ n → n < hi → x = frame (v.pte d (n / PGSIZE)) → o ≠ n % PGSIZE) →
    v'.byte x o = v.byte x o
  freelist : v'.freelist = v.freelist
  fails : v'.fails = v.fails

theorem Within.refl : Within d lo hi v v :=
  ⟨SameView.refl v d, fun _ _ _ => rfl, rfl, rfl⟩

theorem Within.mono (h : Within d lo hi v v') (hlo : n ≤ lo) (hhi : hi ≤ m) : Within d n m v v' :=
  ⟨h.view, fun x o hx => h.outside x o fun k hk hk' => hx k (by omega) (by omega), h.freelist,
    h.fails⟩

theorem Within.trans (h : Within d lo hi v v') (h' : Within d lo hi v' v'') (hhi : hi ≤ 2 ^ 32) :
    Within d lo hi v v'' := by
  refine ⟨h.view.trans h'.view, fun x o hx => ?_, h'.freelist.trans h.freelist,
    h'.fails.trans h.fails⟩
  rw [h'.outside x o, h.outside x o hx]
  intro n hn hn' he
  rw [h.view.pte _ (div_lt_npages (by omega))] at he
  exact hx n hn hn' he

theorem Written.within {len : ℕ} {data : ℕ → UInt8} (h : Written d n len data v v') :
    Within d n (n + len) v v' := by
  refine ⟨h.view, fun x o hx => h.outside x o fun j hj => hx _ (by omega) (by omega), h.freelist,
    h.fails⟩

theorem Within.userByte (h : Within d lo hi v v') (hm : m < 2 ^ 32)
    (hne : ∀ n, lo ≤ n → n < hi → frame (v.pte d (m / PGSIZE)) = frame (v.pte d (n / PGSIZE)) →
      m % PGSIZE ≠ n % PGSIZE) : v'.userByte d m = v.userByte d m := by
  rw [Mem.userByte, Mem.userByte, h.view.pte _ (div_lt_npages (by omega))]
  exact h.outside _ _ hne

/-- An image of `sz` bytes as `exec` leaves it in front of the arguments : a page below the stack
page is not for the user, the stack page is and has a frame of its own. -/
structure Loaded (v : Mem) (d : ℕ) (sz : UInt32) : Prop where
  apart : Apart v d
  aligned : sz.toNat % PGSIZE = 0
  two : 2 * PGSIZE ≤ sz.toNat
  table : ∀ n < sz.toNat / PGSIZE, v.table d (PDX n) ≠ none
  guard : user (v.pte d (sz.toNat / PGSIZE - 2)) = false
  stack : UserPte (v.pte d (sz.toNat / PGSIZE - 1))
  frame : ∀ n < sz.toNat / PGSIZE - 1, present (v.pte d n) = true →
    frame (v.pte d n) ≠ frame (v.pte d (sz.toNat / PGSIZE - 1))

theorem Loaded.mod_four (h : Loaded v d sz) : sz.toNat % 4 = 0 := by
  have := h.aligned
  simp only [PGSIZE] at this
  omega

theorem Loaded.sameView (h : Loaded v d sz) (hview : SameView v v' d) : Loaded v' d sz := by
  have hp : sz.toNat / PGSIZE < NPAGES := div_lt_npages sz.toNat_lt
  refine ⟨h.apart.sameView hview, h.aligned, h.two, fun n hn => ?_, ?_, ?_, fun n hn => ?_⟩
  · rw [hview.table _ (PDX_lt (by omega))]
    exact h.table n hn
  · rw [hview.pte _ ((Nat.sub_le _ _).trans_lt hp)]
    exact h.guard
  · rw [hview.pte _ ((Nat.sub_le _ _).trans_lt hp)]
    exact h.stack
  · rw [hview.pte _ (by omega), hview.pte _ ((Nat.sub_le _ _).trans_lt hp)]
    exact h.frame n hn

theorem Loaded.walkable {len : ℕ} (h : Loaded v d sz) (hn : n + len ≤ sz.toNat) :
    Walkable v d n len := by
  have := h.aligned
  refine fun j hj _ => h.table _ ?_
  simp only [PGSIZE] at *
  omega

/-- The stack page can be written. -/
theorem Loaded.userRange {len : ℕ} (h : Loaded v d sz) (hlo : sz.toNat ≤ n + PGSIZE)
    (hn : n + len ≤ sz.toNat) : UserRange v d n len := by
  have := h.aligned
  have := h.two
  intro j hj
  rw [show (n + j) / PGSIZE = sz.toNat / PGSIZE - 1 by simp only [PGSIZE] at *; omega]
  exact h.stack

/-- The page below it cannot. -/
theorem Loaded.not_userRange {len : ℕ} (h : Loaded v d sz) (hlen : 0 < len)
    (hlo : n + PGSIZE < sz.toNat) (hn : sz.toNat < n + len + 2 * PGSIZE) :
    ¬UserRange v d n len := by
  have := h.aligned
  have := h.two
  intro hu
  have hg := (hu (sz.toNat - 2 * PGSIZE - n) (by omega)).2
  rw [show (n + (sz.toNat - 2 * PGSIZE - n)) / PGSIZE = sz.toNat / PGSIZE - 2 by
    simp only [PGSIZE] at *; omega, h.guard] at hg
  cases hg

theorem Within.below (h : Loaded v d sz) (hw : Within d lo hi v v') (hlo : sz.toNat ≤ lo + PGSIZE)
    (hhi : hi ≤ sz.toNat) (hm : m + PGSIZE < sz.toNat)
    (hp : present (v.pte d (m / PGSIZE)) = true) : v'.userByte d m = v.userByte d m := by
  have hsz := sz.toNat_lt
  have := h.aligned
  have := h.two
  refine hw.userByte (by omega) fun n hn hn' he => ?_
  rw [show n / PGSIZE = sz.toNat / PGSIZE - 1 by simp only [PGSIZE] at *; omega] at he
  exact absurd he (h.frame _ (by simp only [PGSIZE] at *; omega) hp)

theorem Within.stack (h : Loaded v d sz) (hw : Within d lo hi v v') (hlo : sz.toNat ≤ lo + PGSIZE)
    (hhi : hi ≤ sz.toNat) (hm : sz.toNat ≤ m + PGSIZE) (hm' : m < sz.toNat)
    (hne : m < lo ∨ hi ≤ m) : v'.userByte d m = v.userByte d m := by
  have hsz := sz.toNat_lt
  have := h.aligned
  have := h.two
  refine hw.userByte (by omega) fun n hn hn' _ => ?_
  simp only [PGSIZE] at *
  omega

theorem copyout_stack (va : UInt32) (bytes : List UInt8) (h : Loaded v d sz)
    (hlen : 0 < bytes.length) (hva : va.toNat + bytes.length ≤ sz.toNat)
    (hlo : sz.toNat < va.toNat + bytes.length + 2 * PGSIZE) :
    wp (copyout cur d va bytes)
      (fun r v' => UserWrites d v v' ∧ if sz.toNat ≤ va.toNat + PGSIZE then
        r = true ∧ Within d va.toNat (va.toNat + bytes.length) v v' ∧ CopyAt v' d va.toNat bytes
        else r = false) (fun _ _ => False) v := by
  have hsz := sz.toNat_lt
  refine wp_mono (copyout_stopped h.apart (by omega) (h.walkable hva)) fun r v' hs => ?_
  refine ⟨hs.userWrites (by omega), ?_⟩
  by_cases hfit : sz.toNat ≤ va.toNat + PGSIZE
  · rw [if_pos hfit]
    obtain rfl : r = true := hs.range.2 (h.userRange hfit hva)
    exact ⟨rfl, hs.written.within, hs.written.inside⟩
  · rw [if_neg hfit]
    have := mt hs.range.1 (h.not_userRange hlen (by omega) hlo)
    exact Bool.eq_false_iff.2 this

/-- The first string that does not fit in the stack page starts in the image, or else at a page of
`T`. -/
def ArgsOk (T : ℕ → Prop) (sz : UInt32) : ℕ → UInt32 → List (List UInt8) → Prop
  | _, _, [] => True
  | argc, sp, s :: argv =>
    MAXARG ≤ argc ∨
      if sz.toNat + padded s ≤ sp.toNat + PGSIZE then ArgsOk T sz (argc + 1) (argSp sp s) argv
      else padded s ≤ sp.toNat ∨ T (page (argSp sp s))

theorem argsOk_of_le {T : ℕ → Prop} : ∀ (argv : List (List UInt8)) (argc : ℕ) (sp : UInt32),
    sp.toNat % 4 = 0 → stringBytes argv ≤ sp.toNat → ArgsOk T sz argc sp argv
  | [], _, _, _, _ => trivial
  | s :: argv, argc, sp, h4, hle => by
    rw [stringBytes_cons] at hle
    have hs := argSp_toNat (s := s) h4 (by omega)
    have hmod := padded_mod s
    refine .inr ?_
    split_ifs
    · exact argsOk_of_le argv (argc + 1) (argSp sp s) (by omega) (by omega)
    · exact .inl (by omega)

/-- The pages of `T` have a table and are not for the user. -/
def Refused (T : ℕ → Prop) (v : Mem) (d : ℕ) : Prop :=
  ∀ n < NPAGES, T n → v.table d (PDX n) ≠ none ∧ ¬UserPte (v.pte d n)

theorem Refused.sameView {T : ℕ → Prop} (h : Refused T v d) (hview : SameView v v' d) :
    Refused T v' d := by
  intro n hn hT
  rw [hview.table _ (PDX_lt hn), hview.pte n hn]
  exact h n hn hT

/-- What `pushArgs` leaves : the strings, if they fit in the stack page and are not too many. -/
structure ArgsPushed (d : ℕ) (argv : List (List UInt8)) (sp : UInt32) (args : List UInt32)
    (v : Mem) (r : Option (UInt32 × List UInt32)) (v' : Mem) : Prop where
  result : r = some (stringsSp sp argv, args ++ argPtrs sp argv)
  within : Within d (sp.toNat - stringBytes argv) sp.toNat v v'
  strings : List.Forall₂ (fun p s => CopyAt v' d p.toNat (s ++ [0])) (argPtrs sp argv) argv

theorem ArgsPushed.cons {sp : UInt32} {s : List UInt8} {args : List UInt32}
    {r : Option (UInt32 × List UInt32)} (h : Loaded v d sz)
    (hw : Within d (argSp sp s).toNat ((argSp sp s).toNat + (s ++ [0]).length) v v')
    (hcopy : CopyAt v' d (argSp sp s).toNat (s ++ [0]))
    (hrest : ArgsPushed d argv (argSp sp s) (args ++ [argSp sp s]) v' r v'')
    (hs : (argSp sp s).toNat = sp.toNat - padded s)
    (hlen : (s ++ [0]).length ≤ padded s) (hle : padded s ≤ sp.toNat) (hhi : sp.toNat ≤ sz.toNat)
    (hlo : sz.toNat + stringBytes (s :: argv) ≤ sp.toNat + PGSIZE) :
    ArgsPushed d (s :: argv) sp args v r v'' := by
  have hsp := sp.toNat_lt
  have hP : PGSIZE = 4096 := rfl
  have h2 := h.two
  rw [stringBytes_cons] at hlo
  refine ⟨by rw [hrest.result]; simp [stringsSp, argPtrs], ?_,
    List.Forall₂.cons (fun j hj => ?_) hrest.strings⟩
  · rw [stringBytes_cons]
    exact (hw.mono (by omega) (by omega)).trans (hrest.within.mono (by omega) (by omega)) (by omega)
  · rw [hrest.within.stack (h.sameView hw.view) (by omega) (by omega) (by omega) (by omega)
      (.inr (by omega))]
    exact hcopy j hj

/-- `exec` copies the arguments to the stack. -/
theorem pushArgs_spec {T : ℕ → Prop} : ∀ (argv : List (List UInt8)) (argc : ℕ) (sp : UInt32)
    (args : List UInt32) (v : Mem), Loaded v d sz → Refused T v d → ArgsOk T sz argc sp argv →
    sp.toNat % 4 = 0 → sz.toNat ≤ sp.toNat + PGSIZE → sp.toNat ≤ sz.toNat →
    wp (pushArgs cur d argv argc sp args)
      (fun r v' => UserWrites d v v' ∧
        if (argv ≠ [] → argc + argv.length ≤ MAXARG) ∧
          sz.toNat + stringBytes argv ≤ sp.toNat + PGSIZE then ArgsPushed d argv sp args v r v'
        else r = none) (fun _ _ => False) v
  | [], argc, sp, args, v, h, hT, hok, h4, hlo, hhi => by
    refine ⟨UserWrites.refl, ?_⟩
    rw [if_pos ⟨by simp, by simpa [stringBytes] using hlo⟩]
    exact ⟨by simp [stringsSp, argPtrs], Within.refl, List.Forall₂.nil⟩
  | s :: argv, argc, sp, args, v, h, hT, hok, h4, hlo, hhi => by
    have hP : PGSIZE = 4096 := rfl
    have h2 := h.two
    have hmod := padded_mod s
    have hlen : (s ++ [0]).length ≤ padded s ∧ padded s < (s ++ [0]).length + 4 := by
      rw [length_append, length_singleton, padded]
      omega
    simp only [ne_eq, reduceCtorEq, not_false_eq_true, forall_const, length_cons,
      stringBytes_cons]
    unfold pushArgs
    by_cases hargc : MAXARG ≤ argc
    · rw [if_pos hargc]
      refine ⟨UserWrites.refl, ?_⟩
      rw [if_neg fun hc => by omega]
    rw [if_neg hargc, ← argSp]
    replace hok := hok.resolve_left hargc
    by_cases hwrap : padded s ≤ sp.toNat
    · have hs := argSp_toNat (s := s) h4 hwrap
      refine wp_seq (copyout_stack _ _ h (by simp) (by omega) (by omega)) fun r v₁ hr => ?_
      obtain ⟨hwrites, hr⟩ := hr
      by_cases hfit : sz.toNat ≤ (argSp sp s).toNat + PGSIZE
      · rw [if_pos hfit] at hr
        obtain ⟨rfl, hw, hcopy⟩ := hr
        rw [if_pos (by omega)] at hok
        refine wp_mono (pushArgs_spec argv (argc + 1) (argSp sp s) (args ++ [argSp sp s]) v₁
          (h.sameView hw.view) (hT.sameView hw.view) hok (by omega) hfit (by omega)) ?_
        rintro r v₂ ⟨hwrites', hr'⟩
        refine ⟨hwrites.trans hwrites', ?_⟩
        by_cases hall : argc + (argv.length + 1) ≤ MAXARG ∧
            sz.toNat + (padded s + stringBytes argv) ≤ sp.toNat + PGSIZE
        · rw [if_pos ⟨fun _ => by omega, by omega⟩] at hr'
          rw [if_pos hall]
          exact ArgsPushed.cons h hw hcopy hr' hs hlen.1 hwrap hhi
            (by rw [stringBytes_cons]; exact hall.2)
        · rw [if_neg hall]
          rwa [if_neg fun hc => hall ⟨?_, by omega⟩] at hr'
          cases argv with
          | nil => simp only [length_nil]; omega
          | cons s' argv =>
            have := hc.1 (by simp)
            omega
      · rw [if_neg hfit] at hr
        subst hr
        refine ⟨hwrites, ?_⟩
        rw [if_neg fun hc => by omega]
    · -- The pointer wraps around, to a page that `copyout` refuses.
      rw [if_neg (by omega)] at hok
      obtain ⟨ht, hu⟩ := hT _ (div_lt_npages (argSp sp s).toNat_lt) (hok.resolve_left hwrap)
      refine wp_seq (copyout_refused ht hu (by simp)) ?_
      rintro r v₁ ⟨rfl, rfl⟩
      refine ⟨UserWrites.refl, ?_⟩
      rw [if_neg fun hc => by omega]

/-! ## The stack -/

theorem initialEsp_toNat (hargc : argv.length ≤ MAXARG) (h4 : sz.toNat % 4 = 0)
    (hle : stackBytes argv ≤ sz.toNat) :
    (initialEsp sz argv).toNat = sz.toNat - stackBytes argv := by
  unfold stackBytes MAXARG at *
  have hsp := stringsSp_toNat argv sz h4 (by omega)
  have hn : ((3 + UInt32.ofNat argv.length + 1) * 4).toNat = 4 * (argv.length + 4) := by
    simp only [UInt32.toNat_mul, UInt32.toNat_add, UInt32.toNat_ofNat', UInt32.toNat_ofNat]
    omega
  rw [initialEsp, UInt32.toNat_sub_of_le _ _ (by rw [UInt32.le_iff_toNat_le]; omega), hsp, hn]
  omega

/-- The user finds the arguments at `esp`. -/
structure ArgStack (d : ℕ) (sz : UInt32) (argv : List (List UInt8)) (v v' : Mem) : Prop where
  aligned : (initialEsp sz argv).toNat % 4 = 0
  ret : v'.userWord d (initialEsp sz argv).toNat = 0xffffffff
  argcWord : v'.userWord d ((initialEsp sz argv).toNat + 4) = UInt32.ofNat argv.length
  argvWord : v'.userWord d ((initialEsp sz argv).toNat + 8) = initialEsp sz argv + 12
  array : ∀ i < argv.length, v'.userWord d ((initialEsp sz argv).toNat + 12 + 4 * i) =
    (argPtrs sz argv).getD i 0
  null : v'.userWord d ((initialEsp sz argv).toNat + 12 + 4 * argv.length) = 0
  /-- Each pointer addresses a copy of its argument. -/
  strings : List.Forall₂ (fun p s => CopyAt v' d p.toNat (s ++ [0])) (argPtrs sz argv) argv
  disjoint : ((argPtrs sz argv).zip argv).Pairwise fun q q' =>
    q'.1.toNat + (q'.2.length + 1) ≤ q.1.toNat
  /-- The copies are above the array and end in the stack page. -/
  place : ∀ q ∈ (argPtrs sz argv).zip argv,
    (initialEsp sz argv).toNat + 12 + 4 * (argv.length + 1) ≤ q.1.toNat ∧
      q.1.toNat + (q.2.length + 1) ≤ sz.toNat
  stackPage : sz.toNat - PGSIZE ≤ (initialEsp sz argv).toNat
  /-- Only the stack is written. -/
  within : Within d (initialEsp sz argv).toNat sz.toNat v v'
  kept : ∀ n < sz.toNat - PGSIZE, present (v.pte d (n / PGSIZE)) = true →
    v'.userByte d n = v.userByte d n

/-- The words and strings are where `main` finds them. -/
theorem argStack_of_written (h : Loaded v d sz) (hargc : argv.length ≤ MAXARG)
    (hfit : stackBytes argv ≤ PGSIZE) (hw : Within d (initialEsp sz argv).toNat sz.toNat v v')
    (hu : CopyAt v' d (initialEsp sz argv).toNat (wordBytes (ustack sz argv)))
    (hs : List.Forall₂ (fun p s => CopyAt v' d p.toNat (s ++ [0])) (argPtrs sz argv) argv) :
    ArgStack d sz argv v v' := by
  have hsz := h.aligned
  have h2 := h.two
  have hP : PGSIZE = 4096 := rfl
  have h4 := h.mod_four
  have hesp := initialEsp_toNat hargc h4 (by omega)
  have hstrings := stringBytes_mod argv
  have hlen : (ustack sz argv).length = argv.length + 4 := by
    simp [ustack]
  obtain ⟨hin, hpair⟩ := argPtrs_pairwise argv sz h4 (by unfold stackBytes at hfit; omega)
  have hword := fun i hi => hu.word (i := i) hi
  rw [hlen] at hword
  refine ⟨by unfold stackBytes at *; omega, hword 0 (by omega), hword 1 (by omega), ?_, ?_, ?_, hs,
    hpair, fun q hq => ?_, by omega, hw, fun n hn hp => hw.below h (by omega) le_rfl (by omega) hp⟩
  · rw [show (8 : ℕ) = 4 * 2 from rfl, hword 2 (by omega)]
    simp only [ustack, initialEsp, cons_append, getD_cons_succ, getD_cons_zero]
    grind
  · intro i hi
    rw [show (initialEsp sz argv).toNat + 12 + 4 * i = (initialEsp sz argv).toNat + 4 * (i + 3) by
      omega, hword (i + 3) (by omega)]
    simp only [ustack, cons_append, getD_cons_succ]
    exact getD_append _ _ _ _ (by rw [length_argPtrs]; exact hi)
  · rw [show (initialEsp sz argv).toNat + 12 + 4 * argv.length =
      (initialEsp sz argv).toNat + 4 * (argv.length + 3) by omega, hword _ (by omega)]
    simp only [ustack, cons_append, getD_cons_succ]
    rw [getD_append_right _ _ _ _ (by rw [length_argPtrs]), length_argPtrs, Nat.sub_self]
    rfl
  · have := hin q hq
    unfold stackBytes at *
    omega

/-- `ustack` below the strings. -/
theorem ArgsPushed.argStack {args : List UInt32} {r : Option (UInt32 × List UInt32)}
    (h : Loaded v d sz) (hp : ArgsPushed d argv sz args v r v') (hargc : argv.length ≤ MAXARG)
    (hfit : stackBytes argv ≤ PGSIZE)
    (hw : Within d (initialEsp sz argv).toNat
      ((initialEsp sz argv).toNat + (wordBytes (ustack sz argv)).length) v' v'')
    (hu : CopyAt v'' d (initialEsp sz argv).toNat (wordBytes (ustack sz argv))) :
    ArgStack d sz argv v v'' := by
  have hlt := sz.toNat_lt
  have h2 := h.two
  have h4 := h.mod_four
  have hP : PGSIZE = 4096 := rfl
  have hstack : stackBytes argv = stringBytes argv + 4 * (argv.length + 4) := rfl
  have hesp := initialEsp_toNat hargc h4 (by omega)
  have hbytes : (wordBytes (ustack sz argv)).length = 4 * (argv.length + 4) := by
    simp [ustack]
  refine argStack_of_written h hargc hfit ?_ hu ?_
  · exact (hp.within.mono (by omega) le_rfl).trans (hw.mono le_rfl (by omega)) (by omega)
  · obtain ⟨heq, hall⟩ := List.forall₂_iff_zip.1 hp.strings
    refine List.forall₂_iff_zip.2 ⟨heq, fun {p s} hq j hj => ?_⟩
    obtain ⟨hlo, hhi⟩ := (argPtrs_pairwise argv sz h4 (by omega)).1 _ hq
    simp only [length_append, length_singleton] at hj hlo hhi
    rw [hw.stack (h.sameView hp.within.view) (by omega) (by omega) (by omega) (by omega)
      (.inr (by omega))]
    exact hall hq j (by simpa using hj)

/-- It then copies the pointers to them. -/
theorem pushStack_spec {T : ℕ → Prop} (h : Loaded v d sz) (hT : Refused T v d)
    (hok : ArgsOk T sz 0 sz argv) :
    wp (pushStack cur d argv sz) (fun r v' => UserWrites d v v' ∧
      if argv.length ≤ MAXARG ∧ stackBytes argv ≤ PGSIZE then r = true ∧ ArgStack d sz argv v v'
      else r = false) (fun _ _ => False) v := by
  have hlt := sz.toNat_lt
  have h2 := h.two
  have h4 := h.mod_four
  have hP : PGSIZE = 4096 := rfl
  have hmax : MAXARG = 32 := rfl
  have hstack : stackBytes argv = stringBytes argv + 4 * (argv.length + 4) := rfl
  refine wp_seq (pushArgs_spec argv 0 sz [] v h hT hok h4 (by omega) le_rfl) fun r v₁ hr => ?_
  obtain ⟨hwrites, hr⟩ := hr
  by_cases hstrings : argv.length ≤ MAXARG ∧ stringBytes argv ≤ PGSIZE
  · rw [if_pos ⟨fun _ => by omega, by omega⟩] at hr
    rw [hr.result]
    have hesp := initialEsp_toNat hstrings.1 h4 (by omega)
    have hbytes : (wordBytes (ustack sz argv)).length = 4 * (argv.length + 4) := by
      simp [ustack]
    refine wp_mono (copyout_stack (initialEsp sz argv) (wordBytes (ustack sz argv))
      (h.sameView hr.within.view) (by omega) (by omega) (by omega)) fun r v₂ hr' => ?_
    obtain ⟨hwrites', hr'⟩ := hr'
    refine ⟨hwrites.trans hwrites', ?_⟩
    by_cases hfit : argv.length ≤ MAXARG ∧ stackBytes argv ≤ PGSIZE
    · rw [if_pos (by omega)] at hr'
      obtain ⟨rfl, hw, hu⟩ := hr'
      rw [if_pos hfit]
      exact ⟨rfl, hr.argStack h hfit.1 hfit.2 hw hu⟩
    · rw [if_neg (by omega)] at hr'
      rw [if_neg hfit]
      exact hr'
  · rw [if_neg fun hc => hstrings ⟨?_, by omega⟩] at hr
    · subst hr
      refine ⟨hwrites, ?_⟩
      rw [if_neg fun hc => hstrings ⟨hc.1, by omega⟩]
    · by_cases hnil : argv = []
      · simp [hnil]
      · have := hc.1 hnil
        omega

/-- The arguments of a loaded image. `exec` fails exactly if the strings and `ustack` do not fit in
the stack page. -/
theorem pushStack_correct (cur d : ℕ) (sz : UInt32) (argv : List (List UInt8)) (v : Mem)
    (h : Loaded v d sz) (hargc : argv.length < MAXARG) (hlen : stringBytes argv < sz.toNat) :
    ∃ r v', pushStack cur d argv sz v = .ok r v' ∧ (r = true ↔ stackBytes argv ≤ PGSIZE) ∧
      (r = true → ArgStack d sz argv v v') := by
  obtain ⟨r, v', hrun, -, hr⟩ := exists_ok_of_wp (m := pushStack cur d argv sz)
    (pushStack_spec (T := fun _ => False) h (fun _ _ => False.elim)
      (argsOk_of_le argv 0 sz h.mod_four hlen.le))
  refine ⟨r, v', hrun, ?_⟩
  by_cases hfit : stackBytes argv ≤ PGSIZE
  · rw [if_pos ⟨hargc.le, hfit⟩] at hr
    exact ⟨⟨fun _ => hfit, fun _ => hr.1⟩, fun _ => hr.2⟩
  · rw [if_neg fun hc => hfit hc.2] at hr
    subst hr
    exact ⟨⟨nofun, fun h => absurd h hfit⟩, nofun⟩

end

/-- An image of two pages : the stack page, and the one below it without user access. -/
def stackMem : Mem where
  word x i :=
    if x = 1 ∧ i = 0 then entry 2 (PTE_W ||| PTE_U)
    else if x = 2 ∧ i = 0 then entry 3 PTE_W
    else if x = 2 ∧ i = 1 then entry 4 (PTE_W ||| PTE_U)
    else 0
  freelist := []
  fails := []
  log := []

theorem stackMem_table (i : ℕ) : stackMem.table 1 i = if i = 0 then some 2 else none := by
  by_cases hi : i = 0
  · subst hi
    rfl
  · have hw : stackMem.word 1 i = 0 := by simp [stackMem, hi]
    rw [if_neg hi, Mem.table, hw]
    rfl

theorem stackMem_user {n : ℕ} (hu : UserPte (stackMem.pte 1 n)) : n = 1 := by
  have hi : PDX n = 0 := by
    by_contra hi
    refine table_of_userPte hu ?_
    rw [stackMem_table, if_neg hi]
  rw [pte_of_table (t := 2) (by rw [stackMem_table, if_pos hi])] at hu
  by_contra hn
  by_cases h0 : PTX n = 0
  · rw [h0] at hu
    exact absurd hu.2 (by decide)
  · have h1 : PTX n ≠ 1 := by
      simp only [PDX, PTX, NPTENTRIES] at hi ⊢
      omega
    have hw : stackMem.word 2 (PTX n) = 0 := by simp [stackMem, h0, h1]
    rw [hw] at hu
    exact absurd hu.1 (by decide)

theorem loaded_stackMem : Loaded stackMem 1 8192 := by
  have hsz : (8192 : UInt32).toNat = 8192 := rfl
  refine ⟨⟨fun m _ hm => ?_, fun m _ n _ hm hn _ => ?_, fun m _ hm => ?_, fun m _ hm i _ => ?_⟩,
    by decide, by decide, fun n hn => ?_, by decide, by unfold UserPte; decide, fun n hn _ => ?_⟩
  · rw [stackMem_user hm]
    decide
  · rw [stackMem_user hm, stackMem_user hn]
  · rw [stackMem_user hm]
    decide
  · rw [stackMem_user hm, stackMem_table]
    split_ifs <;> decide
  · rw [stackMem_table, if_pos (by simp only [hsz, PGSIZE, PDX, NPTENTRIES] at hn ⊢; omega)]
    simp
  · obtain rfl : n = 0 := by
      simp only [hsz, PGSIZE] at hn
      omega
    decide

/-- The arguments `hi` and the empty string. -/
theorem pushStack_correct_hi : Loaded stackMem 1 8192 ∧
    ∃ v', pushStack 1 1 [[104, 105], []] 8192 stackMem = .ok true v' ∧
      ArgStack 1 8192 [[104, 105], []] stackMem v' := by
  obtain ⟨r, v', hrun, hr, hstack⟩ := pushStack_correct 1 1 8192 [[104, 105], []] stackMem
    loaded_stackMem (by decide) (by decide)
  obtain rfl : r = true := hr.2 (by decide)
  exact ⟨loaded_stackMem, v', hrun, hstack rfl⟩

end Xv6.Vm
