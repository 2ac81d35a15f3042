import Xv6.ExecRun

/-!
# What comes of `exec`

What `exec` means for the process that calls it. The bytes of the file go to pages that were free
(`exec_copies_contained`). If it returns -1, the process and its memory are as they were
(`exec_failed_intact`), and it stops short only at a segment that is not aligned to a page or has no
page table there (`exec_returns_iff`). All of this is so where no call of `kalloc` for a page table
of the user is the first to fail, every segment is copied below the size of the image, and no
argument starts where there is no page table (`ExecSound`); there is a run for each defect this
leaves out.
-/

open Layout List
open Prog

namespace Xv6.Vm

/-! ## Pages that are held -/

open Classical in
/-- The address spaces of `R`, and the pages of `S` besides. -/
noncomputable def Owners.keeping {A : Type} (R : A → Option ℕ) (S : ℕ → Prop) : Owners A ℕ where
  roots := R
  others x := if S x then some x else none

section

variable {K : Link} {P : Pool K} {A B : Type} {O : Owners A B} {v v' : Mem} {a : A} {cur d m x : ℕ}
  {S : ℕ → Prop} {f : Image} {argv : List (List UInt8)}

/-- The page `x` is not one of an address space of `O`. -/
structure Outside (O : Owners A B) (v : Mem) (x : ℕ) : Prop where
  dir : ∀ a, O.page v (.dir a) ≠ some x
  table : ∀ a i, O.page v (.table a i) ≠ some x
  frame : ∀ a n, O.page v (.frame a n) ≠ some x

theorem keeping_other : (Owners.keeping O.roots S).others x = some m ↔ S x ∧ x = m := by
  by_cases h : S x <;> simp [Owners.keeping, h]

theorem page_keeping {r : Ref A ℕ} (hr : (Owners.keeping O.roots S).page v r = some x) :
    r = .other x ∧ S x ∨
      ∃ q : Ref A Empty, r = q.map id nofun ∧ O.page v (q.map id nofun) = some x := by
  rcases r with b | a | ⟨a, i⟩ | ⟨a, n⟩
  · obtain ⟨hb, rfl⟩ := keeping_other.1 hr
    exact .inl ⟨rfl, hb⟩
  · exact .inr ⟨.dir a, rfl, hr⟩
  · exact .inr ⟨.table a i, rfl, hr⟩
  · exact .inr ⟨.frame a n, rfl, hr⟩

theorem Outside.ne (h : Outside O v x) (q : Ref A Empty) : O.page v (q.map id nofun) ≠ some x := by
  rcases q with b | a | ⟨a, i⟩ | ⟨a, n⟩
  · exact b.elim
  · exact h.dir a
  · exact h.table a i
  · exact h.frame a n

theorem Ref.map_empty_inj {q q' : Ref A Empty}
    (h : (q.map id nofun : Ref A B) = q'.map id nofun) : q = q' := by
  rcases q with b | a | ⟨a, i⟩ | ⟨a, n⟩ <;> rcases q' with b' | a' | ⟨a', i'⟩ | ⟨a', n'⟩ <;>
    first | exact b.elim | exact b'.elim | simp_all [Ref.map]

theorem Own.keeping (h : Own P O v)
    (hS : ∀ x, S x → P.mem x ∧ x ∉ v.freelist ∧ Outside O v x) :
    Own P (Owners.keeping O.roots S) v where
  inj r r' x hr hr' := by
    rcases page_keeping hr with ⟨rfl, hx⟩ | ⟨q, rfl, hq⟩ <;>
      rcases page_keeping hr' with ⟨rfl, hx'⟩ | ⟨q', rfl, hq'⟩
    · rfl
    · exact absurd hq' ((hS x hx).2.2.ne q')
    · exact absurd hq ((hS x hx').2.2.ne q)
    · rw [Ref.map_empty_inj (h.inj _ _ x hq hq')]
  not_free r x hr := by
    rcases page_keeping hr with ⟨rfl, hx⟩ | ⟨q, rfl, hq⟩
    · exact (hS x hx).2.1
    · exact h.not_free _ x hq
  nodup := h.nodup
  pool_free := h.pool_free
  pool_held r x hr := by
    rcases page_keeping hr with ⟨rfl, hx⟩ | ⟨q, rfl, hq⟩
    · exact (hS x hx).1
    · exact h.pool_held _ x hq

theorem Kept.keeping {X : Set A} (h : Kept (Owners.keeping O.roots S) X v v') (hx : S x) :
    v'.word x = v.word x :=
  h.word x x (keeping_other.2 ⟨hx, rfl⟩)

/-! ## The copies of the file -/

/-- Memory when a program has ended. -/
def memory {α : Type} : EStateM.Result Stop Mem α → Mem
  | .ok _ v => v
  | .error _ v => v

/-- The fields of a process that `exec` changes. -/
structure ExecProc where
  pgdir : ℕ
  sz : UInt32
  name : List UInt8
  eip : UInt32
  esp : UInt32

/-- The rest of a path after the last slash in `s`, with `last` the rest after the last before. -/
def lastElem (last : List UInt8) : List UInt8 → List UInt8
  | [] => last
  | c :: s => lastElem (if c = 47 then s else last) s

/-- `elf.entry`. -/
def Image.entry (f : Image) : UInt32 :=
  f.u32 24

/-- `exec` for a process, with the file that the path names, if there is one. -/
def execProc (K : Link) (p : ExecProc) (path : List UInt8) (file : Option Image)
    (argv : List (List UInt8)) : M (Bool × ExecProc) := do
  match file with
  | none => return (false, p)
  | some f =>
    match ← exec K p.pgdir f argv with
    | none => return (false, p)
    | some (d, sz) =>
      return (true, ⟨d, sz, (lastElem path path).take 15, f.entry, initialEsp sz argv⟩)

theorem exec_failed_words (hnodup : v.freelist.Nodup) (hpool : ∀ x ∈ v.freelist, P.mem x)
    (hs : f.IsElf → ExecSound v f argv) :
    wp (exec K cur f argv) (fun r v' => r = none → ∀ x, P.mem x → x ∉ v.freelist →
      v'.word x = v.word x) (fun _ _ => True) v := by
  have hown := (own_empty (P := P) hnodup hpool).keeping (S := fun x => P.mem x ∧ x ∉ v.freelist)
    fun x hx => ⟨hx.1, hx.2, nofun, nofun, nofun⟩
  refine exec_rule hown hs (fun _ _ _ _ _ => rfl) (fun _ v' _ hkept _ _ x hx hx' => ?_)
    (fun _ _ _ v' _ hkept _ x hx hx' => ?_) (fun _ _ d sz v' _ _ _ => ?_) fun _ _ _ _ => trivial
  · exact hkept.keeping ⟨hx, hx'⟩
  · exact hkept.keeping ⟨hx, hx'⟩
  · exact wp_of_always silent_freevm (fun _ _ _ h => nomatch h) fun _ _ _ => trivial

theorem Own.unchanged (h : Own P O v) (ha : O.roots a = some d)
    (hw : ∀ x, P.mem x → x ∉ v.freelist → v'.word x = v.word x) :
    SameView v v' d ∧ ∀ m < KERNPAGE, present (v.pte d m) = true → SamePage v v' d m := by
  have hheld : ∀ r x, O.page v r = some x → v'.word x = v.word x := fun r x hr =>
    hw x (h.pool_held r x hr) (h.not_free r x hr)
  have hview : SameView v v' d := SameView.of_word (hheld (.dir a) d ha) fun i hi t ht =>
    hheld (.table a i) t ((page_table ha hi).trans ht)
  exact ⟨hview, fun m hm hp => ⟨hview.pte m (lt_npages hm), hheld (.frame a m) _
    ((page_frame ha hm).trans (mapped_of_present hp))⟩⟩

/-- A failed `exec` leaves the process and its memory as they were. -/
theorem exec_failed_intact {p p' : ExecProc} {path : List UInt8} {file : Option Image}
    (h : Own P O v) (ha : O.roots a = some p.pgdir)
    (hs : ∀ f, file = some f → f.IsElf → ExecSound v f argv)
    (hrun : execProc K p path file argv v = .ok (false, p') v') :
    p' = p ∧ SameView v v' p.pgdir ∧
      ∀ m < KERNPAGE, present (v.pte p.pgdir m) = true → SamePage v v' p.pgdir m := by
  have hwp : wp (execProc K p path file argv) (fun r v' => r.1 = false → r.2 = p ∧
      ∀ x, P.mem x → x ∉ v.freelist → v'.word x = v.word x) (fun _ _ => True) v := by
    unfold execProc
    cases file with
    | none => exact fun _ => ⟨rfl, fun _ _ _ => rfl⟩
    | some f =>
      refine wp_seq (exec_failed_words h.nodup h.pool_free (hs f rfl)) fun r v1 hr => ?_
      cases r with
      | none => exact fun _ => ⟨rfl, hr rfl⟩
      | some q => exact fun hq => absurd hq (by simp)
  obtain ⟨hp, hw⟩ := wp_ok hwp hrun rfl
  exact ⟨hp, h.unchanged ha hw⟩

/-- `exec` returns -1 at a program header that it refuses. -/
theorem exec_refuses (h : Own P O v) (hs : ExecSound v f argv) (hp : AllPlaced f f.plan.1)
    (hnone : f.plan.2 = none) : ∃ v', exec K cur f argv v = .ok none v' := by
  have hwp : wp (exec K cur f argv) (fun r _ => r = none) (fun _ _ => False) v := by
    refine exec_rule h (fun _ => hs) (fun _ => rfl) (fun _ _ _ _ _ => rfl)
      (fun _ _ _ _ _ _ => rfl) (fun _ _ d sz v' hsome => ?_) fun _ hno => absurd hp hno
    rw [hnone] at hsome
    cases hsome
  obtain ⟨r, v', hrun, rfl⟩ := exists_ok_of_wp hwp
  exact ⟨v', hrun⟩

theorem execProc_of_none {p : ExecProc} (path : List UInt8)
    (h : exec K p.pgdir f argv v = .ok none v') :
    execProc K p path (some f) argv v = .ok (false, p) v' := by
  simp only [execProc, bind, EStateM.bind]
  rw [h]
  rfl

end

/-! ## A segment that wraps around -/

/-- The file with the words `l`. -/
def Image.ofWords (l : List UInt32) (h : 4 * l.length ≤ MAXFILE * BSIZE) : Image where
  size := 4 * l.length
  byte n := Codec.u32.toByte (l.getD (n / 4) 0) (n % 4)
  size_le := h

/-- The words of a program header. -/
def Proghdr.words (ph : Proghdr) : List UInt32 :=
  [ph.type, ph.off, ph.vaddr, 0, ph.filesz, ph.memsz, 0, 0]

/-- The words of a file with the program headers `l`. -/
def elfWords (l : List Proghdr) : List UInt32 :=
  [ELF_MAGIC, 0, 0, 0, 0, 0, 0, 52, 0, 0, 0, UInt32.ofNat l.length, 0] ++ l.flatMap Proghdr.words

/-- The header of a segment of 4 bytes at the address of page `0x402` in the kernel, whose end is
at `0x1000` after it wraps around. -/
def clobberHeader : Proghdr :=
  ⟨ELF_PROG_LOAD, 0, 0x80402000, 4, 0x7FBFF000⟩

/-- A header that `exec` refuses. -/
def refusedHeader : Proghdr :=
  ⟨ELF_PROG_LOAD, 0, 0, 1, 0⟩

def clobberImage : Image :=
  .ofWords (elfWords [clobberHeader, refusedHeader]) (by decide)

/-- The copy that `exec` makes of it. -/
def clobberCopy : Copy :=
  ⟨clobberHeader, 0x1000, 0x80402000, 4, entry 0x402 PTE_W⟩

section

variable {A B : Type} {O : Owners A B} {P : Pool smallKernel} {v0 v : Mem} {d : ℕ} {b : B}

theorem poke_clobber (p : ℕ → UInt32) :
    poke p 0 4 (fun j => clobberImage.byte ((0 : UInt32).toNat + j)) 0 = ELF_MAGIC := by
  have hbytes : poke p 0 4 (fun j => clobberImage.byte ((0 : UInt32).toNat + j)) 0 =
      Codec.u32.ofByte fun k => clobberImage.byte k :=
    Codec.u32.ofByte_congr _ _ fun j hj => by
      have hj : j < 4 := hj
      rw [if_pos (by omega)]
      simp
  rw [hbytes]
  decide

/-- The segment goes to the page `0x402`, whoever has it. -/
theorem loaduvm_clobber (hown : Own P (O.addRoot d) v) (hkern : Kern smallKernel v d)
    (hO : O.others b = some 0x402) :
    wp (loaduvm d clobberImage clobberHeader 0x1000)
      (fun r v' => r = true ∧ Own P (O.addRoot d) v' ∧ v'.word 0x402 0 = ELF_MAGIC ∧
        .copy clobberCopy ∈ v'.log) (fun _ _ => False) v := by
  have hpte : v.pte d 0x80402 = entry 0x402 PTE_W :=
    (hkern 0x80402 (by decide) (by decide)).trans (by decide)
  obtain ⟨t, ht⟩ : ∃ t, v.table d (PDX 0x80402) = some t := by
    refine Option.ne_none_iff_exists'.1 fun hnone => ?_
    rw [pte_of_no_table hnone] at hpte
    exact absurd hpte (by decide)
  have hplain : Plain (O.addRoot d) v 0x402 :=
    ⟨fun a ha => absurd (hown.inj (.other b) (.dir a) _ hO ha) (by simp),
      fun a i ha => absurd (hown.inj (.other b) (.table a i) _ hO ha) (by simp)⟩
  unfold loaduvm
  rw [if_neg (by decide), show pageUp clobberHeader.filesz = 1 by decide]
  unfold loadLoop
  rw [wp_bind, wp_walkpgdir_false,
    show page (clobberHeader.vaddr + UInt32.ofNat 0) = 0x80402 by decide, ht]
  simp only [Option.map_some, wp_bind, wp_get, wp_modify]
  rw [← pte_of_table ht, hpte, show frame (entry 0x402 PTE_W) = 0x402 by decide,
    show min (clobberHeader.filesz.toNat - 0) PGSIZE = 4 by decide,
    show clobberHeader.off + UInt32.ofNat 0 = 0 by decide,
    show clobberImage.readi 0 4 = 4 by decide, if_pos rfl,
    show clobberHeader.vaddr + UInt32.ofNat 0 = 0x80402000 by decide]
  refine ⟨rfl, hown.congr rfl fun a d' ha => hplain.sameView (fun y hy => fill_word_ne _ hy) ha, ?_,
    mem_cons_self⟩
  rw [show ∀ p l, ({ v.fill 0x402 p with log := l } : Mem).word 0x402 = p from fun p _ =>
    fill_word_same (v := v) (x := 0x402) p]
  exact poke_clobber _

theorem loadImage_clobber {cur : ℕ} (h : Stage P O d 0 (fun _ => 0) v0 v)
    (hO : O.others b = some 0x402) (hg : Grants v0 67) :
    wp (loadImage smallKernel cur d clobberImage [])
      (fun r v' => r = none ∧ Own P (O.addRoot d) v' ∧ v'.word 0x402 0 = ELF_MAGIC ∧
        .copy clobberCopy ∈ v'.log) (fun _ _ => False) v := by
  have hend : clobberHeader.vaddr + clobberHeader.memsz = 0x1000 := by decide
  have hgrown : grown 0 0x1000 = 0x1000 := by decide
  have hpages : pageUp 0x1000 = 1 := by decide
  have htab : TablesGranted v0 (pageUp (grown 0 0x1000)) := by
    rw [hgrown, hpages]
    intro n hn _ _
    obtain rfl : n = 0 := by omega
    exact hg
  unfold loadImage
  rw [show clobberImage.phnum = 2 by decide, show clobberImage.phoff = 52 by decide]
  refine wp_seq (Q := fun r v' => r = none ∧ Own P (O.addRoot d) v' ∧ v'.word 0x402 0 = ELF_MAGIC ∧
    .copy clobberCopy ∈ v'.log) ?_ ?_
  · unfold loadSegments
    rw [if_neg (by decide)]
    dsimp only
    rw [show clobberImage.proghdr (52 : UInt32).toNat = clobberHeader by decide,
      if_neg (by decide), if_neg (by decide), hend]
    refine wp_seq (allocuvm_stage h (by decide) htab) ?_
    rw [hgrown]
    rintro r v1 (⟨rfl, hst⟩ | ⟨rfl, -, hno⟩)
    · rw [if_neg (by decide)]
      refine wp_seq (loaduvm_clobber hst.built.own hst.built.kern hO) ?_
      rintro r v2 ⟨rfl, hown, hword⟩
      unfold loadSegments
      dsimp only
      rw [if_pos rfl, if_neg (by decide),
        show clobberImage.proghdr ((52 : UInt32) + 32).toNat = refusedHeader by decide,
        if_neg (by decide), if_pos (by decide)]
      exact ⟨rfl, hown, hword⟩
    · exact absurd hg hno
  · rintro r v1 ⟨rfl, hw⟩
    exact ⟨rfl, hw⟩

end

/-- A process of one page, at the frame `0x402`. -/
def clobberProc : ExecProc :=
  ⟨0x400, 0x1000, [], 0, 0⟩

theorem onePage_grants {l : List ℕ} {k : ℕ} (hlen : k ≤ l.length) : Grants (onePage l) k :=
  ⟨hlen, by simp [onePage, pageAt, zeroMem, Mem.addTable, Mem.fill, Mem.set]⟩

theorem exec_clobber {l : List ℕ} (hnodup : l.Nodup)
    (hpool : ∀ x ∈ l, 0x403 ≤ x ∧ x < PHYSTOP) (hlen : 67 ≤ l.length) :
    ∃ v', exec smallKernel 0x400 clobberImage [] (onePage l) = .ok none v' ∧
      v'.word 0x402 0 = ELF_MAGIC ∧ .copy clobberCopy ∈ v'.log := by
  suffices hwp : wp (exec smallKernel 0x400 clobberImage [])
      (fun r v' => r = none ∧ v'.word 0x402 0 = ELF_MAGIC ∧ .copy clobberCopy ∈ v'.log)
      (fun _ _ => False) (onePage l) by
    obtain ⟨r, v', hrun, rfl, hv'⟩ := exists_ok_of_wp hwp
    exact ⟨v', hrun, hv'⟩
  have hg := onePage_grants hlen
  have hfree : ∀ x ∈ (onePage l).freelist, (Pool.all smallKernel).mem x := fun x hx =>
    ⟨le_trans (by decide) (hpool x hx).1, (hpool x hx).2⟩
  have hown := (own_empty (v := onePage l) hnodup hfree).keeping (S := (· = 0x402))
    fun x hx => by
    subst hx
    exact ⟨⟨by decide, by decide⟩, fun hm => absurd (hpool _ hm).1 (by decide), nofun, nofun, nofun⟩
  have hheld : (Owners.keeping Owners.empty.roots (· = 0x402)).others 0x402 = some 0x402 :=
    keeping_other.2 ⟨rfl, rfl⟩
  unfold exec
  rw [if_neg (by decide), if_neg (by decide)]
  refine wp_seq (setupkvm_stage hown) fun r v1 hr => ?_
  cases r with
  | none => exact absurd (hg.mono (by omega)) hr.2.2
  | some d =>
    refine wp_seq (loadImage_clobber hr hheld hg) ?_
    rintro r v2 ⟨rfl, hown2, hword, hcopy⟩
    refine wp_seq (wp_always (freevm_new hown2 (Kept.refl _ _ v2)) silent_freevm) ?_
    rintro - v3 ⟨h3, hsil⟩
    exact ⟨rfl, (congrFun (h3.2.word _ _ hheld) 0).trans hword, hsil.mem hcopy⟩

/-- The process finds the first word of the file where it had a zero, after `exec` returns -1. -/
theorem exec_failed_clobbers :
    (Own (Pool.all smallKernel) (Owners.empty.addRoot 0x400) (onePage (List.range' 0x403 70)) ∧
      Sized (onePage (List.range' 0x403 70)) 0x400 1) ∧
    ∃ v', execProc smallKernel clobberProc [] (some clobberImage) []
        (onePage (List.range' 0x403 70)) = .ok (false, clobberProc) v' ∧
      ¬SamePage (onePage (List.range' 0x403 70)) v' clobberProc.pgdir 0 := by
  have hnodup : (List.range' 0x403 70).Nodup := nodup_range'
  have hpool := freePages_ok (n := 70) (by omega)
  obtain ⟨v', hrun, hword, -⟩ := exec_clobber hnodup hpool (by simp)
  refine ⟨own_onePage hnodup hpool, v', execProc_of_none [] hrun, fun hsame => ?_⟩
  have hpte := (own_pageAt hnodup hpool (n := 0) (by decide)).2 0 (by decide)
  rw [if_pos rfl] at hpte
  have hw := congrFun hsame.2 0
  rw [show (onePage (List.range' 0x403 70)).pte clobberProc.pgdir 0 = _ from hpte,
    show frame (entry 0x402 (PTE_W ||| PTE_U)) = 0x402 by decide, hword,
    show (onePage (List.range' 0x403 70)).word 0x402 0 = 0 from rfl] at hw
  exact absurd hw (by decide)

/-! ## A segment at address 0 -/

/-- The header of a segment of one page at address 0, whose first word is that of the file. -/
def textHeader : Proghdr :=
  ⟨ELF_PROG_LOAD, 0, 0, 4, 0x1000⟩

def textImage : Image :=
  .ofWords (elfWords [textHeader]) (by decide)

/-- The program with a second header that `exec` refuses. -/
def textRefused : Image :=
  .ofWords (elfWords [textHeader, refusedHeader]) (by decide)

section

variable {v : Mem} {f : Image}

theorem textImage_plan : textImage.plan = ([(textHeader, 0x1000)], some 0x1000) := by
  decide

theorem textRefused_plan : textRefused.plan = ([(textHeader, 0x1000)], none) := by
  decide

theorem textHeader_placed : AllPlaced f [(textHeader, 0x1000)] :=
  forall_mem_singleton.2 ((show textHeader.Fits 0x1000 by decide).placed (by decide))

theorem tablesGranted_of_grants {N : ℕ} (hg : Grants v (65 + copyCost N)) : TablesGranted v N :=
  fun n hn hn' _ => by
    have hle := copyCost_mono (show n + 1 ≤ N from hn)
    rw [copyCost_succ, if_pos hn'] at hle
    exact hg.mono (by omega)

theorem textHeader_sound (hg : Grants v 67) : Sound f v [(textHeader, 0x1000)] :=
  ⟨tablesGranted_of_grants hg, fun _ _ => (show textHeader.Fits 0x1000 by decide).inside,
    fun _ => trivial⟩

theorem textImage_sound (hg : Grants v 69) : ExecSound v textImage [[97]] := by
  refine ⟨?_, fun sz hsz _ => ?_⟩
  · rw [textImage_plan]
    exact textHeader_sound (hg.mono (by omega))
  · rw [textImage_plan] at hsz
    obtain rfl := Option.some.inj hsz
    exact ⟨fun _ => tablesGranted_of_grants hg, fun _ _ => argsOk_of_le _ _ _ (by decide)
      (by decide)⟩

theorem textRefused_sound (hg : Grants v 67) : ExecSound v textRefused [[97]] := by
  refine ⟨?_, fun sz hsz => ?_⟩
  · rw [textRefused_plan]
    exact textHeader_sound hg
  · rw [textRefused_plan] at hsz
    cases hsz

end

theorem own_freePages {n : ℕ} (hn : n ≤ 100) :
    Own (Pool.all smallKernel) (Owners.empty.addRoot 0x400) (onePage (List.range' 0x403 n)) :=
  (own_onePage nodup_range' (freePages_ok hn)).1

/-- `exec` returns -1 at the second header, when the first segment is loaded. -/
theorem exec_failed_intact_text :
    ∃ p' v', execProc smallKernel clobberProc [] (some textRefused) [[97]]
        (onePage (List.range' 0x403 70)) = .ok (false, p') v' ∧ p' = clobberProc ∧
      SameView (onePage (List.range' 0x403 70)) v' clobberProc.pgdir ∧
      ∀ m < KERNPAGE, present ((onePage (List.range' 0x403 70)).pte clobberProc.pgdir m) = true →
        SamePage (onePage (List.range' 0x403 70)) v' clobberProc.pgdir m := by
  have hown := own_freePages (n := 70) (by omega)
  have hs : ExecSound (onePage (List.range' 0x403 70)) textRefused [[97]] :=
    textRefused_sound (onePage_grants (by simp))
  obtain ⟨v', hrun⟩ : ∃ v', exec smallKernel clobberProc.pgdir textRefused [[97]]
      (onePage (List.range' 0x403 70)) = .ok none v' :=
    exec_refuses hown hs (by rw [textRefused_plan]; exact textHeader_placed)
      (by rw [textRefused_plan])
  have hproc := execProc_of_none (p := clobberProc) [] hrun
  exact ⟨clobberProc, v', hproc, exec_failed_intact (a := none) hown rfl
    (fun f hf _ => Option.some.inj hf ▸ hs) hproc⟩

/-! ## Whether `exec` returns -/

/-- There are pages for the image that the file asks for, its stack and its tables. -/
def Enough (v : Mem) (f : Image) : Prop :=
  ∀ sz ∈ 0 :: f.plan.1.map Prod.snd, Grants v (65 + copyCost (pageUp sz + 2))

section

variable {K : Link} {P : Pool K} {A B : Type} {O : Owners A B} {v v' : Mem} {a : A} {cur d : ℕ}
  {f : Image} {argv : List (List UInt8)}

theorem Enough.grants (h : Enough v f) {q : Proghdr × UInt32} (hq : q ∈ f.plan.1) :
    Grants v (imageCost q.2) :=
  (h q.2 (mem_cons_of_mem _ (mem_map_of_mem hq))).mono
    (Nat.add_le_add_left (copyCost_mono (Nat.le_add_right _ _)) _)

theorem Enough.kernel (h : Enough v f) : Grants v 65 :=
  (h 0 mem_cons_self).mono (Nat.le_add_right _ _)

theorem exec_stops (h : Own P O v) (ha : O.roots a = some cur) (hmem : Enough v f)
    (hs : f.IsElf → ExecSound v f argv) :
    wp (exec K cur f argv) (fun _ _ => f.IsElf → AllPlaced f f.plan.1)
      (fun _ _ => f.IsElf ∧ ¬AllPlaced f f.plan.1) v := by
  classical
  refine exec_rule h hs (fun hno helf => absurd helf hno) (fun _ v' _ _ hno => ?_)
    (fun _ hal _ v' _ _ _ => ?_)
    (fun _ hal d sz v' _ _ hL => ?_) fun helf hna _ _ => ⟨helf, hna⟩
  · exact absurd hmem.kernel hno
  · exact hal fun q hq => hmem.grants hq
  · exact wp_mono (freevm_spec (a := some a) hL.guarded.own ha) fun _ _ _ _ => hal

/-- With enough memory `exec` returns just if the segments that it gets to are aligned to pages and
have page tables where they go. -/
theorem exec_returns_iff (h : Own P O v) (ha : O.roots a = some cur) (hmem : Enough v f)
    (hs : f.IsElf → ExecSound v f argv) :
    (∃ r v', exec K cur f argv v = .ok r v') ↔ (f.IsElf → AllPlaced f f.plan.1) := by
  have hwp := exec_stops h ha hmem hs
  cases hrun : exec K cur f argv v with
  | ok r v' => exact iff_of_true ⟨r, v', rfl⟩ (wp_ok hwp hrun)
  | error e v' =>
    obtain ⟨helf, hna⟩ := wp_error hwp hrun
    exact iff_of_false (by simp) fun hal => hna (hal helf)

end

/-- The header of a segment of one byte at address 1, that has no bytes in the file. -/
def unalignedHeader : Proghdr :=
  ⟨ELF_PROG_LOAD, 0, 1, 0, 1⟩

/-- A program with that header. -/
def unalignedImage : Image :=
  .ofWords (elfWords [unalignedHeader]) (by decide)

section

variable {A B : Type} {O : Owners A B} {P : Pool smallKernel} {v : Mem} {cur : ℕ}

theorem unalignedImage_plan : unalignedImage.plan = ([(unalignedHeader, 2)], some 2) := by
  decide

theorem exec_unaligned (h : Own P O v) (hg : Grants v 67) :
    ∃ v', exec smallKernel cur unalignedImage [] v =
      .error (.panic "loaduvm: addr must be page aligned") v' := by
  suffices hwp : wp (exec smallKernel cur unalignedImage []) (fun _ _ => False)
      (fun e _ => e = .panic "loaduvm: addr must be page aligned") v by
    cases hrun : exec smallKernel cur unalignedImage [] v with
    | ok r v' => exact (wp_ok hwp hrun).elim
    | error e v' =>
      rw [wp_error hwp hrun]
      exact ⟨v', rfl⟩
  have hend : unalignedHeader.vaddr + unalignedHeader.memsz = 2 := by decide
  have hgrown : grown 0 2 = 2 := by decide
  unfold exec
  rw [if_neg (by decide), if_neg (by decide)]
  refine wp_seq (setupkvm_stage h) fun r v1 hr => ?_
  cases r with
  | none => exact absurd (hg.mono (by omega)) hr.2.2
  | some d =>
    dsimp only
    unfold loadImage
    rw [show unalignedImage.phnum = 1 by decide, show unalignedImage.phoff = 52 by decide]
    unfold loadSegments
    rw [if_neg (by decide)]
    dsimp only
    rw [show unalignedImage.proghdr (52 : UInt32).toNat = unalignedHeader by decide,
      if_neg (by decide), if_neg (by decide), hend]
    refine wp_bind.2 (wp_bind.2 (wp_seq (allocuvm_stage hr (by decide) ?_) ?_))
    · exact tablesGranted_of_grants hg
    · rw [hgrown]
      rintro r v2 (⟨rfl, -⟩ | ⟨rfl, -, hno⟩)
      · rw [if_neg (by decide)]
        unfold loaduvm
        rw [if_pos (by decide)]
        rfl
      · exact absurd hg hno

end

/-- `exec` panics at a segment that is not aligned to a page. -/
theorem exec_unaligned_panics :
    Own (Pool.all smallKernel) (Owners.empty.addRoot 0x400) (onePage (List.range' 0x403 70)) ∧
    Enough (onePage (List.range' 0x403 70)) unalignedImage ∧
    ∃ v', exec smallKernel 0x400 unalignedImage [] (onePage (List.range' 0x403 70)) =
      .error (.panic "loaduvm: addr must be page aligned") v' := by
  have hown := own_freePages (n := 70) (by omega)
  have hg : Grants (onePage (List.range' 0x403 70)) 69 := onePage_grants (by simp)
  refine ⟨hown, ?_, exec_unaligned hown (hg.mono (by omega))⟩
  rw [Enough, unalignedImage_plan]
  exact forall_mem_cons.2 ⟨hg.mono (by decide), forall_mem_singleton.2 hg⟩

/-- `exec` of a program with a segment and an argument. -/
theorem exec_returns_iff_text :
    Enough (onePage (List.range' 0x403 70)) textImage ∧
    ExecSound (onePage (List.range' 0x403 70)) textImage [[97]] ∧
    ∃ r v', exec smallKernel 0x400 textImage [[97]] (onePage (List.range' 0x403 70)) =
      .ok r v' := by
  have hg : Grants (onePage (List.range' 0x403 70)) 69 := onePage_grants (by simp)
  have hmem : Enough (onePage (List.range' 0x403 70)) textImage := by
    rw [Enough, textImage_plan]
    exact forall_mem_cons.2 ⟨hg.mono (by decide), forall_mem_singleton.2 hg⟩
  refine ⟨hmem, textImage_sound hg, (exec_returns_iff (a := none) (own_freePages (by omega)) rfl
    hmem fun _ => textImage_sound hg).2 fun _ => ?_⟩
  rw [textImage_plan]
  exact textHeader_placed

end Xv6.Vm
