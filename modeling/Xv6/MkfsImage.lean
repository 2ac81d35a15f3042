import Xv6.FileArray

/-!
# The image that `mkfs` writes

The files `mkfs` has made so far, as lists of bytes, and the blocks that hold them (`Image`) :
file `i` has its first `m i` blocks, each in a block of its own from those that were handed out,
and they hold the bytes of the file. The inodes are a table beside the image, since `iappend`
works on a copy of the inode that it writes back at the end (`Built`).

An inode lies in the inode blocks as long as its number is below 208. What follows is about
`mkfs` up to there.
-/

open Function Prog Layout List

namespace Xv6.Mkfs

/-- File `c` is in the first `m` blocks of the inode `d`, which has no others. -/
structure FileOk (img : ℕ → Block) (d : Dinode) (c : List UInt8) (m : ℕ) : Prop where
  le : c.length ≤ m * BSIZE
  max : m ≤ MAXFILE
  used : ∀ n < MAXFILE, fileAddr img d n ≠ 0 ↔ n < m
  byte : ∀ k < c.length, (img (fileAddr img d (k / BSIZE))).get (k % BSIZE) = c.getD k 0

/-- The files `c` of the inodes `D` are in the image, in distinct blocks. -/
structure Image (D : ℕ → Dinode) (c : ℕ → List UInt8) (m : ℕ → ℕ) (s : State) : Prop where
  len : s.len = FSSIZE
  block_ge : nmeta ≤ s.freeblock
  block_le : s.freeblock ≤ FSSIZE + 1
  fresh : ∀ b, s.freeblock ≤ b → s.img b = zeroBlock
  file : ∀ i < s.freeinode, FileOk s.img (D i) (c i) (m i)
  own : ∀ i < s.freeinode, ∀ j < NSLOT, slotAddr s.img (D i) j ≠ 0 →
    nmeta ≤ slotAddr s.img (D i) j ∧ slotAddr s.img (D i) j < s.freeblock
  inj : ∀ i < s.freeinode, ∀ j < NSLOT, ∀ i' < s.freeinode, ∀ j' < NSLOT,
    slotAddr s.img (D i) j ≠ 0 → slotAddr s.img (D i) j = slotAddr s.img (D i') j' →
      i = i' ∧ j = j'

variable {D : ℕ → Dinode} {c : ℕ → List UInt8} {m : ℕ → ℕ} {s : State} {i j n b : ℕ} {d : Dinode}

theorem FileOk.congr {img img' : ℕ → Block} {d' : Dinode} {l : List UInt8} {k : ℕ}
    (h : FileOk img d l k) (hslot : ∀ n < MAXFILE, fileAddr img' d' n = fileAddr img d n)
    (hblock : ∀ n < k, img' (fileAddr img d n) = img (fileAddr img d n)) : FileOk img' d' l k := by
  refine ⟨h.le, h.max, fun n hn => by rw [hslot n hn, h.used n hn], fun q hq => ?_⟩
  have hlt : q / BSIZE < k := (Nat.div_lt_iff_lt_mul (by decide)).2 (hq.trans_le h.le)
  rw [hslot _ (hlt.trans_le h.max), hblock _ hlt]
  exact h.byte q hq

/-- A slot of inode `i` that was empty gets the next block. Other slots stay, and so do the blocks
of the files. -/
theorem Image.give (h : Image D c m s) (hj : j < NSLOT)
    (hempty : slotAddr s.img (D i) j = 0) {s' : State} {D' : ℕ → Dinode} {m' : ℕ → ℕ}
    (hb : s.freeblock ≤ FSSIZE) (hlen : s'.len = s.len) (hino : s'.freeinode = s.freeinode)
    (hfree : s'.freeblock = s.freeblock + 1)
    (hfresh : ∀ b, s'.freeblock ≤ b → s'.img b = s.img b)
    (hslot : ∀ k < s.freeinode, ∀ q < NSLOT, slotAddr s'.img (D' k) q =
      if k = i ∧ q = j then s.freeblock else slotAddr s.img (D k) q)
    (hblock : ∀ k < s.freeinode, ∀ n < MAXFILE, fileAddr s.img (D k) n ≠ 0 →
      s'.img (fileAddr s.img (D k) n) = s.img (fileAddr s.img (D k) n))
    (hm : ∀ k < s.freeinode, m' k = m k ∧ (k = i → j = NDIRECT) ∨
      k = i ∧ j = fileSlot (m k) ∧ m' k = m k + 1 ∧ m k < MAXFILE) :
    Image D' c m' s' := by
  have hge := h.block_ge
  have hnmeta : 0 < nmeta := by decide
  refine ⟨hlen.trans h.len, by omega, by omega, fun b hb' => ?_, fun k hk => ?_,
    fun k hk q hq hne => ?_, fun k hk q hq k' hk' q' hq' hne heq => ?_⟩
  · rw [hfresh b hb', h.fresh b (by omega)]
  · rw [hino] at hk
    have hf := h.file k hk
    rcases hm k hk with ⟨hmk, hjk⟩ | ⟨rfl, rfl, hmk, hlt⟩
    · rw [hmk]
      refine hf.congr (fun n hn => ?_) fun n hn => hblock k hk n (hn.trans_le hf.max)
        ((hf.used n (hn.trans_le hf.max)).2 hn)
      rw [fileAddr, hslot k hk _ (fileSlot_lt hn), if_neg, fileAddr]
      rintro ⟨rfl, hq⟩
      exact fileSlot_ne n (hq.trans (hjk rfl))
    · rw [hmk]
      have haddr : ∀ n < MAXFILE, fileAddr s'.img (D' k) n =
          if n = m k then s.freeblock else fileAddr s.img (D k) n := fun n hn => by
        rw [fileAddr, hslot k hk _ (fileSlot_lt hn)]
        refine if_congr ⟨fun hq => fileSlot_inj hq.2, ?_⟩ rfl rfl
        rintro rfl
        exact ⟨rfl, rfl⟩
      refine ⟨hf.le.trans (Nat.mul_le_mul_right _ (Nat.le_succ _)), by omega, fun n hn => ?_,
        fun q hq => ?_⟩
      · rw [haddr n hn]
        by_cases hnm : n = m k
        · rw [if_pos hnm]
          omega
        · rw [if_neg hnm, hf.used n hn]
          omega
      · have hq' : q / BSIZE < m k := (Nat.div_lt_iff_lt_mul (by decide)).2 (hq.trans_le hf.le)
        have hqM := hq'.trans hlt
        rw [haddr _ hqM, if_neg (by omega), hblock k hk _ hqM ((hf.used _ hqM).2 hq')]
        exact hf.byte q hq
  · rw [hino] at hk
    rw [hslot k hk q hq] at hne ⊢
    split_ifs at hne ⊢ with hc
    · omega
    · have := h.own k hk q hq hne
      omega
  · rw [hino] at hk hk'
    rw [hslot k hk q hq] at hne
    rw [hslot k hk q hq, hslot k' hk' q' hq'] at heq
    split_ifs at hne heq with h1 h2 h2
    · exact ⟨h1.1.trans h2.1.symm, h1.2.trans h2.2.symm⟩
    · have := (h.own k' hk' q' hq' (by omega)).2
      omega
    · have := (h.own k hk q hq hne).2
      omega
    · exact h.inj k hk q hq k' hk' q' hq' hne heq

/-- Bytes are written to the last block of file `i`, after those it has. -/
theorem Image.append (h : Image D c m s) (hi : i < s.freeinode) {p : List UInt8} {data : Block}
    (hp : (c i).length + p.length ≤ m i * BSIZE) (hlast : m i ≤ (c i).length / BSIZE + 1)
    (hn : n = (c i).length / BSIZE) (hnm : n < m i)
    (hdata : ∀ q < BSIZE, data.get q = if (c i).length % BSIZE ≤ q ∧
      q < (c i).length % BSIZE + p.length then p.getD (q - (c i).length % BSIZE) 0
      else (s.img (fileAddr s.img (D i) n)).get q) :
    Image D (update c i (c i ++ p)) m
      { s with img := update s.img (fileAddr s.img (D i) n) data } := by
  have hf := h.file i hi
  have hnM : n < MAXFILE := hnm.trans_le hf.max
  have hne : fileAddr s.img (D i) n ≠ 0 := (hf.used n hnM).2 hnm
  -- the block is no indirect block
  have hind : ∀ k < s.freeinode, (D k).addr NDIRECT ≠ 0 →
      update s.img (fileAddr s.img (D i) n) data ((D k).addr NDIRECT) =
        s.img ((D k).addr NDIRECT) := by
    intro k hk h0
    refine update_of_ne (fun he => ?_) _ _
    have := h.inj i hi (fileSlot n) (fileSlot_lt hnM) k hk NDIRECT NDIRECT_lt hne he.symm
    exact fileSlot_ne n this.2
  have hslot : ∀ k < s.freeinode, ∀ q,
      slotAddr (update s.img (fileAddr s.img (D i) n) data) (D k) q =
        slotAddr s.img (D k) q := fun k hk q =>
    slotAddr_congr (fun _ _ => rfl) (hind k hk) q
  have hfile : ∀ k < s.freeinode, ∀ q,
      fileAddr (update s.img (fileAddr s.img (D i) n) data) (D k) q =
        fileAddr s.img (D k) q := fun k hk q => hslot k hk _
  refine ⟨h.len, h.block_ge, h.block_le, fun b hb => ?_, fun k hk => ?_, fun k hk q hq hne' => ?_,
    fun k hk q hq k' hk' q' hq' hne' heq => ?_⟩
  · show update s.img (fileAddr s.img (D i) n) data b = zeroBlock
    rw [update_of_ne, h.fresh b hb]
    rintro rfl
    have hlt := (h.own i hi (fileSlot n) (fileSlot_lt hnM) hne).2
    have hb' : s.freeblock ≤ slotAddr s.img (D i) (fileSlot n) := hb
    omega
  · show FileOk (update s.img (fileAddr s.img (D i) n) data) _ _ _
    by_cases hki : k = i
    · subst hki
      rw [update_self]
      refine ⟨by rw [length_append]; exact hp, hf.max, fun q hq => ?_, fun q hq => ?_⟩
      · rw [hfile k hi, hf.used q hq]
      · rw [length_append] at hq
        rw [hfile k hi]
        have hqm : q / BSIZE < m k := (Nat.div_lt_iff_lt_mul (by decide)).2 (by omega)
        have hqM := hqm.trans_le hf.max
        have hq512 : q % BSIZE < BSIZE := Nat.mod_lt _ (by decide)
        simp only [BSIZE] at *
        by_cases hqn : q / 512 = n
        · rw [hqn, update_self, hdata _ hq512]
          by_cases hold : q < (c k).length
          · rw [if_neg (by omega), getD_append _ _ _ _ hold, ← hqn]
            exact hf.byte q hold
          · rw [if_pos (by omega), getD_append_right _ _ _ _ (by omega)]
            congr 1
            omega
        · rw [update_of_ne, getD_append]
          · exact hf.byte q (by omega)
          · omega
          · intro he
            have := h.inj k hi _ (fileSlot_lt hqM) k hi _ (fileSlot_lt hnM)
              ((hf.used _ hqM).2 hqm) he
            exact hqn (fileSlot_inj this.2)
    · rw [update_of_ne hki]
      have hfk := h.file k hk
      refine hfk.congr (fun q _ => hslot k hk _) fun q hq =>
        update_of_ne (fun he => ?_) _ _
      have hqM := hq.trans_le hfk.max
      exact hki (h.inj k hk _ (fileSlot_lt hqM) i hi _ (fileSlot_lt hnM)
        ((hfk.used q hqM).2 hq) he).1
  · rw [hslot k hk] at hne' ⊢
    exact h.own k hk q hq hne'
  · rw [hslot k hk] at hne'
    rw [hslot k hk, hslot k' hk'] at heq
    exact h.inj k hk q hq k' hk' q' hq' hne' heq

/-- The files depend on the addresses of the inodes and on the data blocks. A new inode has no
block. -/
theorem Image.congr (h : Image D c m s) {D' : ℕ → Dinode} {c' : ℕ → List UInt8} {m' : ℕ → ℕ}
    {s' : State} (hlen : s'.len = s.len) (hfree : s'.freeblock = s.freeblock)
    (himg : ∀ b, nmeta ≤ b → s'.img b = s.img b)
    (hinode : ∀ k < s'.freeinode,
      k < s.freeinode ∧ (D' k).addrs = (D k).addrs ∧ c' k = c k ∧ m' k = m k ∨
        (D' k).addrs = Dinode.zero.addrs ∧ c' k = [] ∧ m' k = 0) : Image D' c' m' s' := by
  have hslot : ∀ k < s'.freeinode, k < s.freeinode ∧ c' k = c k ∧ m' k = m k ∧
      (∀ q, slotAddr s'.img (D' k) q = slotAddr s.img (D k) q) ∨
      c' k = [] ∧ m' k = 0 ∧ ∀ q, slotAddr s'.img (D' k) q = 0 := by
    intro k hk
    rcases hinode k hk with ⟨hlt, ha, hc, hm⟩ | ⟨ha, hc, hm⟩
    · refine .inl ⟨hlt, hc, hm, slotAddr_congr (fun j _ => by rw [Dinode.addr, ha, Dinode.addr])
        fun hne => himg _ (h.own k hlt NDIRECT NDIRECT_lt hne).1⟩
    · refine .inr ⟨hc, hm, fun q => ?_⟩
      have haddr : ∀ j, (D' k).addr j = 0 := fun j => by
        rw [Dinode.addr, ha]
        split_ifs <;> rfl
      rw [slotAddr, haddr, haddr, if_pos rfl, ite_self]
  refine ⟨hlen.trans h.len, by rw [hfree]; exact h.block_ge, by rw [hfree]; exact h.block_le,
    fun b hb => ?_, fun k hk => ?_, fun k hk q hq hne => ?_,
    fun k hk q hq k' hk' q' hq' hne heq => ?_⟩
  · rw [hfree] at hb
    rw [himg b (h.block_ge.trans hb), h.fresh b hb]
  · rcases hslot k hk with ⟨hlt, hc, hm, hs⟩ | ⟨hc, hm, hs⟩
    · rw [hc, hm]
      have hf := h.file k hlt
      refine hf.congr (fun n _ => hs _) fun n hn => himg _ ?_
      have hnM := hn.trans_le hf.max
      exact (h.own k hlt _ (fileSlot_lt hnM) ((hf.used n hnM).2 hn)).1
    · rw [hc, hm]
      refine ⟨Nat.zero_le _, Nat.zero_le _, fun n _ => ?_,
        fun q hq => absurd hq (Nat.not_lt_zero q)⟩
      exact iff_of_false (fun hne => hne (hs _)) (Nat.not_lt_zero n)
  · rcases hslot k hk with ⟨hlt, -, -, hs⟩ | ⟨-, -, hs⟩
    · rw [hs] at hne ⊢
      rw [hfree]
      exact h.own k hlt q hq hne
    · exact absurd (hs q) hne
  · rcases hslot k hk with ⟨hlt, -, -, hs⟩ | ⟨-, -, hs⟩
    · rcases hslot k' hk' with ⟨hlt', -, -, hs'⟩ | ⟨-, -, hs'⟩
      · rw [hs] at hne
        rw [hs, hs'] at heq
        exact h.inj k hlt q hq k' hlt' q' hq' hne heq
      · exact absurd (heq.trans (hs' q')) hne
    · exact absurd (hs q) hne

/-! ## Sectors -/

variable {E : Fail → State → Prop}

theorem wp_rsect {Q : Block → State → Prop} (h : b < s.len → Q (s.img b) s)
    (hE : s.len ≤ b → E .exit s) : wp (rsect b) Q E s := by
  unfold rsect
  simp only [wp_bind, wp_get]
  split_ifs with hb
  · exact h hb
  · exact hE (Nat.not_lt.1 hb)

theorem wp_wsect {Q : Unit → State → Prop} {data : Block} (hb : b < s.len) :
    wp (wsect b data) Q E s ↔ Q () { s with img := update s.img b data } := by
  unfold wsect
  rw [wp_modify, setBlock_eq, Nat.max_eq_left hb]

theorem wp_nextBlock {Q : ℕ → State → Prop} :
    wp nextBlock Q E s ↔ Q s.freeblock { s with freeblock := s.freeblock + 1 } := by
  unfold nextBlock
  simp only [wp_bind, wp_get, wp_modify, wp_pure]

/-- At most `k` blocks were handed out, and the blocks before the data blocks are the same. -/
structure Kept (k : ℕ) (s s' : State) : Prop where
  inode : s'.freeinode = s.freeinode
  le : s.freeblock ≤ s'.freeblock
  ge : s'.freeblock ≤ s.freeblock + k
  low : ∀ b < nmeta, s'.img b = s.img b

theorem Kept.refl (s : State) : Kept 0 s s :=
  ⟨rfl, le_rfl, le_rfl, fun _ _ => rfl⟩

theorem Kept.trans {k l : ℕ} {s' s'' : State} (h : Kept k s s') (h' : Kept l s' s'') :
    Kept (k + l) s s'' :=
  ⟨h'.inode.trans h.inode, h.le.trans h'.le, by have := h.ge; have := h'.ge; omega,
    fun b hb => (h'.low b hb).trans (h.low b hb)⟩

theorem Kept.mono {k l : ℕ} {s' : State} (h : Kept k s s') (hkl : k ≤ l) : Kept l s s' :=
  ⟨h.inode, h.le, by have := h.ge; omega, h.low⟩

theorem Kept.write {k x : ℕ} {s' : State} {data : Block} (h : Kept k s s') (hx : nmeta ≤ x) :
    Kept k s { s' with img := update s'.img x data } :=
  ⟨h.inode, h.le, h.ge, fun b hb => (update_of_ne (by omega) _ _).trans (h.low b hb)⟩

theorem Image.ne_zero (h : Image D c m s) : s.freeblock ≠ 0 := by
  have := h.block_ge
  have : 0 < nmeta := by decide
  omega

theorem Image.setAddr (h : Image D c m s) (hj : j < NDIRECT + 1) (hempty : (D i).addr j = 0)
    (hb : s.freeblock ≤ FSSIZE) {m' : ℕ → ℕ}
    (hm : ∀ k < s.freeinode, m' k = m k ∧ (k = i → j = NDIRECT) ∨
      k = i ∧ j = fileSlot (m k) ∧ m' k = m k + 1 ∧ m k < MAXFILE) :
    Image (update D i ((D i).setAddr j s.freeblock)) c m'
      { s with freeblock := s.freeblock + 1 } := by
  have hlt : s.freeblock < 2 ^ 32 := hb.trans_lt (by decide)
  have hempty' : slotAddr s.img (D i) j = 0 := (slotAddr_of_lt hj).trans hempty
  refine h.give (by simp only [NSLOT] at *; omega) hempty' hb rfl rfl rfl (fun _ _ => rfl)
    (fun k _ q _ => ?_) (fun _ _ _ _ _ => rfl) hm
  by_cases hki : k = i
  · subst hki
    rw [update_self, slotAddr_setAddr hj hlt h.ne_zero hempty (h.fresh _ le_rfl)
      fun _ => rfl]
    simp
  · rw [update_of_ne hki, if_neg fun hc => hki hc.1]

theorem slotAddr_setWord {img : ℕ → Block} (hn : NDIRECT ≤ n) (hnM : n < MAXFILE)
    (hb : b < 2 ^ 32) (hind : d.addr NDIRECT ≠ 0) (q : ℕ) :
    slotAddr (update img (d.addr NDIRECT) (Bytes.write Codec.u32
      (img (d.addr NDIRECT)) (4 * (n - NDIRECT)) (UInt32.ofNat b))) d q =
        if q = fileSlot n then b else slotAddr img d q := by
  have hslot : fileSlot n = n + 1 := if_neg (Nat.not_lt.2 hn)
  refine slotAddr_write (by omega) (fileSlot_lt hnM) hb hind ?_ q
  rw [update_self, hslot, Nat.add_sub_add_right]

theorem Image.setWord (h : Image D c m s) (hi : i < s.freeinode) (hn : NDIRECT ≤ n)
    (hnM : n < MAXFILE) (hind : (D i).addr NDIRECT ≠ 0) (hempty : fileAddr s.img (D i) n = 0)
    (hmi : m i = n) (hb : s.freeblock ≤ FSSIZE) :
    Image D c (update m i (n + 1))
      { s with
        freeblock := s.freeblock + 1
        img := update s.img ((D i).addr NDIRECT)
          (Bytes.write Codec.u32 (s.img ((D i).addr NDIRECT)) (4 * (n - NDIRECT))
            (UInt32.ofNat s.freeblock)) } := by
  have hlt : s.freeblock < 2 ^ 32 := hb.trans_lt (by decide)
  have hown := h.own i hi NDIRECT NDIRECT_lt hind
  refine h.give (j := fileSlot n) (fileSlot_lt hnM) hempty hb rfl rfl rfl (fun b hb' => ?_)
    (fun k hk q hq => ?_) (fun k hk q hq hne => ?_) fun k hk => ?_
  · refine update_of_ne (fun he => ?_) _ _
    have hlt' : (D i).addr NDIRECT < s.freeblock := hown.2
    have hb'' : s.freeblock + 1 ≤ b := hb'
    omega
  · by_cases hki : k = i
    · subst hki
      rw [slotAddr_setWord hn hnM hlt hind]
      simp
    · rw [if_neg fun hc => hki hc.1]
      refine slotAddr_congr (fun _ _ => rfl) (fun hne => update_of_ne (fun he => ?_) _ _) q
      exact hki (h.inj k hk NDIRECT NDIRECT_lt i hi NDIRECT NDIRECT_lt hne he).1
  · refine update_of_ne (fun he => ?_) _ _
    exact fileSlot_ne q
      (h.inj k hk _ (fileSlot_lt hq) i hi NDIRECT NDIRECT_lt hne he).2
  · by_cases hki : k = i
    · subst hki
      exact .inr ⟨rfl, by rw [hmi], by rw [update_self, hmi], by omega⟩
    · exact .inl ⟨update_of_ne hki _ _, fun hc => absurd hc hki⟩

/-! ## `iappend` -/

/-- The inode may have other addresses. -/
def SameMeta (d d' : Dinode) : Prop :=
  d' = { d with addrs := d'.addrs }

theorem SameMeta.trans_addrs {d d' d'' : Dinode} (h' : SameMeta d' d'') (h : SameMeta d d') :
    SameMeta d d'' := by
  rw [SameMeta, h', h]

theorem sameMeta_setAddr (d : Dinode) (j b : ℕ) : SameMeta d (d.setAddr j b) :=
  rfl

/-- The block for file block `n` once the inode has an indirect block. -/
theorem iappendWord_spec (h : Image D c m s) (hi : i < s.freeinode) (hge : NDIRECT ≤ n)
    (hn : n < MAXFILE) (hm : m i = n ∨ m i = n + 1) (hind : (D i).addr NDIRECT ≠ 0)
    (hb : s.freeblock ≤ FSSIZE ∨ s.freeblock = (D i).addr NDIRECT + 1) :
    wp (do
        let indirect ← rsect ((D i).addr NDIRECT)
        let x := indWord indirect (n - NDIRECT)
        if x = 0 then do
          let x ← nextBlock
          wsect ((D i).addr NDIRECT)
            (Bytes.write Codec.u32 indirect (4 * (n - NDIRECT)) (UInt32.ofNat x))
          return (D i, x)
        else
          return (D i, x))
      (fun r s' => Image D c (update m i (n + 1)) s' ∧
        r = (D i, fileAddr s'.img (D i) n) ∧ Kept 1 s s' ∧
        (s'.freeblock ≤ FSSIZE ∨ s'.freeblock = r.2 + 1))
      (fun _ _ => FSSIZE < s.freeblock) s := by
  have hf := h.file i hi
  have hslotn : fileSlot n = n + 1 := if_neg (Nat.not_lt.2 hge)
  obtain ⟨hown1, hown2⟩ : nmeta ≤ (D i).addr NDIRECT ∧ (D i).addr NDIRECT < s.freeblock :=
    h.own i hi NDIRECT NDIRECT_lt hind
  have haddr : fileAddr s.img (D i) n = indWord (s.img ((D i).addr NDIRECT)) (n - NDIRECT) := by
    rw [fileAddr, slotAddr, hslotn, if_neg (by omega), if_neg hind, Nat.add_sub_add_right]
  rw [wp_bind]
  refine wp_rsect (fun hlt => ?_) fun hlen => ?_
  · rw [h.len] at hlt
    have hb' : s.freeblock ≤ FSSIZE := by omega
    dsimp only
    split_ifs with hx
    · have hmi : m i = n := hm.resolve_right fun he =>
        (hf.used n hn).2 (by omega) (haddr.trans hx)
      have hlt' : s.freeblock < 2 ^ 32 := hb'.trans_lt (by decide)
      rw [wp_bind, wp_nextBlock, wp_bind, wp_wsect (by rw [h.len]; exact hlt), wp_pure]
      refine ⟨h.setWord hi hge hn hind (haddr.trans hx) hmi hb', ?_,
        ⟨rfl, Nat.le_succ _, le_rfl, fun b hb => update_of_ne (by omega) _ _⟩,
        .inr rfl⟩
      refine Prod.ext rfl ?_
      exact ((slotAddr_setWord hge hn hlt' hind _).trans (if_pos rfl)).symm
    · have hmi : m i = n + 1 := by
        refine hm.resolve_left fun he => ?_
        have := (hf.used n hn).1 (haddr ▸ hx)
        omega
      rw [wp_pure, ← hmi, update_eq_self]
      exact ⟨h, Prod.ext rfl haddr.symm, (Kept.refl s).mono (Nat.zero_le 1), .inl hb'⟩
  · rw [h.len] at hlen
    omega

/-- The block for file block `n`, the last of the file or the next. -/
theorem iappendBlock_spec (h : Image D c m s) (hi : i < s.freeinode) (hb : s.freeblock ≤ FSSIZE)
    (hn : n < MAXFILE) (hm : m i = n ∨ m i = n + 1) :
    wp (iappendBlock (D i) n) (fun r s' => Image (update D i r.1) c
        (update m i (n + 1)) s' ∧ r.2 = fileAddr s'.img r.1 n ∧ SameMeta (D i) r.1 ∧
        Kept 2 s s' ∧ (s'.freeblock ≤ FSSIZE ∨ s'.freeblock = r.2 + 1))
      (fun _ _ => FSSIZE < s.freeblock + 2) s := by
  have hf := h.file i hi
  have hlt : s.freeblock < 2 ^ 32 := hb.trans_lt (by decide)
  have haddr : n < NDIRECT → fileAddr s.img (D i) n = (D i).addr n := fun hdir => by
    rw [fileAddr, fileSlot, if_pos hdir, slotAddr_of_lt (by omega)]
  unfold iappendBlock
  split_ifs with hdir h0 h0
  · have hmi : m i = n := hm.resolve_right fun he =>
      (hf.used n hn).2 (by omega) ((haddr hdir).trans h0)
    rw [wp_bind, wp_nextBlock, wp_pure]
    refine ⟨h.setAddr (by omega) h0 hb fun k _ => ?_, ?_, sameMeta_setAddr _ _ _,
      ⟨rfl, Nat.le_succ _, Nat.add_le_add_left (by decide) _, fun _ _ => rfl⟩, .inr ?_⟩
    · by_cases hki : k = i
      · subst hki
        refine .inr ⟨rfl, ?_, by rw [update_self, hmi], by omega⟩
        rw [hmi, fileSlot, if_pos hdir]
      · exact .inl ⟨update_of_ne hki _ _, fun hc => absurd hc hki⟩
    · rw [fileAddr, fileSlot, if_pos hdir, slotAddr_of_lt (by omega)]
    · rw [Dinode.addr_setAddr _ (by omega) hlt, if_pos rfl]
  · have hmi : m i = n + 1 := by
      refine hm.resolve_left fun he => ?_
      have := (hf.used n hn).1 (haddr hdir ▸ h0)
      omega
    rw [wp_pure, update_eq_self, ← hmi, update_eq_self]
    exact ⟨h, (haddr hdir).symm, rfl, (Kept.refl s).mono (Nat.zero_le 2), .inl hb⟩
  · -- the indirect block is the next one
    have hind : ((D i).setAddr NDIRECT s.freeblock).addr NDIRECT = s.freeblock := by
      rw [Dinode.addr_setAddr _ (by decide) hlt, if_pos rfl]
    have h1 := h.setAddr (by decide) h0 hb fun k _ => .inl ⟨rfl, fun _ => rfl⟩
    have hi' : i < ({ s with freeblock := s.freeblock + 1 } : State).freeinode := hi
    have hword := iappendWord_spec h1 hi' (Nat.not_lt.1 hdir) hn hm
      (by rw [update_self, hind]; exact h.ne_zero)
      (.inr (by rw [update_self, hind]))
    rw [update_self] at hword
    rw [wp_bind, wp_nextBlock]
    refine wp_mono' hword (fun r s' hr => ?_) fun _ _ he => Nat.lt_succ_of_lt he
    obtain ⟨himg, rfl, hk, hb'⟩ := hr
    exact ⟨himg, rfl, sameMeta_setAddr _ _ _,
      ⟨hk.inode, (Nat.le_succ _).trans hk.le, hk.ge, hk.low⟩, hb'⟩
  · refine wp_mono' (iappendWord_spec h hi (Nat.not_lt.1 hdir) hn hm h0 (.inl hb))
      (fun r s' hr => ?_) fun _ _ he => by omega
    obtain ⟨himg, rfl, hk, hb'⟩ := hr
    rw [update_eq_self]
    exact ⟨himg, rfl, rfl, hk.mono (by decide), hb'⟩

/-- The number of blocks that `n` bytes take. -/
def blocks (n : ℕ) : ℕ :=
  (n + (BSIZE - 1)) / BSIZE

/-- The number of turns of `iappend` for `n` bytes at offset `off`. -/
def turns (off n : ℕ) : ℕ :=
  if n = 0 then 0 else (off % BSIZE + n + (BSIZE - 1)) / BSIZE

theorem turns_succ (off : ℕ) (hn : 0 < n) :
    turns (off + min n ((off / BSIZE + 1) * BSIZE - off))
      (n - min n ((off / BSIZE + 1) * BSIZE - off)) + 1 = turns off n := by
  unfold turns
  simp only [BSIZE]
  rw [if_neg (by omega : ¬ n = 0)]
  split_ifs with h0 <;> omega

/-- The bytes that a turn of `iappend` writes go after those the file has. -/
theorem Image.turn (h : Image D c m s) (hi : i < s.freeinode) {p : List UInt8} {n1 : ℕ}
    (hn1 : n1 = min p.length (((c i).length / BSIZE + 1) * BSIZE - (c i).length))
    (hm : m i = (c i).length / BSIZE + 1) :
    Image D (update c i (c i ++ p.take n1)) m
      { s with
        img := update s.img (fileAddr s.img (D i) ((c i).length / BSIZE))
          ((s.img (fileAddr s.img (D i) ((c i).length / BSIZE))).blit
            ((c i).length - (c i).length / BSIZE * BSIZE) n1 (cstr p)) } := by
  have hmod : (c i).length - (c i).length / BSIZE * BSIZE = (c i).length % BSIZE := by
    simp only [BSIZE]
    omega
  have htake : (p.take n1).length = n1 := by
    rw [length_take]
    omega
  refine h.append hi ?_ hm.le rfl (by omega) fun q hq => ?_
  · rw [htake, hm]
    simp only [BSIZE] at *
    omega
  · rw [Bytes.get_blit _ _ _ _ hq, hmod, htake]
    split_ifs with hc
    · show p.getD _ 0 = (p.take n1).getD _ 0
      rw [getD_eq_getElem?_getD, getD_eq_getElem?_getD,
        getElem?_take_of_lt (by omega)]
    · rfl

/-- `iappend` writes the bytes after those the file has. -/
theorem iappendLoop_spec (fuel : ℕ) : ∀ {D : ℕ → Dinode} {c : ℕ → List UInt8} {m : ℕ → ℕ}
    {s : State} {p : List UInt8}, Image D c m s → i < s.freeinode → m i = blocks (c i).length →
    s.freeblock ≤ FSSIZE → p.length ≤ fuel →
    wp (iappendLoop fuel (D i) (c i).length p) (fun r s' =>
        Image (update D i r.1) (update c i (c i ++ p))
          (update m i (blocks (c i ++ p).length)) s' ∧
        r.2 = (c i ++ p).length ∧ SameMeta (D i) r.1 ∧ s'.freeblock ≤ FSSIZE ∧
        Kept (2 * turns (c i).length p.length) s s')
      (fun _ _ => FSSIZE < s.freeblock + 2 * turns (c i).length p.length ∨
        MAXFILE * BSIZE < (c i).length + p.length) s := by
  induction fuel with
  | zero =>
    intro D c m s p h hi hm hb hp
    obtain rfl : p = [] := eq_nil_of_length_eq_zero (Nat.le_zero.1 hp)
    unfold iappendLoop
    rw [wp_pure, append_nil, update_eq_self, update_eq_self, ← hm,
      update_eq_self]
    exact ⟨h, rfl, rfl, hb, Kept.refl s⟩
  | succ fuel ih =>
    intro D c m s p h hi hm hb hp
    unfold iappendLoop
    split_ifs with hnil hmax
    · subst hnil
      rw [wp_pure, append_nil, update_eq_self, update_eq_self, ← hm,
        update_eq_self]
      exact ⟨h, rfl, rfl, hb, Kept.refl s⟩
    · have hpos : 0 < p.length := length_pos_iff.2 hnil
      have hturns := turns_succ (c i).length hpos
      refine wp_seq (wp_mono' (iappendBlock_spec h hi hb hmax ?_) (fun _ _ hr => hr)
        fun _ _ he => .inl (by omega)) ?_
      · rw [hm, blocks]
        simp only [BSIZE]
        omega
      rintro ⟨d, x⟩ s1 ⟨h1, hx, hmeta, hk, hb1⟩
      dsimp only at hx hmeta hb1 h1 ⊢
      have hi1 : i < s1.freeinode := hk.inode ▸ hi
      obtain ⟨hge, hlt⟩ : nmeta ≤ x ∧ x < s1.freeblock := by
        have hf := (h1.file i hi1).used _ hmax
        rw [update_self, update_self, ← hx] at hf
        have hown := h1.own i hi1 _ (fileSlot_lt hmax)
        rw [update_self, ← fileAddr, ← hx] at hown
        exact hown (hf.2 (Nat.lt_succ_self _))
      rw [wp_bind]
      refine wp_rsect (fun hxlen => ?_) fun hxlen => ?_
      · rw [h1.len] at hxlen
        rw [wp_bind, wp_wsect (by rw [h1.len]; exact hxlen)]
        have h2 := h1.turn hi1 rfl (update_self ..) (p := p)
        rw [update_self, ← hx] at h2
        set n1 := min p.length (((c i).length / BSIZE + 1) * BSIZE - (c i).length) with hn1
        have hlen : (c i ++ p.take n1).length = (c i).length + n1 := by
          rw [length_append, length_take]
          omega
        have hrest := ih (p := p.drop n1) h2 hi1 (by
          rw [update_self, update_self, hlen, blocks]
          simp only [BSIZE] at *
          omega) (by show s1.freeblock ≤ FSSIZE; omega) (by
          rw [length_drop]
          simp only [BSIZE] at *
          omega)
        simp only [update_self, update_idem, hlen, length_drop,
          append_assoc, take_append_drop] at hrest
        refine wp_mono' hrest (fun r s' hr => ?_) fun _ _ he => ?_
        · obtain ⟨himg, hoff, hmeta', hb', hk'⟩ := hr
          exact ⟨himg, hoff, hmeta'.trans_addrs hmeta, hb',
            ((hk.write hge).trans hk').mono (by omega)⟩
        · have hge' : s1.freeblock ≤ s.freeblock + 2 := hk.ge
          have he' : FSSIZE < s1.freeblock +
              2 * turns ((c i).length + n1) (p.length - n1) ∨
              MAXFILE * BSIZE < (c i).length + n1 + (p.length - n1) := he
          omega
      · rw [h1.len] at hxlen
        have := hk.ge
        exact .inl (by omega)
    · rw [wp_throw]
      have hpos : 0 < p.length := length_pos_iff.2 hnil
      refine .inr ?_
      simp only [BSIZE, MAXFILE] at *
      omega

end Xv6.Mkfs
