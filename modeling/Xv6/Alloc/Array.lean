import Xv6.Alloc.Keep

/-!
# The bytes of files

`Store.At` says which byte a file has at an offset, by way of the block that the inode refers to
there, and `Content` that a file is an array of bytes. As long as no block is referred to twice
(`Sane`), an allocated block, a number stored in an inode or in its indirect block, and a write to a
block of a file change nothing else. `Wrote` is what the functions that write do: bytes from an
offset on, with whatever had to be allocated.
-/

namespace Xv6.Alloc

open Function
open Fs (BSIZE MAXFILE Itype)

variable {n : ℕ} {ι : Type} {sb : Super} {s s' s'' : Store n ι} {i j : Fin n} {b c k o : ℕ}
  {bs cs : List Byte}

def Place.of (bn : ℕ) : Place := if bn < NDIRECT then .addr bn else .entry (bn - NDIRECT)

def Store.At (s : Store n ι) (j : Fin n) (k : ℕ) (v : Byte) : Prop :=
  ∃ b, (s.cur j).Ref s.blk (.of (k / BSIZE)) b ∧ s.blk b (k % BSIZE) = v

/-- The file is the array `a`. -/
structure Content (s : Store n ι) (j : Fin n) (a : List Byte) : Prop where
  length : a.length = (s.cur j).size
  get : ∀ k (h : k < a.length), s.At j k a[k]

/-- What inodes refer to is in use, and is referred to once. -/
structure Sane (sb : Super) (s : Store n ι) : Prop where
  boot : ∀ b < sb.datastart, s.marked b = true
  used : ∀ {j pl b}, (s.cur j).Ref s.blk pl b → s.InUse sb b
  unique : ∀ {j j' pl pl' b}, (s.cur j).Ref s.blk pl b → (s.cur j').Ref s.blk pl' b →
    j = j' ∧ pl = pl'

theorem Inv.sane {S : ι → Stage n} (h : Inv sb s S) (hS : ∀ p w, S p = .work w → w.phase.Quiet) :
    Sane sb s := by
  have hown : ∀ {j pl b}, (s.cur j).Ref s.blk pl b → Owns s S (.place j pl) b := by
    intro j pl b href
    refine ⟨href, ?_⟩
    rintro ⟨p, w, hp, -, hd⟩
    exact (hS p w hp).not_dropped pl hd
  refine ⟨h.boot, fun href => h.ledger.sound (hown href), fun href href' => ?_⟩
  exact Owner.place.inj (h.ledger.unique (hown href) (hown href'))

theorem Place.of_ne (bn : ℕ) : Place.of bn ≠ .addr NDIRECT := by
  unfold Place.of
  split
  · rename_i hlt
    exact fun h => hlt.ne (Place.addr.inj h)
  · nofun

theorem Place.of_inj {bn bn' : ℕ} (h : Place.of bn = Place.of bn') : bn = bn' := by
  unfold Place.of at h
  split at h
  · split at h
    · exact Place.addr.inj h
    · cases h
  · split at h
    · cases h
    · have := Place.entry.inj h
      omega

namespace Sane

theorem indirect_ne (h : Sane sb s) {pl : Place} (hb : (s.cur i).Ref s.blk pl b)
    (hpl : pl ≠ .addr NDIRECT) (hj : (s.cur j).type ≠ .free) : (s.cur j).addrs NDIRECT ≠ b := by
  intro heq
  have hind : (s.cur j).Ref s.blk (.addr NDIRECT) b :=
    ⟨hj, le_rfl, heq, (h.used hb).ne_zero⟩
  exact hpl (h.unique hb hind).2

end Sane

theorem ref_setBlk {x : Dinode} {blk : ℕ → Bytes} {d : Bytes} {pl : Place}
    (h : x.type ≠ .free → x.addrs NDIRECT ≠ b) :
    x.Ref (update blk b d) pl c ↔ x.Ref blk pl c := by
  by_cases hty : x.type = .free
  · exact iff_of_false (fun href => by cases pl <;> exact href.1 hty)
      (fun href => by cases pl <;> exact href.1 hty)
  · exact Dinode.ref_update (h hty) pl

def Store.alloc (s : Store n ι) (b : ℕ) : Store n ι := (s.setMark b).setBlk b .zero

section Alloc

variable (h : Sane sb s) (hfree : s.marked b = false)
include h hfree

theorem Sane.ref_ne {pl : Place} (href : (s.cur j).Ref s.blk pl c) : c ≠ b := by
  rintro rfl
  have hm := (h.used href).1
  rw [hfree] at hm
  cases hm

theorem Sane.ne_boot : sb.datastart ≤ b := by
  by_contra hb
  rw [h.boot b (Nat.not_le.1 hb)] at hfree
  cases hfree

theorem Sane.ref_alloc {pl : Place} :
    ((s.alloc b).cur j).Ref (s.alloc b).blk pl c ↔ (s.cur j).Ref s.blk pl c := by
  refine ref_setBlk fun hty heq => ?_
  by_cases h0 : (s.cur j).addrs NDIRECT = 0
  · have := h.ne_boot hfree
    have := sb.datastart_pos
    have : b = 0 := heq.symm.trans h0
    omega
  · have hind : (s.cur j).Ref s.blk (.addr NDIRECT) ((s.cur j).addrs NDIRECT) :=
      ⟨hty, le_rfl, rfl, h0⟩
    exact h.ref_ne hfree hind heq

end Alloc

/-- Block `b` has been allocated, and its number is in a place of inode `i`. -/
structure Filled (sb : Super) (i : Fin n) (pl₀ : Place) (b : ℕ) (s s' : Store n ι) : Prop where
  free : s.marked b = false
  lt : b < sb.size
  none : ∀ c, ¬ (s.cur i).Ref s.blk pl₀ c
  marked : ∀ c, s'.marked c = (s.marked c || decide (c = b))
  ref : ∀ {j pl c}, (s'.cur j).Ref s'.blk pl c ↔
    (s.cur j).Ref s.blk pl c ∨ j = i ∧ pl = pl₀ ∧ c = b

theorem Filled.sane {pl₀ : Place} (h : Filled sb i pl₀ b s s') (hs : Sane sb s) : Sane sb s' := by
  have hnone : ∀ {j pl}, ¬ (s.cur j).Ref s.blk pl b := fun href => hs.ref_ne h.free href rfl
  refine ⟨fun c hc => ?_, fun {j pl c} hr => ?_, fun {j j' pl pl' c} hr hr' => ?_⟩
  · rw [h.marked, hs.boot c hc, Bool.true_or]
  · rcases h.ref.1 hr with hr | ⟨-, -, rfl⟩
    · obtain ⟨hm, hrange⟩ := hs.used hr
      exact ⟨by rw [h.marked, hm, Bool.true_or], hrange⟩
    · exact ⟨by rw [h.marked, decide_eq_true rfl, Bool.or_true], hs.ne_boot h.free, h.lt⟩
  · rcases h.ref.1 hr with hr | ⟨rfl, rfl, rfl⟩
    · rcases h.ref.1 hr' with hr' | ⟨-, -, rfl⟩
      · exact hs.unique hr hr'
      · exact absurd hr hnone
    · rcases h.ref.1 hr' with hr' | ⟨rfl, rfl, -⟩
      · exact absurd hr' hnone
      · exact ⟨rfl, rfl⟩

/-! ## What does not depend on locks and copies -/

/-- Nothing that the files consist of differs. -/
structure SameFiles (s s' : Store n ι) : Prop where
  bits : s'.bits = s.bits
  blk : s'.blk = s.blk
  cur : ∀ j, s'.cur j = s.cur j

namespace SameFiles

theorem sane (h : SameFiles s s') (hs : Sane sb s) : Sane sb s' := by
  obtain ⟨hbits, hblk, hcur⟩ := h
  refine ⟨fun b hb => ?_, fun {j pl b} href => ?_, fun {j j' pl pl' b} href href' => ?_⟩
  · rw [Store.marked, hbits]
    exact hs.boot b hb
  · rw [hcur, hblk] at href
    exact (Store.inUse_congr hbits b).2 (hs.used href)
  · rw [hcur, hblk] at href href'
    exact hs.unique href href'

theorem content {a : List Byte} (h : SameFiles s s') (hs : Content s i a) :
    Content s' i a := by
  refine ⟨by rw [h.cur]; exact hs.length, fun k hk => ?_⟩
  unfold Store.At
  rw [h.cur, h.blk]
  exact hs.get k hk

end SameFiles

/-! ## Writes -/

theorem block_of_lt (off m : ℕ) (h : off % BSIZE + m < BSIZE) :
    (off + m) / BSIZE = off / BSIZE ∧ (off + m) % BSIZE = off % BSIZE + m := by
  have hdiv := Nat.div_add_mod off BSIZE
  constructor
  · rw [show off + m = BSIZE * (off / BSIZE) + (off % BSIZE + m) by omega,
      Nat.mul_add_div (by decide), Nat.div_eq_of_lt h, Nat.add_zero]
  · rw [show off + m = off % BSIZE + m + BSIZE * (off / BSIZE) by omega, Nat.add_mul_mod_self_left,
      Nat.mod_eq_of_lt h]

/-- The bytes `bs` have been written to file `i` from offset `o` on. Blocks may have been allocated
for them, and are in the copy of the inode in memory. -/
structure Wrote (sb : Super) (i : Fin n) (o : ℕ) (bs : List Byte) (s s' : Store n ι) : Prop where
  sane : Sane sb s'
  valid : s'.valid = s.valid
  lock : s'.lock = s.lock
  off : s'.off = s.off
  trans : s'.trans = s.trans
  mem : ∀ j, j ≠ i → s'.mem j = s.mem j
  disk : s'.disk = s.disk
  type : (s'.mem i).type = (s.mem i).type
  nlink : (s'.mem i).nlink = (s.mem i).nlink
  size : (s'.mem i).size = (s.mem i).size
  new : ∀ k (h : k < bs.length), s'.At i (o + k) bs[k]
  old : ∀ {j k v}, s.At j k v → (j = i → k < o ∨ o + bs.length ≤ k) → s'.At j k v

theorem Wrote.refl (h : Sane sb s) : Wrote sb i o [] s s :=
  ⟨h, rfl, rfl, rfl, rfl, fun _ _ => rfl, rfl, rfl, rfl, rfl, nofun, fun hat _ => hat⟩

theorem Wrote.append (h : Wrote sb i o bs s s') (h' : Wrote sb i (o + bs.length) cs s' s'') :
    Wrote sb i o (bs ++ cs) s s'' where
  sane := h'.sane
  valid := h'.valid.trans h.valid
  lock := h'.lock.trans h.lock
  off := h'.off.trans h.off
  trans := h'.trans.trans h.trans
  mem j hj := (h'.mem j hj).trans (h.mem j hj)
  disk := h'.disk.trans h.disk
  type := h'.type.trans h.type
  nlink := h'.nlink.trans h.nlink
  size := h'.size.trans h.size
  new k hk := by
    rcases Nat.lt_or_ge k bs.length with hlt | hge
    · rw [List.getElem_append_left hlt]
      exact h'.old (h.new k hlt) fun _ => .inl (by omega)
    · rw [List.getElem_append_right hge]
      rw [List.length_append] at hk
      have hnew := h'.new (k - bs.length) (by omega)
      rwa [show o + bs.length + (k - bs.length) = o + k by omega] at hnew
  old hat hk := by
    rw [List.length_append] at hk
    refine h'.old (h.old hat fun hj => ?_) fun hj => ?_
    · have := hk hj
      omega
    · have := hk hj
      omega

theorem Wrote.after {o' : ℕ} (h : Wrote sb i o' [] s s') (h' : Wrote sb i o bs s' s'') :
    Wrote sb i o bs s s'' :=
  (Wrote.append ⟨h.sane, h.valid, h.lock, h.off, h.trans, h.mem, h.disk, h.type, h.nlink, h.size,
    nofun, fun hat _ => h.old hat fun _ => Nat.lt_or_ge _ _⟩ h' : Wrote sb i o ([] ++ bs) s s'')

theorem cur_of_valid (h : s.valid i = true) : s.cur i = s.mem i := if_pos h

theorem Store.cur_setMem {x : Dinode} (h : s.valid i = true) :
    (s.setMem i x).cur i = x ∧ ∀ j, j ≠ i → (s.setMem i x).cur j = s.cur j := by
  refine ⟨(if_pos h).trans (update_self ..), fun j hj => ?_⟩
  unfold Store.cur Store.setMem
  dsimp only
  rw [update_of_ne hj]

theorem ref_indirect (hv : s.valid i = true) (hty : (s.mem i).type ≠ .free)
    (hind : (s.mem i).addrs NDIRECT ≠ 0) :
    (s.cur i).Ref s.blk (.addr NDIRECT) ((s.mem i).addrs NDIRECT) := by
  rw [cur_of_valid hv]
  exact ⟨hty, le_rfl, rfl, hind⟩

section Fill

variable (h : Sane sb s) (hv : s.valid i = true) (hty : (s.mem i).type ≠ .free)
  (hfree : s.marked b = false) (hlt : b < sb.size)
include h hv hty hfree hlt

theorem Sane.filled_addr (hk : k ≤ NDIRECT) (h0 : (s.mem i).addrs k = 0) :
    Filled sb i (.addr k) b s ((s.alloc b).setMem i
      { s.mem i with addrs := update (s.mem i).addrs k b }) where
  free := hfree
  lt := hlt
  none c hc := by
    rw [cur_of_valid hv] at hc
    exact hc.2.2.2 (hc.2.2.1.symm.trans h0)
  marked c := Store.marked_setMark
  ref {j pl c} := by
    obtain ⟨hcur, hother⟩ := Store.cur_setMem (s := s.alloc b) (x := { s.mem i with
      addrs := update (s.mem i).addrs k b }) hv
    have hb : b ≠ 0 := (sb.datastart_pos.trans_le (h.ne_boot hfree)).ne'
    rw [← h.ref_alloc hfree]
    by_cases hj : j = i
    · subst hj
      have hcur' : (s.alloc b).cur j = s.mem j := cur_of_valid hv
      rw [hcur, hcur']
      exact (Dinode.ref_setAddr hty hk h0 hb (update_self ..) pl).trans
        (by simp only [true_and]; rfl)
    · rw [hother j hj]
      exact (or_iff_left fun hc => hj hc.1).symm

theorem Wrote.allocAddr (hk : k ≤ NDIRECT) (h0 : (s.mem i).addrs k = 0) :
    Wrote sb i o [] s ((s.alloc b).setMem i
      { s.mem i with addrs := update (s.mem i).addrs k b }) := by
  have hfill := h.filled_addr hv hty hfree hlt hk h0
  refine ⟨hfill.sane h, rfl, rfl, rfl, rfl, fun j hj => update_of_ne hj .., rfl, ?_, ?_, ?_,
    nofun, ?_⟩
  · simp only [Store.setMem, update_self]
  · simp only [Store.setMem, update_self]
  · simp only [Store.setMem, update_self]
  · rintro j l v ⟨c, hc, hval⟩ -
    refine ⟨c, hfill.ref.2 (.inl hc), ?_⟩
    show update s.blk b Bytes.zero c (l % BSIZE) = v
    rw [update_of_ne (h.ref_ne hfree hc)]
    exact hval

variable (hind : (s.mem i).addrs NDIRECT ≠ 0) (hk : k < NINDIRECT)
  (h0 : (s.blk ((s.mem i).addrs NDIRECT)).word k = 0)
include hind hk h0

theorem Sane.filled_word :
    Filled sb i (.entry k) b s ((s.alloc b).setBlk ((s.mem i).addrs NDIRECT)
      ((s.blk ((s.mem i).addrs NDIRECT)).setWord k b)) where
  free := hfree
  lt := hlt
  none c hc := by
    rw [cur_of_valid hv] at hc
    exact hc.2.2.2.2 (hc.2.2.2.1.symm.trans h0)
  marked c := Store.marked_setMark
  ref {j pl c} := by
    have hown := ref_indirect hv hty hind
    have hb : b ≠ 0 := (sb.datastart_pos.trans_le (h.ne_boot hfree)).ne'
    have hne : (s.mem i).addrs NDIRECT ≠ b := h.ref_ne hfree hown
    have hblk : (s.alloc b).blk ((s.mem i).addrs NDIRECT) = s.blk ((s.mem i).addrs NDIRECT) :=
      update_of_ne hne ..
    show (s.cur j).Ref (update (s.alloc b).blk _ _) pl c ↔ _
    rw [← h.ref_alloc hfree, ← hblk]
    by_cases hj : j = i
    · subst hj
      have hcur : (s.alloc b).cur j = s.mem j := cur_of_valid hv
      rw [cur_of_valid hv, hcur,
        Dinode.ref_setWord hty hind hk (hblk.symm ▸ h0) hb (hlt.trans sb.size_lt)]
      simp only [true_and]
    · rw [or_iff_left fun hc => hj hc.1]
      refine ref_setBlk fun htyj heq => hj ?_
      have hownj : (s.cur j).Ref s.blk (.addr NDIRECT) ((s.mem i).addrs NDIRECT) :=
        ⟨htyj, le_rfl, heq, hind⟩
      exact (h.unique hownj hown).1

theorem Wrote.allocWord :
    Wrote sb i o [] s ((s.alloc b).setBlk ((s.mem i).addrs NDIRECT)
      ((s.blk ((s.mem i).addrs NDIRECT)).setWord k b)) := by
  have hfill := h.filled_word hv hty hfree hlt hind hk h0
  refine ⟨hfill.sane h, rfl, rfl, rfl, rfl, fun _ _ => rfl, rfl, rfl, rfl, rfl, nofun, ?_⟩
  rintro j l v ⟨c, hc, hval⟩ -
  refine ⟨c, hfill.ref.2 (.inl hc), ?_⟩
  have hne : c ≠ (s.mem i).addrs NDIRECT := by
    rintro rfl
    exact Place.of_ne _ (h.unique hc (ref_indirect hv hty hind)).2
  show update (update s.blk b Bytes.zero) _ _ c (l % BSIZE) = v
  rw [update_of_ne hne, update_of_ne (h.ref_ne hfree hc)]
  exact hval

end Fill

theorem Wrote.copyin (h : Sane sb s) (hb : (s.cur i).Ref s.blk (.of (o / BSIZE)) b)
    (hfit : o % BSIZE + bs.length ≤ BSIZE) :
    Wrote sb i o bs s (s.setBlk b ((s.blk b).splice (o % BSIZE) bs)) := by
  have href : ∀ {j pl c}, (s.cur j).Ref (update s.blk b
      ((s.blk b).splice (o % BSIZE) bs)) pl c ↔ (s.cur j).Ref s.blk pl c := fun {j _ _} =>
    ref_setBlk fun hty => h.indirect_ne hb (Place.of_ne _) hty
  refine ⟨⟨h.boot, fun hr => h.used (href.1 hr), fun hr hr' => h.unique (href.1 hr) (href.1 hr')⟩,
    rfl, rfl, rfl, rfl, fun _ _ => rfl, rfl, rfl, rfl, rfl, fun k hk => ?_, ?_⟩
  · obtain ⟨hdiv, hmod⟩ := block_of_lt o k (by omega)
    refine ⟨b, ?_, ?_⟩
    · rw [hdiv]
      exact href.2 hb
    · show update s.blk b _ b _ = _
      rw [update_self, hmod, Bytes.splice_add _ hk, List.getD_eq_getElem?_getD,
        List.getElem?_eq_getElem hk, Option.getD_some]
  · rintro j k v ⟨c, hc, hval⟩ hk
    refine ⟨c, href.2 hc, ?_⟩
    show update s.blk b _ c _ = v
    by_cases hcb : c = b
    · subst hcb
      rw [update_self]
      obtain ⟨rfl, hpl⟩ := h.unique hc hb
      have hdiv : k / BSIZE = o / BSIZE := Place.of_inj hpl
      have h1 := Nat.div_add_mod k BSIZE
      have h2 := Nat.div_add_mod o BSIZE
      rw [hdiv] at h1
      rcases hk rfl with hlt | hge
      · rw [Bytes.splice_of_lt _ (by omega)]
        exact hval
      · rw [Bytes.splice_of_le _ (by omega)]
        exact hval
    · rw [update_of_ne hcb]
      exact hval

end Xv6.Alloc
