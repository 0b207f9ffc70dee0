import Xv6.Alloc.Array
import Mathlib.Data.Finset.Union
import Mathlib.Order.Interval.Finset.Nat

/-!
# What a write takes

A write allocates a block for each place at which the inode lacks one. Each allocation takes one of
these places and one of the free blocks, so that the difference of the two stays (`Spent`).

Into `log.lh` go the blocks that are written, the bitmap blocks of those that are allocated, the
indirect block if a number is stored in it, and the block of the inode. `logUse` is what is in the
log, and what the bitmap and the indirect block may still add to it: the blocks of a file that are
written one after the other raise it by one each, and what `balloc` and `bmap` log is paid out of it.
-/

namespace Xv6.Alloc

open Fs (BSIZE MAXFILE)

variable {n : ℕ} {ι : Type} {sb : Super} {s s' s'' : Store n ι} {p : ι} {i : Fin n} {b c : ℕ}
  {pl pl₀ : Place} {P P' : Finset Place}

/-! ## Places -/

def blocksOf (off len : ℕ) : Finset ℕ := (Finset.Ico off (off + len)).image (· / BSIZE)

def Place.needs (bn : ℕ) : Finset Place :=
  if bn < NDIRECT then {.addr bn} else {.addr NDIRECT, .entry (bn - NDIRECT)}

def places (off len : ℕ) : Finset Place := (blocksOf off len).biUnion Place.needs

def Place.isEntry : Place → Bool
  | .addr _ => false
  | .entry _ => true

theorem Place.of_mem_needs (bn : ℕ) : Place.of bn ∈ Place.needs bn := by
  unfold Place.of Place.needs
  split
  · exact Finset.mem_singleton_self _
  · exact Finset.mem_insert_of_mem (Finset.mem_singleton_self _)

theorem blocksOf_zero (off : ℕ) : blocksOf off 0 = ∅ := by
  rw [blocksOf, Nat.add_zero, Finset.Ico_self, Finset.image_empty]

theorem blocksOf_add (off m len : ℕ) :
    blocksOf off (m + len) = blocksOf off m ∪ blocksOf (off + m) len := by
  rw [blocksOf, blocksOf, blocksOf, ← Finset.image_union, ← Nat.add_assoc,
    Finset.Ico_union_Ico_eq_Ico (Nat.le_add_right ..) (Nat.le_add_right ..)]

theorem places_add (off m len : ℕ) : places off (m + len) = places off m ∪ places (off + m) len := by
  rw [places, places, places, blocksOf_add, Finset.union_biUnion]

theorem blocksOf_of_fits {off m : ℕ} (h0 : 0 < m) (hfit : off % BSIZE + m ≤ BSIZE) :
    blocksOf off m = {off / BSIZE} := by
  refine Finset.eq_singleton_iff_unique_mem.2 ⟨?_, fun bn hbn => ?_⟩
  · exact Finset.mem_image_of_mem _ (Finset.mem_Ico.2 ⟨le_rfl, by omega⟩)
  · obtain ⟨k, hk, rfl⟩ := Finset.mem_image.1 hbn
    rw [Finset.mem_Ico] at hk
    have h := (block_of_lt off (k - off) (by omega)).1
    rwa [Nat.add_sub_cancel' hk.1] at h

theorem card_places_le (off len : ℕ) : (places off len).card ≤ (blocksOf off len).card + 1 := by
  have hsub : places off len ⊆ insert (.addr NDIRECT) ((blocksOf off len).image Place.of) := by
    intro pl hpl
    obtain ⟨bn, hbn, hneeds⟩ := Finset.mem_biUnion.1 hpl
    have hof := Finset.mem_image_of_mem Place.of hbn
    unfold Place.needs at hneeds
    unfold Place.of at hof
    split at hneeds
    · rename_i hlt
      rw [if_pos hlt] at hof
      rw [Finset.mem_singleton.1 hneeds]
      exact Finset.mem_insert_of_mem hof
    · rename_i hlt
      rw [if_neg hlt] at hof
      rcases Finset.mem_insert.1 hneeds with rfl | hentry
      · exact Finset.mem_insert_self ..
      · rw [Finset.mem_singleton.1 hentry]
        exact Finset.mem_insert_of_mem hof
  exact (Finset.card_le_card hsub).trans ((Finset.card_insert_le ..).trans
    (Nat.add_le_add_right Finset.card_image_le 1))

theorem card_blocksOf_le (off : ℕ) {len : ℕ} (h : len ≤ maxChunk) :
    (blocksOf off len).card ≤ 4 := by
  have hmax : maxChunk = 1536 := rfl
  have hsub : blocksOf off len ⊆ Finset.Ico (off / BSIZE) (off / BSIZE + 4) := by
    intro bn hbn
    obtain ⟨k, hk, rfl⟩ := Finset.mem_image.1 hbn
    rw [Finset.mem_Ico] at hk ⊢
    unfold BSIZE
    omega
  refine (Finset.card_le_card hsub).trans ?_
  rw [Nat.card_Ico]
  omega

/-! ## Blocks that are lacking -/

instance {x : Dinode} {blk : ℕ → Bytes} : (pl : Place) → Decidable (x.Ref blk pl b)
  | .addr k => inferInstanceAs
      (Decidable (x.type ≠ .free ∧ k ≤ NDIRECT ∧ x.addrs k = b ∧ b ≠ 0))
  | .entry j => inferInstanceAs
      (Decidable (x.type ≠ .free ∧ j < NINDIRECT ∧ x.addrs NDIRECT ≠ 0 ∧
        (blk (x.addrs NDIRECT)).word j = b ∧ b ≠ 0))

/-- The number at a place. -/
def Dinode.blockAt (x : Dinode) (blk : ℕ → Bytes) : Place → ℕ
  | .addr k => x.addrs k
  | .entry j => (blk (x.addrs NDIRECT)).word j

theorem Dinode.Ref.blockAt {x : Dinode} {blk : ℕ → Bytes} (h : x.Ref blk pl b) :
    x.blockAt blk pl = b := by
  cases pl with
  | addr k => exact h.2.2.1
  | entry j => exact h.2.2.2.1

namespace Store

def lacking (s : Store n ι) (i : Fin n) (P : Finset Place) : Finset Place :=
  P.filter fun pl => ¬ (s.cur i).Ref s.blk pl ((s.cur i).blockAt s.blk pl)

/-- The free blocks. -/
def unmarked (sb : Super) (s : Store n ι) : Finset ℕ :=
  (Finset.range sb.size).filter fun b => s.marked b = false

theorem mem_lacking : pl ∈ s.lacking i P ↔ pl ∈ P ∧ ∀ b, ¬ (s.cur i).Ref s.blk pl b := by
  rw [lacking, Finset.mem_filter]
  refine and_congr_right fun _ => ⟨fun h b hb => h ?_, fun h => h _⟩
  rwa [hb.blockAt]

theorem mem_unmarked : b ∈ s.unmarked sb ↔ b < sb.size ∧ s.marked b = false := by
  rw [unmarked, Finset.mem_filter, Finset.mem_range]

theorem lacking_congr
    (h : ∀ {pl c}, (s'.cur i).Ref s'.blk pl c ↔ (s.cur i).Ref s.blk pl c) :
    s'.lacking i P = s.lacking i P := by
  ext pl
  simp only [mem_lacking, h]

theorem unmarked_congr (h : s'.bits = s.bits) : s'.unmarked sb = s.unmarked sb := by
  ext b
  simp only [mem_unmarked, marked, h]

theorem lacking_union : s.lacking i (P ∪ P') = s.lacking i P ∪ s.lacking i P' :=
  Finset.filter_union ..

end Store

theorem Store.lacking_places {off len : ℕ} (h : ∀ k, off ≤ k → k < off + len → ∃ v, s.At i k v) :
    s.lacking i (places off len) = ∅ := by
  refine Finset.eq_empty_of_forall_notMem fun pl hpl => ?_
  obtain ⟨hP, hno⟩ := Store.mem_lacking.1 hpl
  obtain ⟨bn, hbn, hneeds⟩ := Finset.mem_biUnion.1 hP
  obtain ⟨k, hk, rfl⟩ := Finset.mem_image.1 hbn
  rw [Finset.mem_Ico] at hk
  obtain ⟨v, b, href, -⟩ := h k hk.1 hk.2
  unfold Place.needs at hneeds
  unfold Place.of at href
  split at hneeds
  · rename_i hlt
    rw [if_pos hlt] at href
    rw [Finset.mem_singleton.1 hneeds] at hno
    exact hno b href
  · rename_i hlt
    rw [if_neg hlt] at href
    rcases Finset.mem_insert.1 hneeds with rfl | hentry
    · exact hno _ ⟨href.1, le_rfl, rfl, href.2.2.1⟩
    · rw [Finset.mem_singleton.1 hentry] at hno
      exact hno b href

theorem Filled.lacking (h : Filled sb i pl₀ b s s') :
    s'.lacking i P = (s.lacking i P).erase pl₀ := by
  ext pl
  simp only [Finset.mem_erase, Store.mem_lacking, h.ref, not_or, not_and, true_and]
  constructor
  · rintro ⟨hP, hno⟩
    exact ⟨fun heq => (hno b).2 heq rfl, hP, fun c => (hno c).1⟩
  · rintro ⟨hne, hP, hno⟩
    exact ⟨hP, fun c => ⟨hno c, fun heq => absurd heq hne⟩⟩

theorem Filled.unmarked (h : Filled sb i pl₀ b s s') : s'.unmarked sb = (s.unmarked sb).erase b := by
  ext c
  simp only [Finset.mem_erase, Store.mem_unmarked, h.marked, Bool.or_eq_false_iff,
    decide_eq_false_iff_not]
  exact ⟨fun hc => ⟨hc.2.2, hc.1, hc.2.1⟩, fun hc => ⟨hc.2.1, hc.2.2, hc.1⟩⟩

/-- Blocks have been allocated to inode `i`, for places of `P` at most. -/
structure Spent (sb : Super) (i : Fin n) (P : Finset Place) (s s' : Store n ι) : Prop where
  ref : ∀ {pl b}, (s.cur i).Ref s.blk pl b → (s'.cur i).Ref s'.blk pl b
  marked : ∀ {b}, s'.marked b = true ↔ s.marked b = true ∨ ∃ pl, (s'.cur i).Ref s'.blk pl b
  count : ∀ P', P ⊆ P' → (s'.unmarked sb).card + (s.lacking i P').card =
    (s.unmarked sb).card + (s'.lacking i P').card

namespace Spent

theorem of_ref (h : Sane sb s) (hbits : s'.bits = s.bits)
    (href : ∀ {pl c}, (s'.cur i).Ref s'.blk pl c ↔ (s.cur i).Ref s.blk pl c) :
    Spent sb i P s s' where
  ref := href.2
  marked {b} := by
    rw [Store.marked, hbits]
    refine ⟨.inl, ?_⟩
    rintro (hm | ⟨pl, hpl⟩)
    · exact hm
    · exact (h.used (href.1 hpl)).1
  count P' _ := by
    rw [Store.lacking_congr href, Store.unmarked_congr hbits]

theorem refl (h : Sane sb s) : Spent sb i P s s := of_ref h rfl Iff.rfl

theorem trans (h : Spent sb i P s s') (h' : Spent sb i P s' s'') : Spent sb i P s s'' where
  ref hr := h'.ref (h.ref hr)
  marked {b} := by
    rw [h'.marked, h.marked, or_assoc]
    refine or_congr_right ⟨?_, .inr⟩
    rintro (⟨pl, hpl⟩ | hpl)
    · exact ⟨pl, h'.ref hpl⟩
    · exact hpl
  count P' hP := by
    have h₁ := h.count P' hP
    have h₂ := h'.count P' hP
    omega

theorem of_filled (h : Filled sb i pl₀ b s s') (hs : Sane sb s) (hpl : pl₀ ∈ P) :
    Spent sb i P s s' where
  ref hr := h.ref.2 (.inl hr)
  marked {c} := by
    have hsane := h.sane hs
    refine ⟨fun hm => ?_, ?_⟩
    · rw [h.marked, Bool.or_eq_true, decide_eq_true_iff] at hm
      exact hm.imp_right fun hc => ⟨pl₀, h.ref.2 (.inr ⟨rfl, rfl, hc⟩)⟩
    · rintro (hm | ⟨pl, hr⟩)
      · rw [h.marked, hm, Bool.true_or]
      · exact (hsane.used hr).1
  count P' hP := by
    have hlack : pl₀ ∈ s.lacking i P' := Store.mem_lacking.2 ⟨hP hpl, h.none⟩
    have hfree : b ∈ s.unmarked sb := Store.mem_unmarked.2 ⟨h.lt, h.free⟩
    have h₁ := Finset.card_erase_add_one hlack
    have h₂ := Finset.card_erase_add_one hfree
    rw [h.lacking, h.unmarked]
    omega

theorem lacking_subset (h : Spent sb i P s s') : s'.lacking i P' ⊆ s.lacking i P' := by
  intro pl hpl
  obtain ⟨hP, hno⟩ := Store.mem_lacking.1 hpl
  exact Store.mem_lacking.2 ⟨hP, fun b hb => hno b (h.ref hb)⟩

theorem marked_eq (h : Spent sb i P s s') (hnone : s.lacking i P = ∅) :
    ∀ b < sb.size, s'.marked b = s.marked b := by
  have hsub : s'.unmarked sb ⊆ s.unmarked sb := by
    intro b hb
    obtain ⟨hlt, hfree⟩ := Store.mem_unmarked.1 hb
    refine Store.mem_unmarked.2 ⟨hlt, Bool.eq_false_iff.2 fun hm => ?_⟩
    rw [h.marked.2 (.inl hm)] at hfree
    cases hfree
  have hcount := h.count P (subset_refl _)
  rw [hnone, Finset.card_empty] at hcount
  have heq : s'.unmarked sb = s.unmarked sb := Finset.eq_of_subset_of_card_le hsub (by omega)
  intro b hb
  have hmem := Finset.ext_iff.1 heq b
  rw [Store.mem_unmarked, Store.mem_unmarked, and_iff_right hb, and_iff_right hb] at hmem
  exact Bool.eq_iff_iff.2 ((not_iff_not.1 (by simpa using hmem)))

theorem lt_of_lt (h : Spent sb i P s s') (hP : P ⊆ P')
    (hlt : (s'.unmarked sb).card < (s'.lacking i P').card) :
    (s.unmarked sb).card < (s.lacking i P').card := by
  have := h.count P' hP
  omega

end Spent

/-! ## The log -/

def Super.bitmap (sb : Super) : Finset ℕ := (Finset.range sb.size).image sb.bblock

def Super.logMax (sb : Super) : ℕ := min LOGSIZE (sb.nlog - 1)

theorem Super.not_tooBig {k : ℕ} (h : k < sb.logMax) : ¬ sb.TooBig k := by
  unfold logMax at h
  unfold TooBig
  omega

namespace Store

def IndirectLogged (s : Store n ι) (i : Fin n) : Prop :=
  ∃ b ∈ s.lh, (s.cur i).Ref s.blk (.addr NDIRECT) b

instance (s : Store n ι) (i : Fin n) : Decidable (s.IndirectLogged i) :=
  inferInstanceAs (Decidable (∃ b ∈ s.lh, _))

def bitmapUse (sb : Super) (i : Fin n) (P : Finset Place) (s : Store n ι) : ℕ :=
  s.lh.card + min (s.lacking i P).card (sb.bitmap \ s.lh).card

def indirectUse (i : Fin n) (P : Finset Place) (s : Store n ι) : ℕ :=
  if (∃ pl ∈ s.lacking i P, pl.isEntry = true) ∧ ¬ s.IndirectLogged i then 1 else 0

def logUse (sb : Super) (i : Fin n) (P : Finset Place) (s : Store n ι) : ℕ :=
  s.bitmapUse sb i P + s.indirectUse i P

def writeUse (sb : Super) (i : Fin n) (off len : ℕ) (s : Store n ι) : ℕ :=
  s.logUse sb i (places off len) + (blocksOf off len).card +
    if s.lacking i (places off len) = ∅ ∧ off + len ≤ (s.cur i).size then 0 else 1

theorem card_lh_le_logUse : s.lh.card ≤ s.logUse sb i P := by
  unfold logUse bitmapUse
  omega

theorem logUse_congr (hlh : s'.lh = s.lh)
    (h : ∀ {pl c}, (s'.cur i).Ref s'.blk pl c ↔ (s.cur i).Ref s.blk pl c) :
    s'.logUse sb i P = s.logUse sb i P := by
  have hind : s'.IndirectLogged i ↔ s.IndirectLogged i := by
    unfold IndirectLogged
    rw [hlh]
    simp only [h]
  unfold logUse bitmapUse indirectUse
  rw [lacking_congr h, hlh]
  simp only [hind]

theorem indirectUse_le_one : s.indirectUse i P ≤ 1 := by
  unfold indirectUse
  split
  · exact le_rfl
  · exact Nat.zero_le _

theorem indirectUse_of_logged (h : s.IndirectLogged i) : s.indirectUse i P = 0 :=
  if_neg fun hc => hc.2 h

theorem indirectUse_eq_one {k : ℕ} (hpl : .entry k ∈ s.lacking i P) (h : ¬ s.IndirectLogged i) :
    s.indirectUse i P = 1 := if_pos ⟨⟨_, hpl, rfl⟩, h⟩

theorem indirectUse_mono (hsub : s'.lacking i P ⊆ s.lacking i P)
    (hlog : s.IndirectLogged i → s'.IndirectLogged i) :
    s'.indirectUse i P ≤ s.indirectUse i P := by
  unfold indirectUse
  split
  · rename_i h
    obtain ⟨⟨pl, hpl, hentry⟩, hnot⟩ := h
    rw [if_pos ⟨⟨pl, hsub hpl, hentry⟩, fun hc => hnot (hlog hc)⟩]
  · exact Nat.zero_le _

variable [DecidableEq ι]

def balloced (sb : Super) (p : ι) (s : Store n ι) (b : ℕ) : Store n ι :=
  (s.note p (sb.bblock b)).note p b

theorem mem_balloced : b ∈ (s.balloced sb p b).lh := Finset.mem_insert_self ..

theorem bitmapUse_note_le (s : Store n ι) (sb : Super) (i : Fin n) (P : Finset Place) (p : ι) (c : ℕ) :
    (s.note p c).bitmapUse sb i P ≤ s.bitmapUse sb i P + if c ∈ s.lh then 0 else 1 := by
  have hcard : (insert c s.lh).card = s.lh.card + if c ∈ s.lh then 0 else 1 := by
    split
    · rename_i hc
      rw [Finset.insert_eq_of_mem hc, Nat.add_zero]
    · rename_i hc
      exact Finset.card_insert_of_notMem hc
  have hsub : (sb.bitmap \ insert c s.lh).card ≤ (sb.bitmap \ s.lh).card :=
    Finset.card_le_card (Finset.sdiff_subset_sdiff le_rfl (Finset.subset_insert _ _))
  show (insert c s.lh).card + min (s.lacking i P).card (sb.bitmap \ insert c s.lh).card ≤ _
  unfold bitmapUse
  omega

theorem indirectLogged_note (h : s.IndirectLogged i) : (s.note p c).IndirectLogged i := by
  obtain ⟨b, hb, href⟩ := h
  exact ⟨b, Finset.mem_insert_of_mem hb, href⟩

theorem logUse_note_le (s : Store n ι) (sb : Super) (i : Fin n) (P : Finset Place) (p : ι) (c : ℕ) :
    (s.note p c).logUse sb i P ≤ s.logUse sb i P + if c ∈ s.lh then 0 else 1 := by
  have h₁ := bitmapUse_note_le s sb i P p c
  have h₂ : (s.note p c).indirectUse i P ≤ s.indirectUse i P :=
    indirectUse_mono (subset_refl _) indirectLogged_note
  unfold logUse
  omega

end Store

section Fill

variable [DecidableEq ι] (h : Filled sb i pl₀ b s s') (hpl : pl₀ ∈ P) (hlh : s'.lh = s.lh)
include h hpl hlh

theorem Filled.bitmapUse_le :
    (s'.note p (sb.bblock b)).bitmapUse sb i P ≤ s.bitmapUse sb i P := by
  have hlack := Finset.card_erase_add_one (Store.mem_lacking.2 ⟨hpl, h.none⟩)
  have hmap : sb.bblock b ∈ sb.bitmap := Finset.mem_image_of_mem _ (Finset.mem_range.2 h.lt)
  show (insert (sb.bblock b) s'.lh).card + min (s'.lacking i P).card
    (sb.bitmap \ insert (sb.bblock b) s'.lh).card ≤ _
  unfold Store.bitmapUse
  rw [hlh, h.lacking]
  by_cases hin : sb.bblock b ∈ s.lh
  · rw [Finset.insert_eq_of_mem hin]
    omega
  · have hmem : sb.bblock b ∈ sb.bitmap \ s.lh := Finset.mem_sdiff.2 ⟨hmap, hin⟩
    have hdiff := Finset.card_erase_add_one hmem
    have herase : sb.bitmap \ insert (sb.bblock b) s.lh =
        (sb.bitmap \ s.lh).erase (sb.bblock b) := by
      rw [Finset.sdiff_insert]
    rw [Finset.card_insert_of_notMem hin, herase]
    omega

theorem Filled.bitmapUse_balloc_le :
    (s'.balloced sb p b).bitmapUse sb i P ≤ s.bitmapUse sb i P + 1 := by
  have h₁ := h.bitmapUse_le (p := p) hpl hlh
  have h₂ := Store.bitmapUse_note_le (s'.note p (sb.bblock b)) sb i P p b
  unfold Store.balloced
  split at h₂ <;> omega

omit [DecidableEq ι] hpl in
theorem Filled.indirectUse_le (s₁ : Store n ι) (hlack : s₁.lacking i P = s'.lacking i P)
    (hlog : s'.IndirectLogged i → s₁.IndirectLogged i) :
    s₁.indirectUse i P ≤ s.indirectUse i P := by
  refine Store.indirectUse_mono ?_ fun hs => hlog ?_
  · rw [hlack, h.lacking]
    exact Finset.erase_subset ..
  · obtain ⟨c, hc, href⟩ := hs
    exact ⟨c, hlh ▸ hc, h.ref.2 (.inl href)⟩

theorem Filled.logUse_le :
    (s'.balloced sb p b).logUse sb i P ≤ s.logUse sb i P + 1 := by
  have h₁ := h.bitmapUse_balloc_le (p := p) hpl hlh
  have h₂ := h.indirectUse_le (P := P) hlh (s'.balloced sb p b) rfl
    fun hs => Store.indirectLogged_note (Store.indirectLogged_note hs)
  unfold Store.logUse
  omega

theorem Filled.logUse_indirect_le {k : ℕ} (hind : pl₀ = .addr NDIRECT)
    (hentry : .entry k ∈ s.lacking i P) :
    (s'.balloced sb p b).logUse sb i P ≤ s.logUse sb i P := by
  have h₁ := h.bitmapUse_balloc_le (p := p) hpl hlh
  have h₂ : s.indirectUse i P = 1 := by
    refine Store.indirectUse_eq_one hentry ?_
    rintro ⟨c, -, hc⟩
    exact h.none c (hind ▸ hc)
  have h₃ : (s'.balloced sb p b).indirectUse i P = 0 :=
    Store.indirectUse_of_logged
      ⟨b, Finset.mem_insert_self .., h.ref.2 (.inr ⟨rfl, hind.symm, rfl⟩)⟩
  unfold Store.logUse
  omega

theorem Filled.logUse_entry_le {k : ℕ} (hentry : pl₀ = .entry k)
    (hc : (s.cur i).Ref s.blk (.addr NDIRECT) c) :
    ((s'.balloced sb p b).note p c).logUse sb i P ≤ s.logUse sb i P + 1 := by
  generalize hs₁ : s'.balloced sb p b = s₁
  have h₁ := h.bitmapUse_balloc_le (p := p) hpl hlh
  have h₂ := s₁.bitmapUse_note_le sb i P p c
  have h₃ : (s₁.note p c).indirectUse i P = 0 := by
    refine Store.indirectUse_of_logged ⟨c, Finset.mem_insert_self .., ?_⟩
    rw [← hs₁]
    exact h.ref.2 (.inl hc)
  rw [hs₁] at h₁
  unfold Store.logUse
  by_cases hin : s.IndirectLogged i
  · -- The indirect block is in the log already.
    obtain ⟨c', hc', href⟩ := hin
    have hlogged : c ∈ s₁.lh := by
      rw [← hc.eq href] at hc'
      rw [← hs₁]
      exact Finset.mem_insert_of_mem (Finset.mem_insert_of_mem (hlh ▸ hc'))
    rw [if_pos hlogged] at h₂
    omega
  · have h₄ : s.indirectUse i P = 1 :=
      Store.indirectUse_eq_one (hentry ▸ Store.mem_lacking.2 ⟨hpl, h.none⟩) hin
    split at h₂ <;> omega

end Fill

theorem writeUse_le (hlh : s.lh = ∅) {off len : ℕ} (hlen : len ≤ maxChunk) :
    s.writeUse sb i off len ≤ 11 := by
  have hblocks := card_blocksOf_le off hlen
  have hplaces := card_places_le off len
  have hlack : (s.lacking i (places off len)).card ≤ (places off len).card :=
    Finset.card_filter_le ..
  have hind : s.indirectUse i (places off len) ≤ 1 := Store.indirectUse_le_one
  unfold Store.writeUse Store.logUse Store.bitmapUse
  rw [hlh, Finset.card_empty]
  split <;> omega

end Xv6.Alloc
