import Xv6.Alloc.Bitmap
import Xv6.Alloc.Room
import Xv6.Lib.Wp

/-!
# `readi` and `writei` refine an array of bytes

The functions on the contents of a file, run by a process that nobody interrupts: what each returns
and how it changes the array that the file is. A write goes through if there are free blocks for the
places that lack one, and if the log has room (`Xv6.Alloc.Room`).
-/

namespace Xv6.Alloc

open Function
open Fs (BSIZE MAXFILE Itype)

variable {n : ℕ} {ι : Type} {sb : Super} {s s' s'' : Store n ι} {p : ι} {i : Fin n} {b k o : ℕ}
  {bs : List Byte} {P : Finset Place}

def OutOfBlocks (sb : Super) (why : String) (s : Store n ι) : Prop :=
  why = "balloc: out of blocks" ∧ ∀ b < sb.size, s.marked b = true

def MayRunOut (sb : Super) (D : String → Store n ι → Prop) : Prop :=
  ∀ why s, OutOfBlocks sb why s → D why s

section Wp

variable [DecidableEq ι] [Fintype ι] {D : String → Store n ι → Prop} {α : Type}

abbrev Ends (sb : Super) (p : ι) (D : String → Store n ι → Prop) (t : Sys n α)
    (Q : α → Store n ι → Prop) (s : Store n ι) : Prop :=
  t.Wp (Op.perform sb p) (· = ·) D Q s

theorem call_ends {o : Op n} {Q : o.Answer → Store n ι → Prop} {r : o.Answer}
    (h : o.perform sb p s = some (r, s')) (hQ : Q r s') : Ends sb p D (call o) Q s := by
  rintro _ rfl
  exact ⟨r, s', h, hQ⟩

/-! ## Blocks -/

theorem logWrite_ends {Q : Unit → Store n ι → Prop} (ht : s.trans p = true)
    (hroom : s.lh.card < sb.logMax) (hQ : Q () (s.note p b)) : Ends sb p D (logWrite b) Q s := by
  unfold logWrite
  refine Task.wp_bind.2 (call_ends rfl ?_)
  rw [panicUnless, if_pos (decide_eq_false (Super.not_tooBig hroom))]
  exact Task.wp_bind.2 (Task.wp_bind.2 (call_ends (if_pos ⟨p, ht⟩) hQ))

omit [DecidableEq ι] [Fintype ι] in
theorem Store.findFree_none {bb : ℕ} (h : s.findFree sb bb = none) (hb : b < sb.size)
    (hbb : b / BPB = bb) : s.marked b = true := by
  unfold Store.findFree at h
  have hmem : b % BPB ∈ List.range BPB := List.mem_range.2 (Nat.mod_lt _ (by decide))
  have hnot := List.find?_eq_none.1 h _ hmem
  rw [decide_eq_true_iff, not_and, ← hbb, Nat.mul_comm, Nat.div_add_mod] at hnot
  exact Bool.eq_true_of_not_eq_false (hnot hb)

omit [DecidableEq ι] [Fintype ι] in
theorem Store.bblock_findFree {bb bi : ℕ} (h : s.findFree sb bb = some bi) :
    sb.bblock (bb * BPB) = sb.bblock (bb * BPB + bi) := by
  unfold Store.findFree at h
  have hmem : bi ∈ List.range BPB := List.mem_of_find?_eq_some h
  have hlt : bi < BPB := List.mem_range.1 hmem
  have hpos : 0 < BPB := by decide
  rw [Super.bblock, Super.bblock, mul_add_div hlt, Nat.mul_div_cancel _ hpos]

theorem ballocFrom_ends {Q : ℕ → Store n ι → Prop} (ht : s.trans p = true)
    (hroom : s.lh.card + 1 < sb.logMax) (bbs : List ℕ)
    (hprev : ∀ b < sb.size, b / BPB ∉ bbs → s.marked b = true)
    (hD : (∀ b < sb.size, s.marked b = true) → D "balloc: out of blocks" s)
    (hQ : ∀ b, s.marked b = false → b < sb.size → Q b ((s.alloc b).balloced sb p b)) :
    Ends sb p D (ballocFrom sb bbs) Q s := by
  induction bbs with
  | nil => exact hD fun b hb => hprev b hb List.not_mem_nil
  | cons bb bbs ih =>
    unfold ballocFrom
    cases hx : s.findFree sb bb with
    | none =>
      refine Task.wp_bind.2 (call_ends (Op.perform_balloc_of_none hx) (ih fun b hb hnot => ?_))
      by_cases hbb : b / BPB = bb
      · exact Store.findFree_none hx hb hbb
      · exact hprev b hb (List.not_mem_cons_of_ne_of_not_mem hbb hnot)
    | some bi =>
      obtain ⟨hlt, hfree⟩ := Store.findFree_some hx
      refine Task.wp_bind.2 (call_ends (Op.perform_balloc_of_some hx) ?_)
      dsimp only
      rw [Store.bblock_findFree hx]
      generalize bb * BPB + bi = b at hlt hfree ⊢
      refine Task.wp_bind.2 (logWrite_ends ht (Nat.lt_of_succ_lt hroom) ?_)
      refine Task.wp_bind.2 (Task.wp_bind.2 (call_ends rfl (logWrite_ends ht ?_ ?_)))
      · exact (Finset.card_insert_le ..).trans_lt hroom
      · exact hQ b hfree hlt

theorem balloc_ends {Q : ℕ → Store n ι → Prop} (ht : s.trans p = true)
    (hroom : s.lh.card + 1 < sb.logMax)
    (hD : (∀ b < sb.size, s.marked b = true) → D "balloc: out of blocks" s)
    (hQ : ∀ b, s.marked b = false → b < sb.size → Q b ((s.alloc b).balloced sb p b)) :
    Ends sb p D (balloc sb) Q s := by
  refine ballocFrom_ends ht hroom _ (fun b hb hnot => absurd (List.mem_range.2 ?_) hnot) hD hQ
  have hbpb : BPB = 4096 := rfl
  rw [hbpb]
  omega

theorem bmapAddr_ends {Q : ℕ → Store n ι → Prop}
    (hhas : (s.mem i).addrs k ≠ 0 → Q ((s.mem i).addrs k) s)
    (hnew : (s.mem i).addrs k = 0 → s.trans p = true ∧ s.lh.card + 1 < sb.logMax ∧
      ((∀ b < sb.size, s.marked b = true) → D "balloc: out of blocks" s) ∧
      ∀ b, s.marked b = false → b < sb.size → Q b (((s.alloc b).setMem i
        { s.mem i with addrs := update (s.mem i).addrs k b }).balloced sb p b)) :
    Ends sb p D (bmapAddr sb i k) Q s := by
  unfold bmapAddr
  refine Task.wp_bind.2 (call_ends rfl ?_)
  by_cases h0 : (s.mem i).addrs k = 0
  · rw [if_pos h0]
    obtain ⟨ht, hroom, hD, hnew⟩ := hnew h0
    refine Task.wp_bind.2 (balloc_ends ht hroom hD fun b hfree hlt => ?_)
    exact Task.wp_bind.2 (call_ends rfl (hnew b hfree hlt))
  · rw [if_neg h0]
    exact hhas h0

theorem bmap_ends_of_ref {Q : ℕ → Store n ι → Prop} {bn : ℕ}
    (href : (s.mem i).Ref s.blk (.of bn) b) (hQ : Q b s) : Ends sb p D (bmap sb i bn) Q s := by
  unfold bmap
  unfold Place.of at href
  by_cases hlt : bn < NDIRECT
  · rw [if_pos hlt] at href ⊢
    obtain ⟨-, -, rfl, h0⟩ := href
    exact bmapAddr_ends (fun _ => hQ) fun h => absurd h h0
  · rw [if_neg hlt] at href ⊢
    obtain ⟨-, hk, hind, rfl, h0⟩ := href
    rw [if_pos hk]
    refine Task.wp_bind.2 (bmapAddr_ends (fun _ => ?_) fun h => absurd h hind)
    refine Task.wp_bind.2 (call_ends rfl ?_)
    rw [if_neg h0]
    exact hQ

omit [Fintype ι] in
theorem Wrote.note (h : Wrote sb i o bs s s') : Wrote sb i o bs s (s'.note p b) :=
  ⟨⟨h.sane.boot, h.sane.used, h.sane.unique⟩, h.valid, h.lock, h.off, h.trans, h.mem, h.disk, h.type,
    h.nlink, h.size, h.new, h.old⟩

omit [Fintype ι] in
theorem Spent.note (h : Spent sb i P s s') : Spent sb i P s (s'.note p b) :=
  ⟨h.ref, h.marked, h.count⟩

/-- `bmap` has found or allocated block `b` at a place of the file. -/
structure Mapped (sb : Super) (i : Fin n) (P : Finset Place) (pl : Place) (b : ℕ)
    (s s' : Store n ι) : Prop where
  wrote : Wrote sb i 0 [] s s'
  spent : Spent sb i P s s'
  ref : (s'.cur i).Ref s'.blk pl b
  use : s'.logUse sb i P + (if b ∈ s'.lh then 0 else 1) ≤ s.logUse sb i P + 1

omit [DecidableEq ι] [Fintype ι] in
theorem Mapped.refl {pl : Place} (h : Sane sb s) (href : (s.cur i).Ref s.blk pl b) :
    Mapped sb i P pl b s s := by
  refine ⟨.refl h, .refl h, href, ?_⟩
  split <;> omega

omit [DecidableEq ι] [Fintype ι] in
theorem Mapped.of_mem {pl : Place} (hw : Wrote sb i 0 [] s s') (hspent : Spent sb i P s s')
    (href : (s'.cur i).Ref s'.blk pl b) (hb : b ∈ s'.lh)
    (huse : s'.logUse sb i P ≤ s.logUse sb i P + 1) : Mapped sb i P pl b s s' :=
  ⟨hw, hspent, href, by rwa [if_pos hb, Nat.add_zero]⟩

omit [DecidableEq ι] [Fintype ι] in
theorem runs_out {pl : Place} (hpl : pl ∈ s.lacking i P)
    (hD : (s.unmarked sb).card < (s.lacking i P).card → MayRunOut sb D)
    (hfull : ∀ b < sb.size, s.marked b = true) : D "balloc: out of blocks" s := by
  refine hD ?_ _ s ⟨rfl, hfull⟩
  have hnone : s.unmarked sb = ∅ := by
    refine Finset.eq_empty_of_forall_notMem fun b hb => ?_
    obtain ⟨hlt, hfree⟩ := Store.mem_unmarked.1 hb
    rw [hfull b hlt] at hfree
    cases hfree
  rw [hnone]
  exact Finset.card_pos.2 ⟨pl, hpl⟩

section Bmap

variable (hsane : Sane sb s) (hv : s.valid i = true) (hty : (s.mem i).type ≠ .free)
  (ht : s.trans p = true) (hroom : s.logUse sb i P + 1 < sb.logMax)
  (hD : (s.unmarked sb).card < (s.lacking i P).card → MayRunOut sb D)
include hsane hv hty ht hroom hD

theorem bmapEntry_ends {Q : ℕ → Store n ι → Prop} (ha0 : (s.mem i).addrs NDIRECT ≠ 0)
    (hk : k < NINDIRECT) (hP : .entry k ∈ P)
    (hQ : ∀ b s', Mapped sb i P (.entry k) b s s' → Q b s') :
    Ends sb p D (do
      let e ← call (.word .bmap ((s.mem i).addrs NDIRECT) k)
      if e = 0 then do
        let b ← balloc sb
        call (.setWord ((s.mem i).addrs NDIRECT) k b)
        logWrite ((s.mem i).addrs NDIRECT)
        return b
      else return e) Q s := by
  have hcur := cur_of_valid hv
  refine Task.wp_bind.2 (call_ends rfl ?_)
  by_cases h0 : (s.blk ((s.mem i).addrs NDIRECT)).word k = 0
  · rw [if_pos h0]
    have hown := ref_indirect hv hty ha0
    have hlack : .entry k ∈ s.lacking i P := by
      refine Store.mem_lacking.2 ⟨hP, fun c hc => ?_⟩
      rw [hcur] at hc
      exact hc.2.2.2.2 (hc.2.2.2.1.symm.trans h0)
    have hlh : s.lh.card ≤ s.logUse sb i P := Store.card_lh_le_logUse
    refine Task.wp_bind.2 (balloc_ends ht (by omega) (runs_out hlack hD) fun b hfree hlt => ?_)
    have hfill := hsane.filled_word hv hty hfree hlt ha0 hk h0
    -- The indirect block is as it was, until the number is stored in it.
    have hne : (s.mem i).addrs NDIRECT ≠ b := hsane.ref_ne hfree hown
    have hblk : (s.alloc b).blk ((s.mem i).addrs NDIRECT) = s.blk ((s.mem i).addrs NDIRECT) :=
      update_of_ne hne ..
    refine Task.wp_bind.2 (call_ends rfl ?_)
    show Ends sb p D _ _ ((((s.alloc b).setBlk ((s.mem i).addrs NDIRECT)
      (((s.alloc b).blk ((s.mem i).addrs NDIRECT)).setWord k b))).balloced sb p b)
    rw [hblk]
    have huse := hfill.logUse_le (p := p) hP rfl
    refine Task.wp_bind.2 (logWrite_ends ht ?_ (hQ b _ (.of_mem ?_ ?_ ?_ ?_ ?_)))
    · exact (Store.card_lh_le_logUse.trans huse).trans_lt hroom
    · exact (Wrote.allocWord hsane hv hty hfree hlt ha0 hk h0).note.note.note
    · exact (Spent.of_filled hfill hsane hP).note.note.note
    · exact hfill.ref.2 (.inr ⟨rfl, rfl, rfl⟩)
    · exact Finset.mem_insert_of_mem Store.mem_balloced
    · exact hfill.logUse_entry_le hP rfl rfl hown
  · rw [if_neg h0]
    exact hQ _ s (.refl hsane (hcur.symm ▸ ⟨hty, hk, ha0, rfl, h0⟩))

theorem bmap_ends {Q : ℕ → Store n ι → Prop} {bn : ℕ} (hbn : bn < MAXFILE)
    (hP : Place.needs bn ⊆ P) (hQ : ∀ b s', Mapped sb i P (.of bn) b s s' → Q b s') :
    Ends sb p D (bmap sb i bn) Q s := by
  have hcur := cur_of_valid hv
  have hlh : s.lh.card ≤ s.logUse sb i P := Store.card_lh_le_logUse
  have hlack : ∀ k, .addr k ∈ P → (s.mem i).addrs k = 0 → .addr k ∈ s.lacking i P := by
    intro k hk h0
    refine Store.mem_lacking.2 ⟨hk, fun c hc => ?_⟩
    rw [hcur] at hc
    exact hc.2.2.2 (hc.2.2.1.symm.trans h0)
  unfold bmap
  unfold Place.of at hQ
  unfold Place.needs at hP
  by_cases hlt : bn < NDIRECT
  · rw [if_pos hlt] at hQ hP ⊢
    have hmem : .addr bn ∈ P := hP (Finset.mem_singleton_self _)
    refine bmapAddr_ends (fun h0 => hQ _ s (.refl hsane (hcur.symm ▸ ⟨hty, hlt.le, rfl, h0⟩)))
      fun h0 => ⟨ht, by omega, runs_out (hlack _ hmem h0) hD, fun b hfree hb => ?_⟩
    have hfill := hsane.filled_addr hv hty hfree hb hlt.le h0
    exact hQ b _ (.of_mem (Wrote.allocAddr hsane hv hty hfree hb hlt.le h0).note.note
      (Spent.of_filled hfill hsane hmem).note.note (hfill.ref.2 (.inr ⟨rfl, rfl, rfl⟩))
      Store.mem_balloced (hfill.logUse_le hmem rfl))
  · rw [if_neg hlt] at hQ hP ⊢
    have hk : bn - NDIRECT < NINDIRECT := by
      have : MAXFILE = NDIRECT + NINDIRECT := rfl
      omega
    have hmem : .addr NDIRECT ∈ P := hP (Finset.mem_insert_self ..)
    have hmem' : .entry (bn - NDIRECT) ∈ P :=
      hP (Finset.mem_insert_of_mem (Finset.mem_singleton_self _))
    rw [if_pos hk]
    refine Task.wp_bind.2 (bmapAddr_ends
      (fun h0 => bmapEntry_ends hsane hv hty ht hroom hD h0 hk hmem' hQ)
      fun h0 => ⟨ht, by omega, runs_out (hlack _ hmem h0) hD, fun a hfree ha => ?_⟩)
    have hfill := hsane.filled_addr hv hty hfree ha le_rfl h0
    have hw : Wrote sb i 0 [] s _ :=
      (Wrote.allocAddr hsane hv hty hfree ha le_rfl h0).note (p := p) (b := sb.bblock a) |>.note
        (p := p) (b := a)
    have hspent := ((Spent.of_filled hfill hsane hmem).note (p := p) (b := sb.bblock a)).note
      (p := p) (b := a)
    -- The entry is wanted in the indirect block, and there was none.
    have hentry : .entry (bn - NDIRECT) ∈ s.lacking i P := by
      refine Store.mem_lacking.2 ⟨hmem', fun c hc => ?_⟩
      rw [hcur] at hc
      exact hc.2.2.1 h0
    have huse := hfill.logUse_indirect_le (p := p) hmem rfl rfl hentry
    generalize hs₁ : (((s.alloc a).setMem i { s.mem i with
      addrs := update (s.mem i).addrs NDIRECT a }).balloced sb p a) = s₁
    have haddr : (s₁.mem i).addrs NDIRECT = a := by
      rw [← hs₁]
      simp only [Store.balloced, Store.note, Store.setMem, update_self]
    have ha0 : (s₁.mem i).addrs NDIRECT ≠ 0 := by
      rw [haddr]
      exact (sb.datastart_pos.trans_le (hsane.ne_boot hfree)).ne'
    change Wrote sb i 0 [] s ((Store.setMem _ _ _).balloced sb p a) at hw
    change Spent sb i P s ((Store.setMem _ _ _).balloced sb p a) at hspent
    change ((Store.setMem _ _ _).balloced sb p a).logUse sb i P ≤ _ at huse
    rw [hs₁] at hw hspent huse
    rw [← haddr]
    refine bmapEntry_ends hw.sane (hw.valid ▸ hv) (hw.type ▸ hty) (hw.trans ▸ ht) (by omega)
      (fun hfew => hD (hspent.lt_of_lt (subset_refl _) hfew)) ha0 hk hmem' fun b s' hm => ?_
    exact hQ b s' ⟨hw.after hm.wrote, hspent.trans hm.spent, hm.ref, hm.use.trans (by omega)⟩

end Bmap

/-! ## Contents -/

omit [DecidableEq ι] [Fintype ι] in
theorem chunk_fits (off left : ℕ) : off % BSIZE + chunk off left ≤ BSIZE := by
  have hmod : off % BSIZE < BSIZE := Nat.mod_lt _ (by decide)
  have h : chunk off left ≤ BSIZE - off % BSIZE := Nat.min_le_right ..
  omega

omit [DecidableEq ι] [Fintype ι] in
theorem Content.slice {a : List Byte} {off m : ℕ} (h : Content s i a) (hle : off + m ≤ a.length)
    (hfit : off % BSIZE + m ≤ BSIZE) (hb : (s.cur i).Ref s.blk (.of (off / BSIZE)) b) :
    (s.blk b).slice (off % BSIZE) m = (a.drop off).take m := by
  refine List.ext_getElem (by simp [Bytes.slice]; omega) fun k hk hk' => ?_
  have hkm : k < m := by simpa [Bytes.slice] using hk
  obtain ⟨hdiv, hmod⟩ := block_of_lt off k (by omega)
  obtain ⟨c, hc, hval⟩ := h.get (off + k) (by omega)
  rw [hdiv] at hc
  rw [hmod, ← hb.eq hc] at hval
  simp [Bytes.slice, hval]

theorem readLoop_ends {a : List Byte} (hv : s.valid i = true) (hcontent : Content s i a)
    (fuel : ℕ) :
    ∀ {Q : List Byte → Store n ι → Prop} {off left : ℕ}, off + left ≤ a.length → left ≤ fuel →
      Q ((a.drop off).take left) s → Ends sb p D (readLoop sb i fuel off left) Q s := by
  induction fuel with
  | zero =>
    intro Q off left hle hfuel hQ
    obtain rfl : left = 0 := Nat.le_zero.1 hfuel
    rwa [List.take_zero] at hQ
  | succ fuel ih =>
    intro Q off left hle hfuel hQ
    unfold readLoop
    by_cases h0 : left = 0
    · rw [if_pos h0]
      rwa [h0, List.take_zero] at hQ
    · rw [if_neg h0]
      have hpos := chunk_pos off h0
      have hchunk := chunk_le off left
      obtain ⟨b, hb, -⟩ := hcontent.get off (by omega)
      refine Task.wp_bind.2 (bmap_ends_of_ref (cur_of_valid hv ▸ hb) ?_)
      refine Task.wp_bind.2 (call_ends rfl ?_)
      rw [hcontent.slice (m := chunk off left) (by omega) (chunk_fits off left) hb]
      refine Task.wp_bind.2 (ih (by omega) (by omega) ?_)
      have htake : (a.drop off).take left = (a.drop off).take (chunk off left) ++
          (a.drop (off + chunk off left)).take (left - chunk off left) := by
        rw [← List.drop_drop, ← List.take_add, Nat.add_sub_cancel' hchunk]
      rwa [htake] at hQ

omit [DecidableEq ι] [Fintype ι] in
theorem card_blocksOf_chunk (off : ℕ) {len : ℕ} (h0 : len ≠ 0) : (blocksOf off len).card =
    (blocksOf (off + chunk off len) (len - chunk off len)).card + 1 := by
  have hfirst := blocksOf_of_fits (chunk_pos off h0) (chunk_fits off len)
  have hsplit := blocksOf_add off (chunk off len) (len - chunk off len)
  rw [Nat.add_sub_cancel' (chunk_le off len), hfirst, ← Finset.insert_eq] at hsplit
  rw [hsplit, Finset.card_insert_of_notMem]
  intro hmem
  obtain ⟨k, hk, hdiv⟩ := Finset.mem_image.1 hmem
  rw [Finset.mem_Ico] at hk
  have hoff := Nat.div_add_mod off BSIZE
  have hk' := Nat.div_add_mod k BSIZE
  have hmod : k % BSIZE < BSIZE := Nat.mod_lt _ (by decide)
  rw [hdiv] at hk'
  -- There are bytes left, so that the pass ends with its block.
  have hchunk : chunk off len = min len (BSIZE - off % BSIZE) := rfl
  omega

omit [DecidableEq ι] [Fintype ι] in
theorem needs_subset_places {off len : ℕ} (h0 : len ≠ 0) :
    Place.needs (off / BSIZE) ⊆ places off len :=
  Finset.subset_biUnion_of_mem Place.needs
    (Finset.mem_image_of_mem _ (Finset.mem_Ico.2 ⟨le_rfl, by omega⟩))

omit [Fintype ι] in
theorem Mapped.copyin {off : ℕ} (h : Mapped sb i P (.of (off / BSIZE)) b s s')
    (hfit : off % BSIZE + bs.length ≤ BSIZE)
    (hs'' : s'' = (s'.setBlk b ((s'.blk b).splice (off % BSIZE) bs)).note p b) :
    Wrote sb i off bs s s'' ∧ Spent sb i P s s'' ∧ s''.logUse sb i P ≤ s.logUse sb i P + 1 := by
  subst hs''
  have hsane := h.wrote.sane
  have href : ∀ {pl c}, (s'.cur i).Ref (update s'.blk b
      ((s'.blk b).splice (off % BSIZE) bs)) pl c ↔ (s'.cur i).Ref s'.blk pl c :=
    ref_setBlk fun hty => hsane.indirect_ne h.ref (Place.of_ne _) hty
  have hset : Spent sb i P s' (s'.setBlk b ((s'.blk b).splice (off % BSIZE) bs)) :=
    .of_ref hsane rfl href
  refine ⟨(h.wrote.after (.copyin hsane h.ref hfit)).note, (h.spent.trans hset).note, ?_⟩
  have huse : (s'.setBlk b ((s'.blk b).splice (off % BSIZE) bs)).logUse sb i P =
      s'.logUse sb i P := Store.logUse_congr rfl href
  have hnote := (s'.setBlk b ((s'.blk b).splice (off % BSIZE) bs)).logUse_note_le sb i P p b
  rw [huse] at hnote
  exact hnote.trans h.use

theorem writeLoop_ends (fuel : ℕ) :
    ∀ {Q : Unit → Store n ι → Prop} {s : Store n ι} {off : ℕ} {src : List Byte}, Sane sb s →
      s.valid i = true → (s.mem i).type ≠ .free → s.trans p = true →
      off + src.length ≤ MAXFILE * BSIZE → src.length ≤ fuel → places off src.length ⊆ P →
      s.logUse sb i P + (blocksOf off src.length).card ≤ sb.logMax →
      (s.lacking i P = ∅ ∨ s.logUse sb i P + (blocksOf off src.length).card < sb.logMax) →
      ((s.unmarked sb).card < (s.lacking i P).card → MayRunOut sb D) →
      (∀ s', Wrote sb i off src s s' → Spent sb i P s s' →
        s'.logUse sb i P ≤ s.logUse sb i P + (blocksOf off src.length).card → Q () s') →
      Ends sb p D (writeLoop sb i fuel off src) Q s := by
  have hend : ∀ {Q : Unit → Store n ι → Prop} {s : Store n ι} {off : ℕ}, Sane sb s →
      (∀ s', Wrote sb i off [] s s' → Spent sb i P s s' →
        s'.logUse sb i P ≤ s.logUse sb i P + (blocksOf off 0).card → Q () s') → Q () s :=
    fun hsane hQ => hQ _ (.refl hsane) (.refl hsane) (Nat.le_add_right ..)
  induction fuel with
  | zero =>
    intro Q s off src hsane hv hty ht hmax hfuel hP hfit hroom hD hQ
    obtain rfl : src = [] := List.eq_nil_of_length_eq_zero (Nat.le_zero.1 hfuel)
    exact hend hsane hQ
  | succ fuel ih =>
    intro Q s off src hsane hv hty ht hmax hfuel hP hfit hroom hD hQ
    unfold writeLoop
    by_cases h0 : src = []
    · subst h0
      rw [if_pos rfl]
      exact hend hsane hQ
    · rw [if_neg h0]
      have hne : src.length ≠ 0 := fun h => h0 (List.eq_nil_of_length_eq_zero h)
      have hchunk := chunk_le off src.length
      have hpos := chunk_pos off hne
      have hbn : off / BSIZE < MAXFILE := (Nat.div_lt_iff_lt_mul (by decide)).2 (by omega)
      have hneeds := (needs_subset_places hne).trans hP
      have hcard := card_blocksOf_chunk off hne
      have hlen : (src.take (chunk off src.length)).length = chunk off src.length := by
        rw [List.length_take, Nat.min_eq_left hchunk]
      have hdrop : (src.drop (chunk off src.length)).length = src.length - chunk off src.length :=
        List.length_drop
      have hrest : places (off + chunk off src.length) (src.length - chunk off src.length) ⊆ P := by
        refine subset_trans ?_ hP
        have := places_add off (chunk off src.length) (src.length - chunk off src.length)
        rw [Nat.add_sub_cancel' hchunk] at this
        rw [this]
        exact Finset.subset_union_right
      -- The rest of the loop, from the state in which `bmap` has returned.
      have hnext : ∀ b s₁, Mapped sb i P (.of (off / BSIZE)) b s s₁ → s₁.lh.card < sb.logMax →
          Ends sb p D (do
            call (.copyin b (off % BSIZE) (src.take (chunk off src.length)))
            logWrite b
            writeLoop sb i fuel (off + chunk off src.length) (src.drop (chunk off src.length)))
            Q s₁ := by
        intro b s₁ hmap hlh
        obtain ⟨hw, hspent, huse⟩ := hmap.copyin (p := p) (hlen.symm ▸ chunk_fits off src.length) rfl
        refine Task.wp_bind.2 (call_ends rfl (Task.wp_bind.2 (logWrite_ends ?_ hlh ?_)))
        · exact (congrFun hmap.wrote.trans p).trans ht
        generalize (s₁.setBlk b ((s₁.blk b).splice (off % BSIZE)
          (src.take (chunk off src.length)))).note p b = s₂ at *
        refine ih hw.sane (hw.valid ▸ hv) (hw.type ▸ hty) (hw.trans ▸ ht) (by omega) (by omega)
          (hdrop ▸ hrest) (by rw [hdrop]; omega) ?_
          (fun hfew => hD (hspent.lt_of_lt (subset_refl _) hfew)) fun s' hw' hspent' huse' => ?_
        · rw [hdrop]
          refine hroom.imp (fun hnone => ?_) (by omega)
          exact Finset.subset_empty.1 (hnone ▸ hspent.lacking_subset)
        · rw [← hlen] at hw'
          have happ := hw.append hw'
          rw [hlen, List.take_append_drop] at happ
          refine hQ s' happ (hspent.trans hspent') ?_
          rw [hdrop] at huse'
          omega
      have hlh : s.lh.card ≤ s.logUse sb i P := Store.card_lh_le_logUse
      by_cases hnone : s.lacking i P = ∅
      · obtain ⟨b, hb⟩ : ∃ b, (s.cur i).Ref s.blk (.of (off / BSIZE)) b := by
          by_contra hno
          have hmem := Store.mem_lacking.2
            ⟨hneeds (Place.of_mem_needs _), fun b hb => hno ⟨b, hb⟩⟩
          rw [hnone] at hmem
          exact absurd hmem (Finset.notMem_empty _)
        exact Task.wp_bind.2 (bmap_ends_of_ref (cur_of_valid hv ▸ hb)
          (hnext b s (.refl hsane hb) (by omega)))
      · have hlt := hroom.resolve_left hnone
        refine Task.wp_bind.2 (bmap_ends hsane hv hty ht (by omega) hD hbn hneeds
          fun b s₁ hmap => hnext b s₁ hmap ?_)
        have := hmap.use
        have : s₁.lh.card ≤ s₁.logUse sb i P := Store.card_lh_le_logUse
        omega

end Wp

/-! ## The array -/

def arrayRead (a : List Byte) (off len : ℕ) : Option (List Byte) :=
  if a.length < off ∨ 4294967296 ≤ off + len then none else some ((a.drop off).take len)

def arrayWrite (a src : List Byte) (off : ℕ) : Option (List Byte) :=
  if a.length < off ∨ 4294967296 ≤ off + src.length ∨ MAXFILE * BSIZE < off + src.length then none
  else some (a.take off ++ src ++ a.drop (off + src.length))

theorem arrayWrite_eq_some {a src a' : List Byte} {off : ℕ} :
    arrayWrite a src off = some a' ↔ off ≤ a.length ∧ off + src.length ≤ MAXFILE * BSIZE ∧
      a' = a.take off ++ src ++ a.drop (off + src.length) := by
  have hmax : MAXFILE * BSIZE = 71680 := rfl
  unfold arrayWrite
  split
  · rename_i hbad
    refine iff_of_false nofun fun hgood => ?_
    omega
  · rename_i hgood
    rw [Option.some.injEq]
    exact ⟨fun h => ⟨by omega, by omega, h.symm⟩, fun h => h.2.2.symm⟩

/-- File `i` has become the array `a`, and nothing else is different; blocks are marked that are in
the file now. -/
structure Updated (sb : Super) (i : Fin n) (a : List Byte) (s s' : Store n ι) : Prop where
  sane : Sane sb s'
  content : Content s' i a
  others : ∀ j, j ≠ i → ∀ {c}, Content s j c → Content s' j c
  valid : s'.valid = s.valid
  lock : s'.lock = s.lock
  off : s'.off = s.off
  trans : s'.trans = s.trans
  marked : ∀ {b}, s'.marked b = true ↔ s.marked b = true ∨ ∃ pl, (s'.cur i).Ref s'.blk pl b
  mem : ∀ j, j ≠ i → s'.mem j = s.mem j
  disk : ∀ j, j ≠ i → s'.disk j = s.disk j
  type : (s'.mem i).type = (s.mem i).type
  nlink : (s'.mem i).nlink = (s.mem i).nlink

theorem Wrote.at_overwrite {a src : List Byte} {off : ℕ} (h : Wrote sb i off src s s')
    (hcontent : Content s i a) (hoff : off ≤ a.length) (k : ℕ)
    (hk : k < (a.take off ++ src ++ a.drop (off + src.length)).length) :
    s'.At i k (a.take off ++ src ++ a.drop (off + src.length))[k] := by
  have hlen : (a.take off).length = off := by rw [List.length_take, Nat.min_eq_left hoff]
  rw [List.length_append, List.length_append, hlen, List.length_drop] at hk
  rcases Nat.lt_or_ge k off with hlt | hge
  · have hget : (a.take off ++ src ++ a.drop (off + src.length))[k] = a[k] := by
      rw [List.getElem_append_left (by rw [List.length_append]; omega),
        List.getElem_append_left (by omega), List.getElem_take]
    rw [hget]
    exact h.old (hcontent.get k (by omega)) fun _ => .inl hlt
  · rcases Nat.lt_or_ge k (off + src.length) with hlt | hge'
    · have hget : (a.take off ++ src ++ a.drop (off + src.length))[k] = src[k - off] := by
        rw [List.getElem_append_left (by rw [List.length_append]; omega),
          List.getElem_append_right (by omega)]
        simp only [hlen]
      rw [hget]
      have hnew := h.new (k - off) (by omega)
      rwa [Nat.add_sub_cancel' hge] at hnew
    · have hget : (a.take off ++ src ++ a.drop (off + src.length))[k] = a[k] := by
        rw [List.getElem_append_right (by rw [List.length_append]; omega), List.getElem_drop]
        congr 1
        rw [List.length_append]
        omega
      rw [hget]
      exact h.old (hcontent.get k (by omega)) fun _ => .inr hge'

theorem Wrote.updated {a src : List Byte} {off : ℕ} (h : Wrote sb i off src s s') (s'' : Store n ι)
    (hspent : Spent sb i P s s')
    (hcontent : Content s i a) (hoff : off ≤ a.length) (hv : s.valid i = true)
    (hbits : s''.bits = s'.bits) (hblk : s''.blk = s'.blk) (hvalid : s''.valid = s'.valid)
    (hlock : s''.lock = s'.lock) (hoff' : s''.off = s'.off) (htrans : s''.trans = s'.trans)
    (hmem : ∀ j, j ≠ i → s''.mem j = s'.mem j) (hdisk : ∀ j, j ≠ i → s''.disk j = s'.disk j)
    (htype : (s''.mem i).type = (s'.mem i).type) (hnlink : (s''.mem i).nlink = (s'.mem i).nlink)
    (haddrs : (s''.mem i).addrs = (s'.mem i).addrs)
    (hsize : (s''.mem i).size = max a.length (off + src.length)) :
    Updated sb i (a.take off ++ src ++ a.drop (off + src.length)) s s'' ∧ Spent sb i P s s'' ∧
      s''.lacking i (places off src.length) = ∅ := by
  have hv' : s'.valid i = true := h.valid ▸ hv
  have hv'' : s''.valid i = true := hvalid ▸ hv'
  have hcur : ∀ j, j ≠ i → s''.cur j = s'.cur j := by
    intro j hj
    simp only [Store.cur, hvalid, hmem j hj, hdisk j hj]
  have hcur₀ : ∀ j, j ≠ i → s'.cur j = s.cur j := by
    intro j hj
    simp only [Store.cur, h.valid, h.mem j hj, h.disk]
  have href : ∀ {j pl c}, (s''.cur j).Ref s''.blk pl c ↔ (s'.cur j).Ref s'.blk pl c := by
    intro j pl c
    rw [hblk]
    by_cases hj : j = i
    · rw [hj, cur_of_valid hv', cur_of_valid hv'']
      exact Dinode.ref_congr htype haddrs pl
    · rw [hcur j hj]
  have hat : ∀ {j k v}, s'.At j k v → s''.At j k v := by
    rintro j k v ⟨c, hc, hval⟩
    exact ⟨c, href.2 hc, by rw [hblk]; exact hval⟩
  have huse : ∀ c, s''.InUse sb c ↔ s'.InUse sb c := Store.inUse_congr hbits
  have hspent' := hspent.trans (.of_ref h.sane hbits href)
  have hthere : ∀ k, off ≤ k → k < off + src.length → ∃ v, s'.At i k v := by
    intro k hk hlt
    have hnew := h.new (k - off) (by omega)
    rw [Nat.add_sub_cancel' hk] at hnew
    exact ⟨_, hnew⟩
  refine ⟨?_, hspent', (Store.lacking_congr href).trans (Store.lacking_places hthere)⟩
  refine ⟨⟨fun c hc => ?_, fun hr => (huse _).2 (h.sane.used (href.1 hr)),
      fun hr hr' => h.sane.unique (href.1 hr) (href.1 hr')⟩,
    ⟨?_, fun k hk => hat (h.at_overwrite hcontent hoff k hk)⟩, fun j hj c hc => ?_,
    hvalid.trans h.valid, hlock.trans h.lock, hoff'.trans h.off, htrans.trans h.trans,
    hspent'.marked,
    fun j hj => (hmem j hj).trans (h.mem j hj), fun j hj => (hdisk j hj).trans (by rw [h.disk]),
    htype.trans h.type, hnlink.trans h.nlink⟩
  · rw [Store.marked, hbits]
    exact h.sane.boot c hc
  · rw [cur_of_valid hv'', hsize, List.length_append, List.length_append, List.length_take,
      List.length_drop]
    omega
  · refine ⟨?_, fun k hk => hat (h.old (hc.get k hk) fun hji => absurd hji hj)⟩
    rw [hcur j hj, hcur₀ j hj]
    exact hc.length

section Refine

variable [DecidableEq ι] [Fintype ι] {D : String → Store n ι → Prop} {a src : List Byte} {off : ℕ}

theorem readi_ends {Q : Option (List Byte) → Store n ι → Prop} {len : ℕ}
    (hv : s.valid i = true) (hdev : (s.mem i).type ≠ .dev) (hcontent : Content s i a)
    (hoff : off < 4294967296) (hlen : len < 4294967296) (hQ : Q (arrayRead a off len) s) :
    Ends sb p D (readi sb i off len) Q s := by
  have hsize : (s.mem i).size = a.length := by
    rw [hcontent.length, cur_of_valid hv]
  have hguard : a.length < off ∨ (off + len) % 4294967296 < off ↔
      a.length < off ∨ 4294967296 ≤ off + len := by omega
  unfold readi
  refine Task.wp_bind.2 (call_ends rfl ?_)
  rw [if_neg hdev, hsize]
  unfold arrayRead at hQ
  by_cases hbad : a.length < off ∨ 4294967296 ≤ off + len
  · rw [if_pos (hguard.2 hbad)]
    rwa [if_pos hbad] at hQ
  · rw [if_neg fun h => hbad (hguard.1 h)]
    rw [if_neg hbad] at hQ
    have hle : off ≤ a.length := Nat.not_lt.1 fun h => hbad (.inl h)
    refine Task.wp_bind.2 (readLoop_ends hv hcontent _ ?_ le_rfl ?_)
    · split <;> omega
    · by_cases hlong : a.length < off + len
      · rw [if_pos hlong]
        rw [List.take_of_length_le (by rw [List.length_drop]; omega)] at hQ
        rw [List.take_of_length_le (by rw [List.length_drop])]
        exact hQ
      · rw [if_neg hlong]
        exact hQ

theorem writei_ends_of_none {Q : Option ℕ → Store n ι → Prop} (hv : s.valid i = true)
    (hdev : (s.mem i).type ≠ .dev) (hcontent : Content s i a) (hoff : off < 4294967296)
    (hlen : src.length < 4294967296) (hnone : arrayWrite a src off = none) (hQ : Q none s) :
    Ends sb p D (writei sb i src off) Q s := by
  have hsize : (s.mem i).size = a.length := by
    rw [hcontent.length, cur_of_valid hv]
  unfold writei
  refine Task.wp_bind.2 (call_ends rfl ?_)
  rw [if_neg hdev, hsize]
  by_cases hbad : a.length < off ∨ (off + src.length) % 4294967296 < off
  · rw [if_pos hbad]
    exact hQ
  · have hmax : MAXFILE * BSIZE < off + src.length := by
      by_contra hmax
      rw [arrayWrite, if_neg (by omega)] at hnone
      cases hnone
    rw [if_neg hbad, if_pos hmax]
    exact hQ

theorem writei_ends {Q : Option ℕ → Store n ι → Prop} {a' : List Byte} (hsane : Sane sb s)
    (hv : s.valid i = true) (hty : (s.mem i).type ≠ .free) (hdev : (s.mem i).type ≠ .dev)
    (ht : s.trans p = true) (hcontent : Content s i a) (hsome : arrayWrite a src off = some a')
    (hroom : s.writeUse sb i off src.length ≤ sb.logMax)
    (hD : (s.unmarked sb).card < (s.lacking i (places off src.length)).card → MayRunOut sb D)
    (hQ : ∀ s', Updated sb i a' s s' → Spent sb i (places off src.length) s s' →
      s'.lacking i (places off src.length) = ∅ → Q (some src.length) s') :
    Ends sb p D (writei sb i src off) Q s := by
  have hsize : (s.mem i).size = a.length := by
    rw [hcontent.length, cur_of_valid hv]
  obtain ⟨hle, hmax, rfl⟩ := arrayWrite_eq_some.1 hsome
  have hbig : MAXFILE * BSIZE = 71680 := rfl
  unfold Store.writeUse at hroom
  rw [cur_of_valid hv, hsize] at hroom
  unfold writei
  refine Task.wp_bind.2 (call_ends rfl ?_)
  rw [if_neg hdev, hsize, if_neg (by omega), if_neg (by omega)]
  refine Task.wp_bind.2 (writeLoop_ends src.length hsane hv hty ht hmax le_rfl (subset_refl _)
    (by omega) ?_ hD fun s₁ hw hspent huse => ?_)
  · by_cases hnone : s.lacking i (places off src.length) = ∅
    · exact .inl hnone
    · rw [if_neg fun hc => hnone hc.1] at hroom
      exact .inr (by omega)
  refine Task.wp_bind.2 (call_ends rfl ?_)
  have hsize₁ : (s₁.mem i).size = a.length := hw.size.trans hsize
  rw [hsize₁]
  by_cases hext : 0 < src.length ∧ a.length < off + src.length
  · rw [if_pos hext]
    rw [if_neg fun hc => absurd hc.2 (by omega)] at hroom
    have hlh : s₁.lh.card ≤ s₁.logUse sb i (places off src.length) := Store.card_lh_le_logUse
    refine Task.wp_bind.2 (call_ends rfl (Task.wp_bind.2 (Task.wp_bind.2 (call_ends rfl
      (logWrite_ends ?_ ?_ ?_)))))
    · exact (congrFun hw.trans p).trans ht
    · exact (hlh.trans huse).trans_lt (by omega)
    · generalize hs₂ : Store.note _ p (sb.iblock i) = s₂
      have hmem : s₂.mem = update s₁.mem i { s₁.mem i with size := off + src.length } := by
        rw [← hs₂]
        rfl
      have hdisk : ∀ j, j ≠ i → s₂.disk j = s₁.disk j := by
        intro j hj
        rw [← hs₂]
        exact update_of_ne hj ..
      have hmemi : s₂.mem i = { s₁.mem i with size := off + src.length } := by
        rw [hmem, update_self]
      obtain ⟨hup, hsp, hlack⟩ := hw.updated s₂ hspent hcontent hle hv (by rw [← hs₂]; rfl)
        (by rw [← hs₂]; rfl) (by rw [← hs₂]; rfl) (by rw [← hs₂]; rfl) (by rw [← hs₂]; rfl)
        (by rw [← hs₂]; rfl) (fun j hj => by rw [hmem, update_of_ne hj]) hdisk
        (by rw [hmemi]) (by rw [hmemi]) (by rw [hmemi])
        (by rw [hmemi]; exact (Nat.max_eq_right hext.2.le).symm)
      exact hQ s₂ hup hsp hlack
  · rw [if_neg hext]
    obtain ⟨hup, hsp, hlack⟩ := hw.updated s₁ hspent hcontent hle hv rfl rfl rfl rfl rfl rfl
      (fun _ _ => rfl) (fun _ _ => rfl) rfl rfl rfl (by rw [hsize₁]; omega)
    exact hQ s₁ hup hsp hlack

end Refine

def openFile : Store 1 Bool :=
  { oneFile 3 with
    mem := (oneFile 3).disk
    valid := fun _ => true
    lock := fun _ => some true
    trans := fun _ => true }

theorem openFile_ref : (openFile.cur 0).Ref openFile.blk (.addr 0) 4 :=
  ⟨nofun, Nat.zero_le _, rfl, nofun⟩

theorem openFile_sane : Sane eightBlocks openFile where
  boot := by decide
  used {j pl b} href := by
    obtain rfl : b = 4 + j := (files_ref.1 href).2
    obtain rfl : j = 0 := Subsingleton.elim j 0
    exact ⟨by decide, by decide, by decide⟩
  unique {j j' pl pl' b} href href' := by
    exact ⟨Subsingleton.elim j j', (files_ref.1 href).1.trans (files_ref.1 href').1.symm⟩

theorem openFile_content : Content openFile 0 [0#8, 0#8, 0#8] where
  length := rfl
  get k hk := by
    refine ⟨4, ?_, ?_⟩
    · rw [Nat.div_eq_of_lt (show k < BSIZE from hk.trans (by decide))]
      exact openFile_ref
    · show 0#8 = _
      rcases k with _ | _ | _ | k
      · rfl
      · rfl
      · rfl
      · exact absurd hk (by simp)

def hugeDisk : Super :=
  { eightBlocks with size := 200, size_lt := by decide, datastart_le := by decide }

def largest : Store 1 Bool where
  bits _ _ := 255#8
  blk b j := if b = 22 ∧ j % 4 = 0 then BitVec.ofNat 8 (30 + j / 4) else 0#8
  disk _ := ⟨.file, 1, 71680, fun k => if k ≤ 12 then 10 + k else 0⟩
  mem _ := ⟨.free, 0, 0, fun _ => 0⟩
  valid _ := false
  lock _ := none
  trans _ := false
  pass _ := false
  logged _ := ∅
  lh := ∅
  off _ := 70144

theorem largest_word {k : ℕ} (hk : k < 128) : (largest.blk 22).word k = 30 + k := by
  have hlt : (30 + k) % 256 = 30 + k := Nat.mod_eq_of_lt (by omega)
  simp [largest, Bytes.word, hlt]

theorem largest_ref {j : Fin 1} {pl : Place} {b : ℕ} :
    (largest.cur j).Ref largest.blk pl b ↔
      match pl with
      | .addr k => k ≤ 12 ∧ b = 10 + k
      | .entry k => k < 128 ∧ b = 30 + k := by
  cases pl with
  | addr k =>
    show Itype.file ≠ .free ∧ k ≤ 12 ∧ (if k ≤ 12 then 10 + k else 0) = b ∧ b ≠ 0 ↔ _
    constructor
    · rintro ⟨-, hk, hb, -⟩
      rw [if_pos hk] at hb
      exact ⟨hk, hb.symm⟩
    · rintro ⟨hk, rfl⟩
      exact ⟨nofun, hk, if_pos hk, by omega⟩
  | entry k =>
    show Itype.file ≠ .free ∧ k < 128 ∧ 22 ≠ 0 ∧ (largest.blk 22).word k = b ∧ b ≠ 0 ↔ _
    constructor
    · rintro ⟨-, hk, -, hb, -⟩
      rw [largest_word hk] at hb
      exact ⟨hk, hb.symm⟩
    · rintro ⟨hk, rfl⟩
      exact ⟨nofun, hk, nofun, largest_word hk, by omega⟩

theorem largest_marked (b : ℕ) : largest.marked b = true := by
  have hbyte : ∀ m < 8, (255#8).getLsbD m = true := by decide
  rw [Store.marked, Bytes.bit_eq_getLsbD]
  exact hbyte _ (Nat.mod_lt _ (by decide))

theorem largest_sane : Sane hugeDisk largest := by
  refine ⟨fun b _ => largest_marked b, fun {j pl b} href => ?_,
    fun {j j' pl pl' b} href href' => ?_⟩
  · refine ⟨largest_marked b, ?_⟩
    show 4 ≤ b ∧ b < 200
    rw [largest_ref] at href
    cases pl <;> dsimp only at href <;> omega
  · refine ⟨Subsingleton.elim j j', ?_⟩
    rw [largest_ref] at href href'
    cases pl with
    | addr k =>
      cases pl' with
      | addr k' => exact congrArg Place.addr (by dsimp only at href href'; omega)
      | entry k' => dsimp only at href href'; omega
    | entry k =>
      cases pl' with
      | addr k' => dsimp only at href href'; omega
      | entry k' => exact congrArg Place.entry (by dsimp only at href href'; omega)

theorem largest_content : Content largest 0 (List.replicate 71680 0#8) := by
  refine ⟨List.length_replicate, fun k hk => ?_⟩
  rw [List.length_replicate] at hk
  have hblk : ∀ b, b ≠ 22 → largest.blk b (k % BSIZE) = 0#8 := by
    intro b hb
    exact if_neg fun h => hb h.1
  rw [List.getElem_replicate]
  have hbn : k / BSIZE < 140 := Nat.div_lt_of_lt_mul hk
  unfold Store.At Place.of
  by_cases hlt : k / BSIZE < NDIRECT
  · rw [if_pos hlt]
    change k / BSIZE < 12 at hlt
    exact ⟨_, largest_ref.2 ⟨by omega, rfl⟩, hblk _ (by omega)⟩
  · rw [if_neg hlt]
    change ¬ k / BSIZE < 12 at hlt
    exact ⟨_, largest_ref.2 ⟨show k / BSIZE - 12 < 128 by omega, rfl⟩, hblk _ (by omega)⟩

def openLargest : Store 1 Bool :=
  { largest with
    mem := largest.disk
    valid := fun _ => true
    lock := fun _ => some true
    trans := fun _ => true }

end Xv6.Alloc
