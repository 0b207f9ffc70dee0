import Xv6.Alloc.Protocol
import Mathlib.Data.Finset.Card

/-!
# The functions on blocks keep to the protocol

One lemma for each function of `Xv6.Alloc.Content`, from the inside out, and `prog_follows` for the
calls. What carries the loop of `writei` is that the file is covered up to where it writes
(`Work.Covers`), so that the block it looks up is there or is the next one; and that `Work.due`
bounds what the rest of the loop logs.
-/

namespace Xv6.Alloc

open Function
open Fs (BSIZE MAXFILE Itype)

variable {n : ℕ} {sb : Super} {i : Fin n} {w : Work n} {wr ps : Bool} {L : Finset ℕ} {b k bn : ℕ}
  {α : Type}

abbrev Keeps (p : Sys n α) (Q : α → Ghost n → Prop) (g : Ghost n) : Prop :=
  p.Follows (protocol n) Q g

theorem keeps_panicUnless {c : Prop} [Decidable c] {why : String} {Q : Unit → Ghost n → Prop}
    {g : Ghost n} (hc : c ∨ (protocol n).dies why) (hQ : c → Q () g) :
    Keeps (panicUnless c why) Q g := by
  unfold panicUnless
  split
  · exact hQ ‹_›
  · exact hc.resolve_left ‹_›

/-! ## Blocks -/

theorem logWrite_keeps {Q : Unit → Ghost n → Prop} {g : Ghost n} (hw : g.writes = true)
    (hroom : g.pass = true → (insert b g.log).card ≤ MAXOPBLOCKS)
    (hQ : Q () { g with log := insert b g.log }) : Keeps (logWrite b) Q g := by
  unfold logWrite
  refine Task.follows_bind.2 (Task.follows_call.2 ⟨trivial, fun _ _ => ?_⟩)
  refine Task.follows_bind.2 (keeps_panicUnless (.inr ⟨by decide, by decide, by decide⟩) fun _ => ?_)
  refine Task.follows_bind.2 (Task.follows_call.2 ⟨⟨hw, hroom⟩, fun r hr => ?_⟩)
  exact keeps_panicUnless (.inl hr) fun _ => hQ

theorem card_insert_insert_le {c : ℕ} (h : L.card + 2 ≤ MAXOPBLOCKS) :
    (insert b (insert c L)).card ≤ MAXOPBLOCKS :=
  (Finset.card_insert_le ..).trans ((Nat.add_le_add_right (Finset.card_insert_le ..) 1).trans h)

theorem card_insert_le_of_le (h : L.card + 1 ≤ MAXOPBLOCKS) : (insert b L).card ≤ MAXOPBLOCKS :=
  (Finset.card_insert_le ..).trans h

theorem ballocFrom_keeps {Q : ℕ → Ghost n → Prop} (hq : w.phase.Quiet) (hwr : wr = true)
    (hroom : ps = true → L.card + 2 ≤ MAXOPBLOCKS)
    (hQ : ∀ b c, b ≠ 0 → Q b ⟨.work { w with phase := .fresh true w.phase.zero b }, wr, ps,
      insert b (insert c L)⟩) (bbs : List ℕ) :
    Keeps (ballocFrom sb bbs) Q ⟨.work w, wr, ps, L⟩ := by
  induction bbs with
  | nil => exact ⟨by decide, by decide, by decide⟩
  | cons bb bbs ih =>
    unfold ballocFrom
    refine Task.follows_bind.2 (Task.follows_call.2 ⟨⟨hwr, w, rfl, hq⟩, fun r hr => ?_⟩)
    cases r with
    | none => exact ih
    | some b =>
      have hb : b ≠ 0 := hr w rfl b rfl
      refine Task.follows_bind.2 (logWrite_keeps hwr
        (fun h => card_insert_le_of_le (Nat.le_of_succ_le (hroom h))) ?_)
      refine Task.follows_bind.2 (Task.follows_bind.2 (Task.follows_call.2
        ⟨⟨_, rfl, _, _, rfl⟩, fun _ _ => ?_⟩))
      exact logWrite_keeps hwr (fun h => card_insert_insert_le (hroom h)) (hQ b _ hb)

theorem bfree_keeps {Q : Unit → Ghost n → Prop} {place : Place} (hwr : wr = true)
    (hallow : w.Allows (.bfree place b))
    (hQ : ∀ L, Q () ⟨.work (w.next (.bfree place b) true), wr, false, L⟩) :
    Keeps (bfree sb place b) Q ⟨.work w, wr, false, L⟩ := by
  unfold bfree
  refine Task.follows_bind.2 (Task.follows_call.2 ⟨⟨w, rfl, hallow⟩, fun r hr => ?_⟩)
  obtain rfl : r = true := hr w rfl
  refine Task.follows_bind.2 (keeps_panicUnless (.inl rfl) fun _ => ?_)
  exact logWrite_keeps hwr nofun (hQ _)

theorem iupdate_keeps {Q : Unit → Ghost n → Prop} (hi : w.i = i) (hq : w.phase.Quiet)
    (hwr : wr = true) (hroom : ps = true → L.card + 1 ≤ MAXOPBLOCKS)
    (hQ : ∀ L, Q () ⟨.work { w with sync := true }, wr, ps, L⟩) :
    Keeps (iupdate sb i) Q ⟨.work w, wr, ps, L⟩ := by
  unfold iupdate
  refine Task.follows_bind.2 (Task.follows_call.2 ⟨⟨w, rfl, hi.symm, hq⟩, fun _ _ => ?_⟩)
  exact logWrite_keeps hwr (fun h => card_insert_le_of_le (hroom h)) (hQ _)

/-! ## The block of an index -/

namespace Work

abbrev store (w : Work n) (k b : ℕ) : Work n :=
  { w with
    ip := { w.ip with addrs := update w.ip.addrs k b }
    lead := if k = NDIRECT then 0 else w.lead
    phase := .calm
    sync := false }

@[simp] theorem store_addrs_self : (w.store k b).ip.addrs k = b := update_self ..

theorem store_addrs_of_ne {l : ℕ} (h : l ≠ k) : (w.store k b).ip.addrs l = w.ip.addrs l :=
  update_of_ne h ..

theorem store_lead : (w.store NDIRECT b).lead = 0 := by
  simp only [if_true]

/-- The entries of the indirect block are in it. -/
structure Wf (w : Work n) : Prop where
  lead_le : w.lead ≤ NINDIRECT
  ne_zero : 0 < w.lead → w.ip.addrs NDIRECT ≠ 0

/-- `w'` is `w` with block number `bn`, for which it had to be allocated unless it was there. -/
structure Grows (w w' : Work n) (bn : ℕ) : Prop where
  i : w'.i = w.i
  wf : w'.Wf
  quiet : w'.phase.Quiet
  type : w'.ip.type = w.ip.type
  size : w'.ip.size = w.ip.size
  has : w'.Has bn
  mono : ∀ m, w.Has m → w'.Has m
  sync : w.Has bn → w'.sync = w.sync

def due (w : Work n) (L : Finset ℕ) : ℕ :=
  L.card + if w.ip.addrs NDIRECT ≠ 0 ∧ w.ip.addrs NDIRECT ∈ L then 0 else 2

open Classical in
noncomputable def price (w : Work n) (bn : ℕ) : ℕ := if w.Has bn then 1 else 2

end Work

theorem bmapAddr_keeps {Q : ℕ → Ghost n → Prop} (hi : w.i = i) (hq : w.phase.Quiet)
    (hk : k ≤ NDIRECT) (hwr : w.ip.addrs k = 0 → wr = true)
    (hroom : ps = true → w.ip.addrs k = 0 → L.card + 2 ≤ MAXOPBLOCKS)
    (hold : w.ip.addrs k ≠ 0 → Q (w.ip.addrs k) ⟨.work w, wr, ps, L⟩)
    (hnew : w.ip.addrs k = 0 → ∀ b c, b ≠ 0 → Q b ⟨.work (w.store k b), wr, ps,
      insert b (insert c L)⟩) :
    Keeps (bmapAddr sb i k) Q ⟨.work w, wr, ps, L⟩ := by
  unfold bmapAddr
  refine Task.follows_bind.2 (Task.follows_call.2 ⟨.inr ⟨w, rfl, hi⟩, fun r hr => ?_⟩)
  obtain rfl : r = w.ip := hr
  split
  · rename_i h0
    refine Task.follows_bind.2 (ballocFrom_keeps hq (hwr h0) (fun h => hroom h h0) ?_ _)
    intro b c hb
    refine Task.follows_bind.2 (Task.follows_call.2
      ⟨⟨_, rfl, hi.symm, hk, .inl ⟨⟨_, rfl⟩, h0⟩⟩, fun _ _ => ?_⟩)
    exact hnew h0 b c hb
  · exact hold ‹_›

namespace Work

theorem has_of_lt (h : bn < NDIRECT) : w.Has bn ↔ w.ip.addrs bn ≠ 0 := by
  simp only [Has, h, if_true]

theorem has_of_le (h : NDIRECT ≤ bn) : w.Has bn ↔ bn - NDIRECT < w.lead := by
  simp only [Has, Nat.not_lt.2 h, if_false]

theorem price_of_has (h : w.Has bn) : w.price bn = 1 := if_pos h

theorem price_of_not_has (h : ¬ w.Has bn) : w.price bn = 2 := if_neg h

theorem one_le_price : 1 ≤ w.price bn := by
  by_cases h : w.Has bn
  · exact (price_of_has h).ge
  · exact (by decide : 1 ≤ 2).trans (price_of_not_has h).ge

theorem price_le_two : w.price bn ≤ 2 := by
  by_cases h : w.Has bn
  · exact (price_of_has h).le.trans (by decide)
  · exact (price_of_not_has h).le

theorem card_le_due : L.card ≤ w.due L := Nat.le_add_right ..

theorem due_le : w.due L ≤ L.card + 2 := by
  unfold due
  split <;> omega

theorem due_insert_le : w.due (insert b L) ≤ w.due L + 1 := by
  have hcard := Finset.card_insert_le b L
  unfold due
  split_ifs with hin hin' hin'
  · omega
  · omega
  · exact absurd ⟨hin'.1, Finset.mem_insert_of_mem hin'.2⟩ hin
  · omega

theorem due_congr {w' : Work n} (h : w'.ip.addrs NDIRECT = w.ip.addrs NDIRECT) :
    w'.due L = w.due L := by
  simp only [due, h]

theorem due_of_mem (h0 : w.ip.addrs NDIRECT ≠ 0) (h : w.ip.addrs NDIRECT ∈ L) :
    w.due L = L.card := by
  simp only [due, h0, h, ne_eq, not_false_eq_true, and_self, if_true, Nat.add_zero]

theorem grows_store (hwf : w.Wf) (hbn : bn < NDIRECT) (h0 : w.ip.addrs bn = 0) (hb : b ≠ 0) :
    w.Grows (w.store bn b) bn where
  i := rfl
  wf := by
    refine ⟨?_, fun h => ?_⟩
    · simp only [hbn.ne, if_false]
      exact hwf.lead_le
    · simp only [hbn.ne, if_false] at h
      rw [store_addrs_of_ne hbn.ne']
      exact hwf.ne_zero h
  quiet := trivial
  type := rfl
  size := rfl
  has := by
    rw [has_of_lt hbn, store_addrs_self]
    exact hb
  mono m hm := by
    rcases Nat.lt_or_ge m NDIRECT with hlt | hge
    · rw [has_of_lt hlt] at hm ⊢
      by_cases hmb : m = bn
      · rw [hmb, store_addrs_self]
        exact hb
      · rw [store_addrs_of_ne hmb]
        exact hm
    · rw [has_of_le hge] at hm ⊢
      simpa only [hbn.ne, if_false] using hm
  sync h := absurd h0 ((has_of_lt hbn).1 h)

theorem grows_entry {φ : Phase} (hwf : w.Wf) (ha : w.ip.addrs NDIRECT ≠ 0) (hbn : NDIRECT ≤ bn)
    (hk : bn - NDIRECT < NINDIRECT) (hlead : bn - NDIRECT ≤ w.lead) (hφ : φ.Quiet) :
    w.Grows { w with
      lead := if bn - NDIRECT = w.lead then bn - NDIRECT + 1 else w.lead, phase := φ } bn where
  i := rfl
  wf := by
    refine ⟨?_, fun _ => ha⟩
    have hle := hwf.lead_le
    show (if bn - NDIRECT = w.lead then bn - NDIRECT + 1 else w.lead) ≤ NINDIRECT
    split <;> omega
  quiet := hφ
  type := rfl
  size := rfl
  has := by
    rw [has_of_le hbn]
    show bn - NDIRECT < if bn - NDIRECT = w.lead then bn - NDIRECT + 1 else w.lead
    split <;> omega
  mono m hm := by
    rcases Nat.lt_or_ge m NDIRECT with hlt | hge
    · rw [has_of_lt hlt] at hm ⊢
      exact hm
    · rw [has_of_le hge] at hm ⊢
      show m - NDIRECT < if bn - NDIRECT = w.lead then bn - NDIRECT + 1 else w.lead
      split <;> omega
  sync _ := rfl

end Work

theorem bmapEntry_keeps {Q : ℕ → Ghost n → Prop} {a : ℕ} (ha : w.ip.addrs NDIRECT = a)
    (ha0 : a ≠ 0) (hq : w.phase.Quiet) (hwf : w.Wf) (hbn : NDIRECT ≤ bn)
    (hk : bn - NDIRECT < NINDIRECT) (hlead : bn - NDIRECT ≤ w.lead)
    (hwr : ¬ w.Has bn → wr = true)
    (hroom : ps = true → w.due L + w.price bn ≤ MAXOPBLOCKS)
    (hQ : ∀ b w' L', w.Grows w' bn → w'.Data b → w'.due (insert b L') ≤ w.due L + w.price bn →
      Q b ⟨.work w', wr, ps, L'⟩) :
    Keeps (do
      let e ← call (.word .bmap a (bn - NDIRECT))
      if e = 0 then do
        let b ← balloc sb
        call (.setWord a (bn - NDIRECT) b)
        logWrite a
        return b
      else return e) Q ⟨.work w, wr, ps, L⟩ := by
  subst ha
  refine Task.follows_bind.2 (Task.follows_call.2
    ⟨⟨w, rfl, rfl, ha0, hk, hq⟩, fun r hr => ?_⟩)
  have hr' : bn - NDIRECT < w.lead → r ≠ 0 := hr w rfl
  by_cases h0 : r = 0
  · subst h0
    have hhas : ¬ w.Has bn := fun h => hr' ((Work.has_of_le hbn).1 h) rfl
    rw [Work.price_of_not_has hhas] at hroom hQ
    have hcard : ps = true → L.card + 2 ≤ MAXOPBLOCKS := fun h =>
      (Nat.add_le_add_right Work.card_le_due 2).trans (hroom h)
    rw [if_pos rfl]
    refine Task.follows_bind.2 (ballocFrom_keeps
      (w := { w with phase := .hole (bn - NDIRECT) }) trivial (hwr hhas) hcard ?_ _)
    intro b c hb
    refine Task.follows_bind.2 (Task.follows_call.2
      ⟨⟨_, rfl, rfl, ha0, hk, _, rfl⟩, fun _ _ => ?_⟩)
    -- Logging the indirect block is in what was due.
    have hdue : (insert (w.ip.addrs NDIRECT) (insert b (insert c L))).card ≤ w.due L + 2 := by
      have hc := Finset.card_insert_le c L
      have hb := Finset.card_insert_le b (insert c L)
      by_cases hmem : w.ip.addrs NDIRECT ∈ L
      · rw [Finset.insert_eq_of_mem (Finset.mem_insert_of_mem (Finset.mem_insert_of_mem hmem)),
          Work.due_of_mem ha0 hmem]
        omega
      · have ha := Finset.card_insert_le (w.ip.addrs NDIRECT) (insert b (insert c L))
        have hd : w.due L = L.card + 2 := by simp only [Work.due, hmem, and_false, if_false]
        omega
    refine Task.follows_bind.2 (logWrite_keeps (hwr hhas) (fun h => hdue.trans (hroom h)) ?_)
    have hmem : w.ip.addrs NDIRECT ∈ insert (w.ip.addrs NDIRECT) (insert b (insert c L)) :=
      Finset.mem_insert_self ..
    have hb : insert b (insert (w.ip.addrs NDIRECT) (insert b (insert c L))) =
        insert (w.ip.addrs NDIRECT) (insert b (insert c L)) :=
      Finset.insert_eq_of_mem (Finset.mem_insert_of_mem (Finset.mem_insert_self ..))
    refine hQ b _ (insert (w.ip.addrs NDIRECT) (insert b (insert c L)))
      (Work.grows_entry hwf ha0 hbn hk hlead trivial) (.inl rfl) ?_
    rw [hb]
    exact (Work.due_of_mem ha0 hmem).trans_le hdue
  · rw [if_neg h0]
    have hnext : w.next (.word .bmap (w.ip.addrs NDIRECT) (bn - NDIRECT)) r =
        { w with
          lead := if bn - NDIRECT = w.lead then bn - NDIRECT + 1 else w.lead, phase := .seen r } :=
      if_neg h0
    show Q r ⟨.work (w.next (.word .bmap _ (bn - NDIRECT)) r), wr, ps, L⟩
    rw [hnext]
    refine hQ r _ L (Work.grows_entry hwf ha0 hbn hk hlead trivial) (.inl rfl) ?_
    exact Work.due_insert_le.trans (Nat.add_le_add_left Work.one_le_price _)

theorem bmap_keeps {Q : ℕ → Ghost n → Prop} (hi : w.i = i) (hq : w.phase.Quiet) (hwf : w.Wf)
    (hbn : w.Has bn ∨ wr = true ∧ bn < MAXFILE ∧ bn ≤ NDIRECT + w.lead)
    (hroom : ps = true → w.due L + w.price bn ≤ MAXOPBLOCKS)
    (hQ : ∀ b w' L', w.Grows w' bn → w'.Data b → w'.due (insert b L') ≤ w.due L + w.price bn →
      Q b ⟨.work w', wr, ps, L'⟩) :
    Keeps (bmap sb i bn) Q ⟨.work w, wr, ps, L⟩ := by
  have hwr : ¬ w.Has bn → wr = true := fun h => (hbn.resolve_left h).1
  unfold bmap
  by_cases hlt : bn < NDIRECT
  · rw [if_pos hlt]
    have hhas : w.Has bn ↔ w.ip.addrs bn ≠ 0 := Work.has_of_lt hlt
    refine bmapAddr_keeps hi hq hlt.le (fun h0 => hwr fun h => hhas.1 h h0) (fun h h0 => ?_)
      (fun h0 => ?_) (fun h0 b c hb => ?_)
    · have hroom := hroom h
      rw [Work.price_of_not_has fun h => hhas.1 h h0] at hroom
      exact (Nat.add_le_add_right Work.card_le_due 2).trans hroom
    · refine hQ _ w L ⟨rfl, hwf, hq, rfl, rfl, hhas.2 h0, fun _ => id, fun _ => rfl⟩
        (.inr ⟨bn, hlt, rfl, h0⟩) ?_
      rw [Work.price_of_has (hhas.2 h0)]
      exact Work.due_insert_le
    · refine hQ b _ _ (Work.grows_store hwf hlt h0 hb)
        (.inr ⟨bn, hlt, Work.store_addrs_self, hb⟩) ?_
      rw [Work.price_of_not_has fun h => hhas.1 h h0, Finset.insert_idem,
        Work.due_congr (w := w) (Work.store_addrs_of_ne hlt.ne')]
      exact Work.due_insert_le.trans (Nat.add_le_add_right Work.due_insert_le 1)
  · have hge : NDIRECT ≤ bn := Nat.not_lt.1 hlt
    have hhas : w.Has bn ↔ bn - NDIRECT < w.lead := Work.has_of_le hge
    have hlead : bn - NDIRECT ≤ w.lead := by
      rcases hbn with h | ⟨-, -, h⟩
      · exact (hhas.1 h).le
      · omega
    have hk : bn - NDIRECT < NINDIRECT := by
      rcases hbn with h | ⟨-, h, -⟩
      · exact (hhas.1 h).trans_le hwf.lead_le
      · have : MAXFILE = NDIRECT + NINDIRECT := rfl
        omega
    rw [if_neg hlt, if_pos hk]
    -- If there is no indirect block, nothing is known of its entries.
    have hnot : w.ip.addrs NDIRECT = 0 → w.lead = 0 := fun h0 =>
      Nat.eq_zero_of_not_pos fun h => hwf.ne_zero h h0
    have hnone : w.ip.addrs NDIRECT = 0 → ¬ w.Has bn := fun h0 h => by
      have := hhas.1 h
      have := hnot h0
      omega
    refine Task.follows_bind.2 (bmapAddr_keeps hi hq le_rfl (fun h0 => hwr (hnone h0))
      (fun h h0 => ?_) (fun h0 => ?_) (fun h0 a c ha => ?_))
    · have hroom := hroom h
      rw [Work.price_of_not_has (hnone h0)] at hroom
      exact (Nat.add_le_add_right Work.card_le_due 2).trans hroom
    · exact bmapEntry_keeps rfl h0 hq hwf hge hk hlead hwr hroom hQ
    · have hlead0 : w.lead = 0 := hnot h0
      have hstore : (w.store NDIRECT a).lead = 0 := Work.store_lead
      have hwf' : (w.store NDIRECT a).Wf := by
        refine ⟨hstore.trans_le (Nat.zero_le _), fun h => ?_⟩
        rw [hstore] at h
        exact absurd h (lt_irrefl 0)
      have hmono : ∀ m, w.Has m → (w.store NDIRECT a).Has m := by
        intro m hm
        rcases Nat.lt_or_ge m NDIRECT with hmlt | hmge
        · rw [Work.has_of_lt hmlt] at hm ⊢
          rw [Work.store_addrs_of_ne hmlt.ne]
          exact hm
        · rw [Work.has_of_le hmge, hlead0] at hm
          exact absurd hm (Nat.not_lt_zero _)
      have hnone' : ¬ (w.store NDIRECT a).Has bn := by
        rw [Work.has_of_le hge, hstore]
        exact Nat.not_lt_zero _
      have hprice : (w.store NDIRECT a).price bn = w.price bn := by
        rw [Work.price_of_not_has hnone', Work.price_of_not_has (hnone h0)]
      -- The indirect block and its bitmap block are what was due.
      have hdue : (w.store NDIRECT a).due (insert a (insert c L)) ≤ w.due L := by
        have hmem : (w.store NDIRECT a).ip.addrs NDIRECT ∈ insert a (insert c L) := by
          rw [Work.store_addrs_self]
          exact Finset.mem_insert_self ..
        have hd : w.due L = L.card + 2 := by simp [Work.due, h0]
        have hc := Finset.card_insert_le c L
        have ha' := Finset.card_insert_le a (insert c L)
        rw [Work.due_of_mem (by rwa [Work.store_addrs_self]) hmem]
        omega
      refine bmapEntry_keeps (w := w.store NDIRECT a) Work.store_addrs_self ha trivial hwf' hge hk
        (by rw [hstore]; omega) (fun _ => hwr (hnone h0)) (fun h => ?_) ?_
      · rw [hprice]
        exact (Nat.add_le_add_right hdue _).trans (hroom h)
      · intro b w' L' hgrows hdata hdue'
        rw [hprice] at hdue'
        exact hQ b w' L' ⟨hgrows.i, hgrows.wf, hgrows.quiet, hgrows.type, hgrows.size, hgrows.has,
          fun m hm => hgrows.mono m (hmono m hm), fun h => absurd h (hnone h0)⟩ hdata
          (hdue'.trans (Nat.add_le_add_right hdue _))

/-! ## Contents -/

theorem chunk_pos (off : ℕ) {left : ℕ} (h : left ≠ 0) : 0 < chunk off left := by
  have : off % BSIZE < BSIZE := Nat.mod_lt _ (by decide)
  unfold chunk
  omega

theorem chunk_le (off left : ℕ) : chunk off left ≤ left := Nat.min_le_left ..

theorem chunk_le_block (off left : ℕ) : off + chunk off left ≤ (off / BSIZE + 1) * BSIZE := by
  have h : chunk off left ≤ BSIZE - off % BSIZE := Nat.min_le_right ..
  have hdiv := Nat.div_add_mod off BSIZE
  have hmod : off % BSIZE < BSIZE := Nat.mod_lt _ (by decide)
  rw [Nat.add_mul, Nat.one_mul, Nat.mul_comm]
  omega

theorem div_mul_le (off : ℕ) : off / BSIZE * BSIZE ≤ off := Nat.div_mul_le_self ..

theorem readLoop_keeps {Q : List Byte → Ghost n → Prop} {fuel : ℕ} :
    ∀ {w : Work n} {L : Finset ℕ} {off left : ℕ}, w.i = i → w.phase.Quiet → w.Wf →
      w.sync = true → w.Covers w.ip.size → off + left ≤ w.ip.size →
      (∀ bs w' L', w'.i = i → w'.Clean → Q bs ⟨.work w', wr, false, L'⟩) →
      Keeps (readLoop sb i fuel off left) Q ⟨.work w, wr, false, L⟩ := by
  induction fuel generalizing Q with
  | zero =>
    intro w L off left hi hq _ hsync hcov _ hQ
    exact hQ [] w L hi ⟨hq, hsync, fun _ => hcov⟩
  | succ fuel ih =>
    intro w L off left hi hq hwf hsync hcov hle hQ
    unfold readLoop
    by_cases h0 : left = 0
    · rw [if_pos h0]
      exact hQ [] w L hi ⟨hq, hsync, fun _ => hcov⟩
    · rw [if_neg h0]
      have hhas : w.Has (off / BSIZE) := hcov _ ((div_mul_le off).trans_lt (by omega))
      refine Task.follows_bind.2 (bmap_keeps hi hq hwf (.inl hhas) nofun ?_)
      intro b w' L' hgrows _ _
      refine Task.follows_bind.2 (Task.follows_call.2 ⟨⟨w', rfl, trivial⟩, fun bs _ => ?_⟩)
      have hcov' : w'.Covers w'.ip.size := fun m hm => hgrows.mono m (hcov m (hgrows.size ▸ hm))
      have hle' : off + chunk off left + (left - chunk off left) ≤ w'.ip.size := by
        have := chunk_le off left
        rw [hgrows.size]
        omega
      refine Task.follows_bind.2 (ih (hgrows.i.trans hi) hgrows.quiet hgrows.wf
        ((hgrows.sync hhas).trans hsync) hcov' hle' fun rest w'' L'' hi'' hclean => ?_)
      exact hQ (bs ++ rest) w'' L'' hi'' hclean

def passes (off left : ℕ) : ℕ :=
  if left = 0 then 0
  else if off % BSIZE = 0 then 2 * ((left + 511) / 512)
  else 1 + 2 * ((left - (BSIZE - off % BSIZE) + 511) / 512)

theorem passes_step (off : ℕ) {left : ℕ} (h : left ≠ 0) :
    passes (off + chunk off left) (left - chunk off left) +
      (if off % BSIZE = 0 then 2 else 1) ≤ passes off left := by
  have hb : BSIZE = 512 := rfl
  have hmod : off % 512 < 512 := Nat.mod_lt _ (by decide)
  simp only [passes, chunk, hb]
  rcases Nat.le_total left (512 - off % 512) with hle | hle
  · rw [Nat.min_eq_left hle]
    split_ifs <;> omega
  · rw [Nat.min_eq_right hle]
    split_ifs <;> omega

theorem passes_le (off : ℕ) {left : ℕ} (h : left ≤ maxChunk) : passes off left ≤ 7 := by
  have hb : BSIZE = 512 := rfl
  have hm : maxChunk = 1536 := rfl
  have hmod : off % 512 < 512 := Nat.mod_lt _ (by decide)
  simp only [passes, hb]
  split_ifs <;> omega

/-- Where the process is after it has written up to `off`. -/
structure Work.Written (w : Work n) (i : Fin n) (ip : Dinode) (off : ℕ) : Prop where
  i : w.i = i
  quiet : w.phase.Quiet
  wf : w.Wf
  type : w.ip.type = ip.type
  size : w.ip.size = ip.size
  covers : w.Covers off
  covers_size : w.Covers ip.size
  sync : w.sync = true ∨ ip.size < off

theorem Work.Written.grows {w w' : Work n} {ip : Dinode} {off left : ℕ} (h : w.Written i ip off)
    (h0 : left ≠ 0) (hg : w.Grows w' (off / BSIZE)) : w'.Written i ip (off + chunk off left) where
  i := hg.i.trans h.i
  quiet := hg.quiet
  wf := hg.wf
  type := hg.type.trans h.type
  size := hg.size.trans h.size
  covers m hm := by
    by_cases hmo : m * BSIZE < off
    · exact hg.mono m (h.covers m hmo)
    · have hb : BSIZE = 512 := rfl
      have hup := chunk_le_block off left
      have hlow := div_mul_le off
      have hmeq : m = off / BSIZE := by
        rw [hb] at hm hmo hup hlow ⊢
        omega
      rw [hmeq]
      exact hg.has
  covers_size m hm := hg.mono m (h.covers_size m hm)
  sync := by
    have hpos := chunk_pos off h0
    by_cases hhas : w.Has (off / BSIZE)
    · rcases h.sync with hs | hs
      · exact .inl ((hg.sync hhas).trans hs)
      · exact .inr (hs.trans (Nat.lt_add_of_pos_right hpos))
    · have hge : ip.size ≤ off / BSIZE * BSIZE :=
        Nat.not_lt.1 fun hlt => hhas (h.covers_size _ hlt)
      exact .inr ((hge.trans (div_mul_le off)).trans_lt (Nat.lt_add_of_pos_right hpos))

theorem Work.Written.next_block {ip : Dinode} {off : ℕ} (h : w.Written i ip off)
    (hmax : off < MAXFILE * BSIZE) :
    w.Has (off / BSIZE) ∨ off / BSIZE < MAXFILE ∧ off / BSIZE ≤ NDIRECT + w.lead := by
  refine or_iff_not_imp_left.2 fun hhas => ⟨Nat.div_lt_of_lt_mul (by rwa [Nat.mul_comm]), ?_⟩
  by_contra hgt
  have hge : NDIRECT ≤ off / BSIZE - 1 := by omega
  have hprev : w.Has (off / BSIZE - 1) := by
    refine h.covers _ ?_
    have hlow := div_mul_le off
    have hb : BSIZE = 512 := rfl
    have hd : NDIRECT = 12 := rfl
    rw [hb] at hlow hge ⊢
    omega
  have := (Work.has_of_le hge).1 hprev
  omega

theorem writeLoop_keeps {Q : Unit → Ghost n → Prop} {ip : Dinode} {fuel : ℕ} (hwr : wr = true) :
    ∀ {w : Work n} {L : Finset ℕ} {off : ℕ} {src : List Byte}, w.Written i ip off →
      off + src.length ≤ MAXFILE * BSIZE → src.length ≤ fuel →
      (ps = true → w.due L + passes off src.length + 1 ≤ MAXOPBLOCKS) →
      (∀ w' L', w'.Written i ip (off + src.length) → (ps = true → w'.due L' + 1 ≤ MAXOPBLOCKS) →
        Q () ⟨.work w', wr, ps, L'⟩) →
      Keeps (writeLoop sb i fuel off src) Q ⟨.work w, wr, ps, L⟩ := by
  induction fuel with
  | zero =>
    intro w L off src hw _ hfuel hroom hQ
    have h0 : src.length = 0 := Nat.le_zero.1 hfuel
    rw [h0] at hQ hroom
    exact hQ w L hw fun h => (hroom h).trans' (by simp [passes])
  | succ fuel ih =>
    intro w L off src hw hmax hfuel hroom hQ
    unfold writeLoop
    by_cases h0 : src = []
    · subst h0
      rw [if_pos rfl]
      exact hQ w L hw fun h => (hroom h).trans' (by simp [passes])
    · rw [if_neg h0]
      have hlen : src.length ≠ 0 := fun h => h0 (List.length_eq_zero_iff.1 h)
      have hpos := chunk_pos off hlen
      have hle := chunk_le off src.length
      have hprice : w.price (off / BSIZE) ≤ if off % BSIZE = 0 then 2 else 1 := by
        split
        · exact Work.price_le_two
        · refine (Work.price_of_has (hw.covers _ ?_)).le
          have := Nat.div_add_mod off BSIZE
          rw [Nat.mul_comm] at this
          omega
      have hstep := passes_step off hlen
      refine Task.follows_bind.2 (bmap_keeps hw.i hw.quiet hw.wf
        ((hw.next_block (by omega)).imp_right fun h => ⟨hwr, h⟩)
        (fun h => by have := hroom h; omega) ?_)
      intro b w' L' hgrows hdata hdue
      refine Task.follows_bind.2 (Task.follows_call.2
        ⟨⟨w', rfl, hgrows.quiet, hdata⟩, fun _ _ => ?_⟩)
      refine Task.follows_bind.2 (logWrite_keeps hwr (fun h => ?_) ?_)
      · have := hroom h
        exact Work.card_le_due.trans (hdue.trans (by omega))
      · have hsum : off + chunk off src.length + (src.drop (chunk off src.length)).length =
            off + src.length := by
          rw [List.length_drop]
          omega
        refine ih (hw.grows hlen hgrows) (by rwa [hsum]) (by rw [List.length_drop]; omega)
          (fun h => ?_) (by rwa [hsum])
        rw [List.length_drop]
        have := hroom h
        exact (Nat.add_le_add_right (Nat.add_le_add_right hdue _) 1).trans (by omega)

theorem readi_keeps {Q : Option (List Byte) → Ghost n → Prop} {off len : ℕ} (hi : w.i = i)
    (hwf : w.Wf) (hclean : w.Clean)
    (hQ : ∀ r w' L', w'.i = i → w'.Clean → Q r ⟨.work w', wr, false, L'⟩) :
    Keeps (readi sb i off len) Q ⟨.work w, wr, false, L⟩ := by
  unfold readi
  refine Task.follows_bind.2 (Task.follows_call.2 ⟨.inr ⟨w, rfl, hi⟩, fun r hr => ?_⟩)
  obtain rfl : r = w.ip := hr
  split_ifs with hdev hoff
  · exact hQ none w L hi hclean
  · exact hQ none w L hi hclean
  · refine Task.follows_bind.2 (readLoop_keeps hi hclean.1 hwf hclean.2.1 (hclean.2.2 hdev) ?_ ?_)
    · omega
    · exact fun bs w' L' hi' hclean' => hQ (some bs) w' L' hi' hclean'
  · refine Task.follows_bind.2 (readLoop_keeps hi hclean.1 hwf hclean.2.1 (hclean.2.2 hdev) ?_ ?_)
    · omega
    · exact fun bs w' L' hi' hclean' => hQ (some bs) w' L' hi' hclean'

theorem writei_keeps {Q : Option ℕ → Ghost n → Prop} {src : List Byte} {off : ℕ} (hi : w.i = i)
    (hwf : w.Wf) (hclean : w.Clean) (hwr : wr = true)
    (hpass : ps = true → L = ∅ ∧ src.length ≤ maxChunk)
    (hQ : ∀ r w' L', w'.i = i → w'.Clean → Q r ⟨.work w', wr, ps, L'⟩) :
    Keeps (writei sb i src off) Q ⟨.work w, wr, ps, L⟩ := by
  unfold writei
  refine Task.follows_bind.2 (Task.follows_call.2 ⟨.inr ⟨w, rfl, hi⟩, fun r hr => ?_⟩)
  obtain rfl : r = w.ip := hr
  split_ifs with hdev hoff hmax
  · exact hQ none w L hi hclean
  · exact hQ none w L hi hclean
  · exact hQ none w L hi hclean
  · obtain ⟨hq, hsync, hcov⟩ := hclean
    have hle : off ≤ w.ip.size := Nat.not_lt.1 fun h => hoff (.inl h)
    have hw : w.Written i w.ip off :=
      ⟨hi, hq, hwf, rfl, rfl, fun m hm => hcov hdev m (hm.trans_le hle), hcov hdev, .inl hsync⟩
    refine Task.follows_bind.2 (writeLoop_keeps hwr hw (Nat.not_lt.1 hmax) le_rfl (fun h => ?_) ?_)
    · obtain ⟨rfl, hsrc⟩ := hpass h
      have := passes_le off hsrc
      have := w.due_le (L := ∅)
      rw [Finset.card_empty] at this
      have hmax : MAXOPBLOCKS = 10 := rfl
      omega
    · intro w' L' hw' hroom
      refine Task.follows_bind.2 (Task.follows_call.2
        ⟨.inr ⟨w', rfl, hw'.i⟩, fun r hr => ?_⟩)
      obtain rfl : r = w'.ip := hr
      by_cases hext : 0 < src.length ∧ w'.ip.size < off + src.length
      · rw [if_pos hext]
        refine Task.follows_bind.2 (Task.follows_call.2
          ⟨⟨w', rfl, hw'.i.symm, hw'.quiet, hw'.covers⟩, fun _ _ => ?_⟩)
        refine Task.follows_bind.2 (iupdate_keeps (w := w'.next (.setSize i (off + src.length)) ())
          hw'.i hw'.quiet hwr
          (fun h => (Nat.add_le_add_right Work.card_le_due 1).trans (hroom h)) fun L'' => ?_)
        exact hQ _ _ _ hw'.i ⟨hw'.quiet, rfl, fun _ => hw'.covers⟩
      · rw [if_neg hext]
        -- Whatever was allocated is past the old end.
        have hsync' : w'.sync = true := by
          refine hw'.sync.resolve_right fun hlt => hext ⟨?_, hw'.size ▸ hlt⟩
          omega
        exact hQ _ _ _ hw'.i ⟨hw'.quiet, hsync', fun _ => hw'.size ▸ hw'.covers_size⟩

/-! ## Freeing -/

theorem truncDirect_keeps {Q : Unit → Ghost n → Prop} (hwr : wr = true) (ks : List ℕ) :
    ∀ {w : Work n} {L : Finset ℕ}, w.i = i → w.phase.Quiet → (∀ k ∈ ks, k < NDIRECT) →
      (∀ w' L', w'.i = i → w'.phase.Quiet → (∀ k, k ∈ ks ∨ w.ip.addrs k = 0 → w'.ip.addrs k = 0) →
        Q () ⟨.work w', wr, false, L'⟩) →
      Keeps (truncDirect sb i ks) Q ⟨.work w, wr, false, L⟩ := by
  induction ks with
  | nil =>
    intro w L hi hq _ hQ
    exact hQ w L hi hq fun k hk => hk.resolve_left (List.not_mem_nil)
  | cons k ks ih =>
    intro w L hi hq hks hQ
    have hk : k < NDIRECT := hks k (List.mem_cons_self ..)
    have hks' : ∀ k ∈ ks, k < NDIRECT := fun l hl => hks l (List.mem_cons_of_mem _ hl)
    unfold truncDirect
    refine Task.follows_bind.2 (Task.follows_call.2 ⟨.inr ⟨w, rfl, hi⟩, fun r hr => ?_⟩)
    obtain rfl : r = w.ip := hr
    by_cases h0 : w.ip.addrs k = 0
    · rw [if_neg (not_not.2 h0)]
      refine ih hi hq hks' fun w' L' hi' hq' hzero => hQ w' L' hi' hq' fun l hl => ?_
      rcases hl with hl | hl
      · rcases List.mem_cons.1 hl with rfl | hl
        · exact hzero _ (.inr h0)
        · exact hzero l (.inl hl)
      · exact hzero l (.inr hl)
    · rw [if_pos h0]
      refine Task.follows_bind.2 (bfree_keeps hwr ⟨rfl, h0, .inl ⟨hk, hq⟩⟩ fun L' => ?_)
      refine Task.follows_bind.2 (Task.follows_call.2
        ⟨⟨_, rfl, hi.symm, hk.le, .inr ⟨rfl, rfl⟩⟩, fun _ _ => ?_⟩)
      let v : Work n := { w with lead := 0, phase := .gone k }
      refine ih (w := v.store k 0) hi trivial hks'
        fun w' L' hi' hq' hzero => hQ w' L' hi' hq' fun l hl => ?_
      by_cases hlk : l = k
      · rw [hlk]
        exact hzero k (.inr Work.store_addrs_self)
      · rcases hl with hl | hl
        · exact hzero l (.inl ((List.mem_cons.1 hl).resolve_left hlk))
        · exact hzero l (.inr ((Work.store_addrs_of_ne hlk).trans hl))

theorem truncIndirect_keeps {Q : Unit → Ghost n → Prop} (hwr : wr = true) {m : ℕ} :
    ∀ {j : ℕ} {w : Work n} {L : Finset ℕ}, w.ip.addrs NDIRECT ≠ 0 → j + m = NINDIRECT →
      (j = 0 ∧ w.phase.Quiet ∨ w.phase = .cut j) →
      (∀ φ l L', (m ≠ 0 ∨ w.phase = .cut j → φ = .cut NINDIRECT) →
        Q () ⟨.work { w with lead := l, phase := φ }, wr, false, L'⟩) →
      Keeps (truncIndirect sb (w.ip.addrs NDIRECT) (List.range' j m)) Q
        ⟨.work w, wr, false, L⟩ := by
  induction m with
  | zero =>
    intro j w L _ hj hφ hQ
    refine hQ w.phase w.lead L fun h => ?_
    rw [h.resolve_left (fun h => h rfl), ← hj, Nat.add_zero]
  | succ m ih =>
    intro j w L ha hj hφ hQ
    rw [List.range'_succ]
    unfold truncIndirect
    refine Task.follows_bind.2 (Task.follows_call.2
      ⟨⟨w, rfl, rfl, ha, by omega, hφ⟩, fun e _ => ?_⟩)
    -- In both cases the first `j + 1` entries are done with.
    have hrest : ∀ L', Keeps (truncIndirect sb (w.ip.addrs NDIRECT) (List.range' (j + 1) m)) Q
        ⟨.work { w with lead := 0, phase := .cut (j + 1) }, wr, false, L'⟩ := fun L' =>
      ih (w := { w with lead := 0, phase := .cut (j + 1) }) ha (by omega) (.inr rfl)
        fun φ l L'' hφ' => hQ φ l L'' fun _ => hφ' (.inr rfl)
    have hnext : w.next (.word .itrunc (w.ip.addrs NDIRECT) j) e =
        { w with lead := 0, phase := if e = 0 then .cut (j + 1) else .entry j e } := rfl
    by_cases h0 : e = 0
    · rw [if_neg (not_not.2 h0)]
      have := hrest L
      rw [if_pos h0] at hnext
      show Keeps _ Q ⟨.work (w.next _ e), wr, false, L⟩
      rw [hnext]
      exact this
    · rw [if_pos h0]
      rw [if_neg h0] at hnext
      refine Task.follows_bind.2 ?_
      show Keeps _ _ ⟨.work (w.next _ e), wr, false, L⟩
      rw [hnext]
      exact bfree_keeps hwr rfl hrest

theorem itrunc_keeps {Q : Unit → Ghost n → Prop} (hi : w.i = i) (hq : w.phase.Quiet)
    (hwr : wr = true)
    (hQ : ∀ w' L', w'.i = i → w'.phase.Quiet → (∀ k ≤ NDIRECT, w'.ip.addrs k = 0) →
      Q () ⟨.work w', wr, false, L'⟩) :
    Keeps (itrunc sb i) Q ⟨.work w, wr, false, L⟩ := by
  -- The end of it, whether there was an indirect block or not.
  have hend : ∀ w' L', w'.i = i → w'.phase.Quiet → (∀ k ≤ NDIRECT, w'.ip.addrs k = 0) →
      Keeps (do
        call (.setSize i 0)
        iupdate sb i) Q ⟨.work w', wr, false, L'⟩ := by
    intro w' L' hi' hq' hzero
    refine Task.follows_bind.2 (Task.follows_call.2
      ⟨⟨w', rfl, hi'.symm, hq', fun bn h => absurd h (Nat.not_lt_zero _)⟩, fun _ _ => ?_⟩)
    exact iupdate_keeps (w := w'.next (.setSize i 0) ()) hi' hq' hwr nofun
      fun L'' => hQ _ L'' hi' hq' hzero
  unfold itrunc
  refine Task.follows_bind.2 (truncDirect_keeps hwr _ hi hq (fun k hk => List.mem_range.1 hk) ?_)
  intro w₁ L₁ hi₁ hq₁ hzero₁
  have hdirect : ∀ k < NDIRECT, w₁.ip.addrs k = 0 := fun k hk =>
    hzero₁ k (.inl (List.mem_range.2 hk))
  refine Task.follows_bind.2 (Task.follows_call.2 ⟨.inr ⟨w₁, rfl, hi₁⟩, fun r hr => ?_⟩)
  obtain rfl : r = w₁.ip := hr
  by_cases h0 : w₁.ip.addrs NDIRECT = 0
  · rw [if_neg (not_not.2 h0)]
    refine hend w₁ L₁ hi₁ hq₁ fun k hk => ?_
    rcases hk.lt_or_eq with hk | rfl
    · exact hdirect k hk
    · exact h0
  · rw [if_pos h0, List.range_eq_range']
    refine Task.follows_bind.2 (truncIndirect_keeps hwr h0 (Nat.zero_add _) (.inl ⟨rfl, hq₁⟩) ?_)
    intro φ l L₂ hφ
    obtain rfl := hφ (.inl (by decide))
    refine Task.follows_bind.2 (bfree_keeps hwr ⟨rfl, h0, .inr ⟨rfl, rfl⟩⟩ fun L₃ => ?_)
    refine Task.follows_bind.2 (Task.follows_call.2
      ⟨⟨_, rfl, hi₁.symm, le_rfl, .inr ⟨rfl, rfl⟩⟩, fun _ _ => ?_⟩)
    refine hend (w₁.store NDIRECT 0) L₃ hi₁ trivial fun k hk => ?_
    rcases hk.lt_or_eq with hk | rfl
    · exact (Work.store_addrs_of_ne hk.ne).trans (hdirect k hk)
    · exact Work.store_addrs_self

/-! ## The calls -/

abbrev Told (ip : Dinode) : Prop :=
  ip.type ≠ .free ∧ (ip.type ≠ .dev → ∀ bn, bn * BSIZE < ip.size →
    bn < MAXFILE ∧ (bn < NDIRECT → ip.addrs bn ≠ 0) ∧ (NDIRECT ≤ bn → ip.addrs NDIRECT ≠ 0))

theorem keeps_of_held {Q : α → Ghost n → Prop} {p : Sys n α} {k : Dinode → Sys n α}
    (hp : p = .op (.inode i) k)
    (h : ∀ ip, Told ip → Keeps p Q ⟨.work (.start i ip), wr, ps, L⟩) :
    Keeps p Q ⟨.held i, wr, ps, L⟩ := by
  subst hp
  exact ⟨.inl rfl, fun r hr => (h r hr).2 r rfl⟩

namespace Work

theorem start_wf {ip : Dinode} (h : Told ip) : (start i ip).Wf := by
  have hb : BSIZE = 512 := rfl
  have hd : NDIRECT = 12 := rfl
  have hm : MAXFILE = 140 := rfl
  have hn : NINDIRECT = 128 := rfl
  by_cases hdev : ip.type = .dev
  · have hlead : (start i ip).lead = 0 := if_pos hdev
    refine ⟨hlead.trans_le (Nat.zero_le _), fun hpos => ?_⟩
    rw [hlead] at hpos
    exact absurd hpos (lt_irrefl 0)
  · have hlead : (start i ip).lead = (ip.size + BSIZE - 1) / BSIZE - NDIRECT := if_neg hdev
    refine ⟨?_, fun hpos => ?_⟩
    · by_contra hgt
      have := (h.2 hdev MAXFILE (by rw [hb, hm]; rw [hlead, hb, hd, hn] at hgt; omega)).1
      exact lt_irrefl _ this
    · refine (h.2 hdev NDIRECT ?_).2.2 le_rfl
      rw [hlead, hb, hd] at hpos
      rw [hb, hd]
      omega

theorem start_clean {ip : Dinode} (h : Told ip) : (start i ip).Clean := by
  refine ⟨trivial, rfl, fun hdev bn hbn => ?_⟩
  have hlead : (start i ip).lead = (ip.size + BSIZE - 1) / BSIZE - NDIRECT := if_neg hdev
  rcases Nat.lt_or_ge bn NDIRECT with hlt | hge
  · exact (has_of_lt hlt).2 ((h.2 hdev bn hbn).2.1 hlt)
  · rw [has_of_le hge, hlead]
    have hb : BSIZE = 512 := rfl
    have hbn : bn * BSIZE < ip.size := hbn
    rw [hb] at hbn ⊢
    omega

end Work

theorem ilock_keeps {Q : Unit → Ghost n → Prop} (hQ : Q () ⟨.held i, wr, ps, L⟩) :
    Keeps (ilock i) Q ⟨.idle, wr, ps, L⟩ := by
  unfold ilock
  refine Task.follows_bind.2 (Task.follows_call.2 ⟨rfl, fun _ _ => ?_⟩)
  refine Task.follows_bind.2 (Task.follows_call.2 ⟨rfl, fun r _ => ?_⟩)
  refine keeps_panicUnless (.inr ⟨by decide, by decide, by decide⟩) fun hr => ?_
  subst hr
  exact hQ

theorem iput_keeps {Q : Unit → Ghost n → Prop} {unused : Bool} (hwr : wr = true)
    (hQ : ∀ L, Q () ⟨.idle, wr, false, L⟩) :
    Keeps (iput sb i unused) Q ⟨.idle, wr, false, L⟩ := by
  unfold iput
  refine Task.follows_bind.2 (Task.follows_call.2 ⟨rfl, fun _ _ => ?_⟩)
  refine Task.follows_bind.2 (Task.follows_call.2 ⟨rfl, fun r _ => ?_⟩)
  by_cases hfree : r = true ∧ unused = true
  · obtain ⟨rfl, rfl⟩ := hfree
    rw [if_pos ⟨rfl, rfl⟩]
    show Keeps _ Q ⟨.held i, wr, false, L⟩
    refine Task.follows_bind.2 (keeps_of_held rfl fun ip _ => ?_)
    refine itrunc_keeps (w := .start i ip) rfl trivial hwr fun w L' hi hq hzero => ?_
    refine Task.follows_bind.2 (Task.follows_call.2 ⟨⟨w, rfl, hi.symm, hq, hzero⟩, fun _ _ => ?_⟩)
    refine Task.follows_bind.2 (logWrite_keeps hwr nofun ?_)
    exact Task.follows_call.2 ⟨.inl rfl, fun _ _ => hQ _⟩
  · rw [if_neg hfree]
    cases r with
    | true => exact Task.follows_call.2 ⟨.inr (.inl rfl), fun _ _ => hQ _⟩
    | false => exact Task.follows_call.2 ⟨.inl rfl, fun _ _ => hQ _⟩

theorem iallocFrom_keeps {Q : Unit → Ghost n → Prop} {type : Itype} (hwr : wr = true)
    (hQ : ∀ L, Q () ⟨.idle, wr, false, L⟩) (is : List (Fin n)) :
    Keeps (iallocFrom sb type is) Q ⟨.idle, wr, false, L⟩ := by
  induction is with
  | nil => exact ⟨by decide, by decide, by decide⟩
  | cons i is ih =>
    unfold iallocFrom
    refine Task.follows_bind.2 (Task.follows_call.2 ⟨⟨rfl, hwr⟩, fun r _ => ?_⟩)
    cases r with
    | true => exact logWrite_keeps hwr nofun (hQ _)
    | false => exact ih

theorem filewriteChunk_keeps {Q : Option ℕ → Ghost n → Prop} {f : ℕ} {src : List Byte}
    {g : Ghost n} (hg : g.stage = .idle) (hsrc : src.length ≤ maxChunk)
    (hQ : ∀ r L, Q r ⟨.idle, false, false, L⟩) : Keeps (filewriteChunk sb f i src) Q g := by
  obtain ⟨stage, wr, ps, L⟩ := g
  obtain rfl : stage = .idle := hg
  -- The end, once the offset has been moved or not.
  have hend : ∀ r w L', w.i = i → w.Clean →
      Keeps (do
        call (.releasesleep i)
        call .endOp
        return r) Q ⟨.work w, true, true, L'⟩ := by
    intro r w L' hi hclean
    refine Task.follows_bind.2 (Task.follows_call.2 ⟨.inr (.inr ⟨w, rfl, hi, hclean⟩), fun _ _ => ?_⟩)
    exact Task.follows_bind.2 (Task.follows_call.2 ⟨rfl, fun _ _ => hQ r L'⟩)
  unfold filewriteChunk
  refine Task.follows_bind.2 (Task.follows_call.2 ⟨rfl, fun _ _ => ?_⟩)
  refine Task.follows_bind.2 (ilock_keeps ?_)
  refine Task.follows_bind.2 (Task.follows_call.2 ⟨trivial, fun off _ => ?_⟩)
  refine Task.follows_bind.2 (keeps_of_held rfl fun ip htold => ?_)
  refine writei_keeps rfl (Work.start_wf htold) (Work.start_clean htold) rfl
    (fun _ => ⟨rfl, hsrc⟩) fun r w L' hi hclean => ?_
  match r with
  | none => exact hend none w L' hi hclean
  | some 0 => exact hend (some 0) w L' hi hclean
  | some (r + 1) =>
    exact Task.follows_bind.2 (Task.follows_call.2
      ⟨trivial, fun _ _ => hend (some (r + 1)) w L' hi hclean⟩)

theorem filewriteLoop_keeps {Q : Bool → Ghost n → Prop} {f : ℕ} {fuel : ℕ}
    (hQ : ∀ r g, g.stage = .idle → g.pass = false → Q r g) :
    ∀ {src : List Byte} {g : Ghost n}, g.stage = .idle → g.pass = false →
      Keeps (filewriteLoop sb f i fuel src) Q g := by
  induction fuel with
  | zero => exact fun hg hpass => hQ _ _ hg hpass
  | succ fuel ih =>
    intro src g hg hpass
    unfold filewriteLoop
    split
    · exact hQ _ _ hg hpass
    · refine Task.follows_bind.2 (filewriteChunk_keeps hg (List.length_take_le _ _) fun r L => ?_)
      cases r with
      | none => exact hQ _ _ rfl rfl
      | some r =>
        refine Task.follows_bind.2 (keeps_panicUnless (.inr ⟨by decide, by decide, by decide⟩)
          fun _ => ?_)
        exact ih rfl rfl

theorem prog_follows (sb : Super) (c : Call n) :
    (prog sb c).Follows (protocol n) (fun _ => Ghost.Quits) Ghost.rest := by
  have hquits : ∀ {wr L}, Ghost.Quits (n := n) ⟨.idle, wr, false, L⟩ := by
    intro wr L
    exact ⟨rfl, nofun, nofun⟩
  have hwork : ∀ {w : Work n} {wr L}, w.Clean → Ghost.Quits ⟨.work w, wr, false, L⟩ := by
    intro w wr L hclean
    refine ⟨rfl, nofun, fun w' hw' => ?_⟩
    obtain rfl := Stage.work.inj hw'
    exact hclean
  cases c with
  | beginOp => exact Task.follows_call.2 ⟨rfl, fun _ _ => hquits⟩
  | endOp =>
    refine Task.follows_bind.2 (Task.follows_call.2 ⟨rfl, fun _ _ => ?_⟩)
    exact Task.follows_call.2 ⟨rfl, fun _ _ => hquits⟩
  | ilock i => exact ilock_keeps ⟨rfl, nofun, nofun⟩
  | iunlock i =>
    refine Task.follows_bind.2 (Task.follows_call.2 ⟨rfl, fun _ _ => ?_⟩)
    exact Task.follows_call.2 ⟨.inr (.inl rfl), fun _ _ => hquits⟩
  | iput i unused =>
    refine Task.follows_bind.2 (Task.follows_call.2 ⟨rfl, fun _ _ => ?_⟩)
    exact iput_keeps rfl fun L => hquits
  | ialloc type =>
    refine Task.follows_bind.2 (Task.follows_call.2 ⟨rfl, fun _ _ => ?_⟩)
    exact iallocFrom_keeps rfl (fun L => hquits) _
  | evict i => exact Task.follows_call.2 ⟨rfl, fun _ _ => hquits⟩
  | readi i off len =>
    refine Task.follows_bind.2 (Task.follows_call.2 ⟨rfl, fun _ _ => ?_⟩)
    refine Task.follows_bind.2 (keeps_of_held rfl fun ip htold => ?_)
    exact readi_keeps rfl (Work.start_wf htold) (Work.start_clean htold)
      fun r w L _ hclean => hwork hclean
  | writei i src off =>
    refine Task.follows_bind.2 (Task.follows_call.2 ⟨rfl, fun _ _ => ?_⟩)
    refine Task.follows_bind.2 (Task.follows_call.2 ⟨rfl, fun _ _ => ?_⟩)
    refine Task.follows_bind.2 (keeps_of_held rfl fun ip htold => ?_)
    exact writei_keeps rfl (Work.start_wf htold) (Work.start_clean htold) rfl nofun
      fun r w L _ hclean => hwork hclean
  | setNlink i nlink =>
    refine Task.follows_bind.2 (Task.follows_call.2 ⟨rfl, fun _ _ => ?_⟩)
    refine Task.follows_bind.2 (Task.follows_call.2 ⟨rfl, fun _ _ => ?_⟩)
    refine keeps_of_held rfl fun ip htold => ?_
    refine Task.follows_bind.2 (Task.follows_call.2 ⟨.inr ⟨_, rfl, rfl⟩, fun r hr => ?_⟩)
    refine Task.follows_bind.2 (Task.follows_call.2 ⟨⟨_, rfl, rfl, trivial⟩, fun _ _ => ?_⟩)
    exact iupdate_keeps (w := (Work.start i ip).next (.setNlink i nlink) ()) rfl trivial rfl nofun
      fun L => hwork ⟨trivial, rfl, (Work.start_clean htold).2.2⟩
  | filewrite f i src =>
    refine Task.follows_bind.2 (filewriteLoop_keeps (fun r g hg hpass => ?_) rfl rfl)
    obtain ⟨stage, wr, ps, L⟩ := g
    obtain rfl : stage = .idle := hg
    obtain rfl : ps = false := hpass
    exact hquits

end Xv6.Alloc
