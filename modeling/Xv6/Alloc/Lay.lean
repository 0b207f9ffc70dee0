import Xv6.Alloc.Keep

/-!
# Every operation keeps the bitmap exact

The operations that take an inode up, lay it down, or are about inodes that nobody works on, as
instances of `Inv.swap`; and `protocol_keeps`, which puts all operations together.
-/

namespace Xv6.Alloc

open Function
open Fs (BSIZE MAXFILE Itype)

variable {n : ℕ} {ι : Type} {sb : Super} {s : Store n ι} {S : ι → Stage n} {p : ι} {w : Work n}

/-! ## Inodes that nobody works on -/

theorem Inv.swap {s' : Store n ι} {S' : ι → Stage n} (i : Fin n) (h : Inv sb s S)
    (hS : ∀ q v, S' q = .work v ↔ S q = .work v ∧ v.i ≠ i)
    (hquiet : ∀ q v, S q = .work v → v.i = i → v.phase.Quiet)
    (hbits : s'.bits = s.bits) (hblk : s'.blk = s.blk)
    (hother : ∀ j, j ≠ i → s'.mem j = s.mem j ∧ s'.disk j = s.disk j ∧ s'.valid j = s.valid j)
    (hlock : ∀ p j, (S' p).inode = some j → s'.lock j = some p)
    (hvalid : ∀ p j, s'.lock j = some p → s'.valid j = true ∨ S' p = .locking j)
    (href : ∀ pl c, (s'.cur i).Ref s.blk pl c ↔ (s.cur i).Ref s.blk pl c)
    (hrest : s'.valid i = true → s'.mem i = s'.disk i ∧ (s'.disk i).type ≠ .free)
    (hfull : (s'.cur i).Full s.blk) : Inv sb s' S' := by
  have hcur : ∀ j, j ≠ i → s'.cur j = s.cur j := by
    intro j hj
    obtain ⟨hm, hd, hv⟩ := hother j hj
    simp only [Store.cur, hm, hd, hv]
  refine ⟨hlock, hvalid, fun q v hq => ?_, fun j hj => ?_, ?_, fun b hb => ?_⟩
  · obtain ⟨hq, hv⟩ := (hS q v).1 hq
    obtain ⟨hm, hd, -⟩ := hother _ hv
    rw [hm, hd, hblk]
    exact h.work q v hq
  · rw [hblk]
    by_cases hji : j = i
    · rw [hji]
      exact ⟨hrest, hfull⟩
    · obtain ⟨hm, hd, hv⟩ := hother j hji
      rw [hm, hd, hv, hcur j hji]
      refine h.rest j ?_
      rintro ⟨q, v, hq, rfl⟩
      exact hj ⟨q, v, (hS q v).2 ⟨hq, hji⟩, rfl⟩
  · refine h.ledger.congr (Store.inUse_congr hbits) fun o c => ?_
    cases o with
    | fresh q =>
      refine exists_congr fun v => and_congr_left fun hf => ?_
      rw [hS, and_iff_left_of_imp]
      exact fun hq hv => (hquiet q v hq hv).not_fresh c hf
    | place j pl =>
      show _ ∧ _ ↔ _ ∧ _
      have hdrop : Dropped S' j pl ↔ Dropped S j pl := by
        refine exists_congr fun q => exists_congr fun v => ?_
        rw [hS]
        constructor
        · rintro ⟨⟨hq, -⟩, hv, hd⟩
          exact ⟨hq, hv, hd⟩
        · rintro ⟨hq, hv, hd⟩
          exact ⟨⟨hq, fun hi => (hquiet q v hq hi).not_dropped pl hd⟩, hv, hd⟩
      rw [hdrop, hblk]
      refine and_congr_left fun _ => ?_
      by_cases hji : j = i
      · rw [hji, href]
      · rw [hcur j hji]
  · rw [Store.marked, hbits]
    exact h.boot b hb

theorem Inv.not_worked (h : Inv sb s S) {i : Fin n} (hi : s.lock i = none) : ¬ Worked S i := by
  rintro ⟨q, v, hq, rfl⟩
  have hlock := h.lock q v.i (by rw [hq]; rfl)
  rw [hi] at hlock
  cases hlock

theorem Inv.not_worked_of_lock (h : Inv sb s S) {i : Fin n} (hi : s.lock i = some p)
    (hp : ∀ w, S p = .work w → w.i ≠ i) : ¬ Worked S i := by
  rintro ⟨q, v, hq, rfl⟩
  have hlock := h.lock q v.i (by rw [hq]; rfl)
  rw [hi] at hlock
  cases hlock
  exact hp v hq rfl

theorem Dinode.not_ref {x : Dinode} {blk : ℕ → Bytes} {b : ℕ}
    (h : x.type ≠ .free → ∀ k ≤ NDIRECT, x.addrs k = 0) (pl : Place) : ¬ x.Ref blk pl b := by
  cases pl with
  | addr k =>
    rintro ⟨htype, hk, rfl, h0⟩
    exact h0 (h htype k hk)
  | entry j =>
    rintro ⟨htype, -, h0, -⟩
    exact h0 (h htype NDIRECT le_rfl)

theorem Inv.ialloc {i : Fin n} {type : Itype} (h : Inv sb s S) (hfree : (s.disk i).type = .free) :
    Inv sb (s.setDisk i ⟨type, 0, 0, fun _ => 0⟩) S := by
  have hi : ¬ Worked S i := by
    rintro ⟨q, v, hq, rfl⟩
    exact (h.work q v hq).2.1 hfree
  have hv : s.valid i ≠ true := fun hv => ((h.rest i hi).1 hv).2 hfree
  have hcur : s.cur i = s.disk i := if_neg hv
  have hcur' : (s.setDisk i ⟨type, 0, 0, fun _ => 0⟩).cur i = ⟨type, 0, 0, fun _ => 0⟩ :=
    (if_neg hv).trans (update_self ..)
  refine h.swap i (fun q v => ?_) (fun q v hq hv => absurd ⟨q, v, hq, hv⟩ hi) rfl rfl
    (fun j hj => ⟨rfl, update_of_ne hj .., rfl⟩) h.lock h.valid (fun pl c => ?_)
    (fun hv' => absurd hv' hv) ?_
  · exact (and_iff_left_of_imp fun hq hv => hi ⟨q, v, hq, hv⟩).symm
  · rw [hcur, hcur']
    exact iff_of_false (Dinode.not_ref (fun _ _ _ => rfl) pl)
      (Dinode.not_ref (fun h => absurd hfree h) pl)
  · rw [hcur']
    intro _ _ bn hbn
    exact absurd hbn (Nat.not_lt_zero _)

theorem Inv.copy {i : Fin n} {x : Dinode} {v : Bool} (h : Inv sb s S) (hi : ¬ Worked S i)
    (hx : v = true → x = s.disk i ∧ (s.disk i).type ≠ .free)
    (hlock : ∀ q, s.lock i = some q → v = true ∨ S q = .locking i) :
    Inv sb ((s.setMem i x).setValid i v) S := by
  have hcur : ((s.setMem i x).setValid i v).cur i = s.disk i := by
    simp only [Store.cur, Store.setValid, Store.setMem, update_self]
    by_cases hv : v = true
    · rw [if_pos hv]
      exact (hx hv).1
    · rw [if_neg hv]
  have hcur₀ : s.cur i = s.disk i := by
    unfold Store.cur
    split
    · rename_i hv
      exact ((h.rest i hi).1 hv).1
    · rfl
  refine h.swap i (fun q v => ?_) (fun q v hq hv => absurd ⟨q, v, hq, hv⟩ hi) rfl rfl
    (fun j hj => ⟨update_of_ne hj .., rfl, update_of_ne hj ..⟩) h.lock
    (fun q j hq => ?_) (fun pl c => ?_) (fun hv => ?_) ?_
  · exact (and_iff_left_of_imp fun hq hv => hi ⟨q, v, hq, hv⟩).symm
  · show update s.valid i v j = true ∨ _
    by_cases hj : j = i
    · subst hj
      rw [update_self]
      exact hlock q hq
    · rw [update_of_ne hj]
      exact h.valid q j hq
  · rw [hcur, hcur₀]
  · have hv : update s.valid i v i = true := hv
    rw [update_self] at hv
    exact ⟨(update_self ..).trans (hx hv).1, (hx hv).2⟩
  · rw [hcur, ← hcur₀]
    exact (h.rest i hi).2

variable [DecidableEq ι]

theorem update_stage_iff {i : Fin n} {σ : Stage n} (hσ : ∀ w, σ ≠ .work w)
    (hp : ∀ w, S p = .work w → w.i = i) (hi : ∀ q v, S q = .work v → v.i = i → q = p)
    (q : ι) (v : Work n) :
    update S p σ q = .work v ↔ S q = .work v ∧ v.i ≠ i := by
  by_cases hqp : q = p
  · subst hqp
    rw [update_self]
    exact iff_of_false (hσ v) fun hv => hv.2 (hp v hv.1)
  · rw [update_of_ne hqp, and_iff_left_of_imp]
    exact fun hq hv => hqp (hi q v hq hv)

theorem Inv.stage {i : Fin n} {σ : Stage n} {l : Option ι} (h : Inv sb s S)
    (hi : ¬ Worked S i) (hp : ∀ w, S p ≠ .work w) (hσ : ∀ w, σ ≠ .work w)
    (hown : s.lock i = none ∨ s.lock i = some p) (hl : l = none ∨ l = some p)
    (hinode : ∀ j, σ.inode = some j → j = i ∧ l = some p)
    (hvalid : l = some p → s.valid i = true ∨ σ = .locking i)
    (hlocking : ∀ j, S p = .locking j → j = i) :
    Inv sb (s.setLock i l) (update S p σ) := by
  refine h.swap i
    (update_stage_iff hσ (fun w hw => absurd hw (hp w)) fun q v hq hv => absurd ⟨q, v, hq, hv⟩ hi)
    (fun q v hq hv => absurd ⟨q, v, hq, hv⟩ hi) rfl rfl (fun _ _ => ⟨rfl, rfl, rfl⟩)
    (fun q j hq => ?_) (fun q j hq => ?_) (fun _ _ => Iff.rfl) (h.rest i hi).1 (h.rest i hi).2
  · by_cases hqp : q = p
    · subst hqp
      rw [update_self] at hq
      obtain ⟨rfl, rfl⟩ := hinode j hq
      exact update_self ..
    · rw [update_of_ne hqp] at hq
      have hlock := h.lock q j hq
      have hji : j ≠ i := by
        rintro rfl
        rw [hlock] at hown
        exact hown.elim nofun fun heq => hqp (Option.some.inj heq)
      exact (update_of_ne hji ..).trans hlock
  · by_cases hji : j = i
    · subst hji
      have hq : l = some q := by
        have hq : update s.lock j l j = some q := hq
        rwa [update_self] at hq
      have hqp : q = p := by
        rw [hq] at hl
        exact hl.elim nofun Option.some.inj
      rw [hqp, update_self]
      exact hvalid (hqp ▸ hq)
    · have hq : s.lock j = some q := (update_of_ne hji ..).symm.trans hq
      rcases h.valid q j hq with hv | hl'
      · exact .inl hv
      · refine .inr ?_
        have hqp : q ≠ p := by
          rintro rfl
          exact hji (hlocking j hl')
        rw [update_of_ne hqp]
        exact hl'

theorem Inv.lay (h : Inv sb s S) (hp : S p = .work w) (hc : w.Clean) :
    Inv sb s (update S p .idle) := by
  obtain ⟨hm, ht, hs, hknown⟩ := h.work p w hp
  obtain ⟨hq, hsync, hcovers⟩ := hc
  have hv := h.valid_work hp
  have hcur : s.cur w.i = w.ip := (if_pos hv).trans hm
  have hworks : ∀ v, S p = .work v → v = w := fun v hv => (Stage.work.inj (hp.symm.trans hv)).symm
  refine h.swap w.i (update_stage_iff nofun (fun v hv => by rw [hworks v hv])
      fun q v hq hv => h.unique hp hq hv) (fun q v hq' hv => ?_) rfl rfl
    (fun _ _ => ⟨rfl, rfl, rfl⟩) (fun q j hq' => ?_) (fun q j hq' => ?_) (fun _ _ => Iff.rfl)
    (fun _ => ⟨hm.trans (hs hsync).symm, ht⟩) ?_
  · obtain rfl := h.unique hp hq' hv
    rw [hworks v hq']
    exact hq
  · by_cases hqp : q = p
    · rw [hqp, update_self] at hq'
      cases hq'
    · rw [update_of_ne hqp] at hq'
      exact h.lock q j hq'
  · by_cases hqp : q = p
    · subst hqp
      refine .inl ((h.valid q j hq').resolve_right fun hl => ?_)
      rw [hp] at hl
      cases hl
    · rw [update_of_ne hqp]
      exact h.valid q j hq'
  · rw [hcur]
    intro _ hdev bn hbn
    have hhas := hcovers hdev bn hbn
    unfold Work.Has at hhas
    by_cases hlt : bn < NDIRECT
    · rw [if_pos hlt] at hhas
      refine ⟨?_, fun _ => hhas, fun hge => absurd hlt (Nat.not_lt.2 hge)⟩
      have : NDIRECT ≤ MAXFILE := by decide
      omega
    · rw [if_neg hlt] at hhas
      obtain ⟨hk, h0, hword⟩ := hknown.lead _ hhas
      refine ⟨?_, fun h => absurd h hlt, fun _ => ⟨h0, hword⟩⟩
      have : NDIRECT + NINDIRECT = MAXFILE := rfl
      omega

theorem mul_lt_of_lt_lead {size k : ℕ} (h : k < (size + BSIZE - 1) / BSIZE - NDIRECT) :
    (NDIRECT + k) * BSIZE < size := by
  have hB : BSIZE = 512 := rfl
  have hN : NDIRECT = 12 := rfl
  rw [hB, hN] at h
  rw [hB, hN]
  omega

theorem Inv.begin {i : Fin n} (h : Inv sb s S) (hp : S p = .held i) :
    ((s.mem i).type ≠ .free ∧ ((s.mem i).type ≠ .dev → ∀ bn, bn * BSIZE < (s.mem i).size →
      (s.mem i).Has s.blk bn)) ∧
    Inv sb s (update S p (.work (.start i (s.mem i)))) := by
  have hlock : s.lock i = some p := h.lock p i (by rw [hp]; rfl)
  have hidle : ∀ w, S p ≠ .work w := by
    intro w hw
    rw [hp] at hw
    cases hw
  have hvalid : s.valid i = true := by
    refine (h.valid p i hlock).resolve_right fun hl => ?_
    rw [hp] at hl
    cases hl
  have hi : ¬ Worked S i := h.not_worked_of_lock hlock fun w hw => absurd hw (hidle w)
  obtain ⟨hrest, hfull⟩ := h.rest i hi
  obtain ⟨hm, ht⟩ := hrest hvalid
  have hcur : s.cur i = s.mem i := if_pos hvalid
  rw [hcur] at hfull
  have htype : (s.mem i).type ≠ .free := by rwa [hm]
  refine ⟨⟨htype, hfull htype⟩, ?_, ?_, ?_, ?_, ?_, h.boot⟩
  · intro q j hq
    by_cases hqp : q = p
    · rw [hqp, update_self] at hq
      cases hq
      rw [hqp]
      exact hlock
    · rw [update_of_ne hqp] at hq
      exact h.lock q j hq
  · intro q j hq
    by_cases hqp : q = p
    · subst hqp
      refine .inl ((h.valid q j hq).resolve_right fun hl => ?_)
      rw [hp] at hl
      cases hl
    · rw [update_of_ne hqp]
      exact h.valid q j hq
  · intro q v hq
    by_cases hqp : q = p
    · rw [hqp, update_self] at hq
      obtain rfl := Stage.work.inj hq
      refine ⟨rfl, ht, fun _ => hm.symm, htype, fun k hk => ?_, nofun, trivial⟩
      simp only [Work.start] at hk ⊢
      by_cases hdev : (s.mem i).type = .dev
      · rw [if_pos hdev] at hk
        exact absurd hk (Nat.not_lt_zero k)
      · rw [if_neg hdev] at hk
        obtain ⟨hlt, -, hind⟩ := hfull htype hdev _ (mul_lt_of_lt_lead hk)
        obtain ⟨h0, hword⟩ := hind (Nat.le_add_right ..)
        rw [Nat.add_sub_cancel_left] at hword
        refine ⟨?_, h0, hword⟩
        have : NDIRECT + NINDIRECT = MAXFILE := rfl
        omega
    · exact h.work q v ((update_work_iff hqp).1 hq)
  · intro j hj
    refine h.rest j ?_
    rintro ⟨q, v, hq, hv⟩
    have hqp : q ≠ p := by
      rintro rfl
      exact hidle v hq
    exact hj ⟨q, v, (update_work_iff hqp).2 hq, hv⟩
  · refine h.ledger.congr (fun _ => Iff.rfl) fun o c => ?_
    -- A process that begins has freed and allocated nothing.
    have hwork : ∀ q v, (v.phase ≠ .calm) →
        (update S p (.work (.start i (s.mem i))) q = .work v ↔ S q = .work v) := by
      intro q v hv
      by_cases hqp : q = p
      · rw [hqp, update_self]
        refine iff_of_false (fun heq => hv ?_) (hidle v)
        obtain rfl := Stage.work.inj heq
        rfl
      · exact update_work_iff hqp
    cases o with
    | fresh q =>
      refine exists_congr fun v => and_congr_left fun hf => hwork q v ?_
      intro hcalm
      rw [hcalm] at hf
      exact hf
    | place j pl =>
      refine and_congr_right fun _ => not_congr (exists_congr fun q => exists_congr fun v => ?_)
      refine and_congr_left fun hd => hwork q v ?_
      intro hcalm
      rw [hcalm] at hd
      exact hd.2

theorem Inv.freeInode (h : Inv sb s S) (hp : S p = .work w) (hq : w.phase.Quiet)
    (h0 : ∀ k ≤ NDIRECT, w.ip.addrs k = 0) :
    Inv sb (((s.setMem w.i { s.mem w.i with type := .free }).setDisk w.i
      { s.mem w.i with type := .free }).setValid w.i false)
      (update S p (.locking w.i)) := by
  have hm := (h.work p w hp).1
  have hlock : s.lock w.i = some p := h.lock p w.i (by rw [hp]; rfl)
  have hcur : s.cur w.i = w.ip := (if_pos (h.valid_work hp)).trans hm
  have hworks : ∀ v, S p = .work v → v = w := fun v hv => (Stage.work.inj (hp.symm.trans hv)).symm
  refine h.swap w.i (update_stage_iff nofun (fun v hv => by rw [hworks v hv])
      fun q v hq hv => h.unique hp hq hv) (fun q v hq' hv => ?_) rfl rfl
    (fun j hj => ⟨update_of_ne hj .., update_of_ne hj ..,
      update_of_ne hj ..⟩) (fun q j hq' => ?_) (fun q j hq' => ?_) (fun pl c => ?_) ?_ ?_
  · obtain rfl := h.unique hp hq' hv
    rw [hworks v hq']
    exact hq
  · by_cases hqp : q = p
    · rw [hqp, update_self] at hq'
      cases hq'
      rw [hqp]
      exact hlock
    · rw [update_of_ne hqp] at hq'
      exact h.lock q j hq'
  · have hq' : s.lock j = some q := hq'
    by_cases hj : j = w.i
    · subst hj
      cases hlock.symm.trans hq'
      exact .inr (update_self ..)
    · have hqv := h.valid q j hq'
      by_cases hqp : q = p
      · subst hqp
        refine .inl ((update_of_ne hj ..).trans (hqv.resolve_right fun hl => ?_))
        rw [hp] at hl
        cases hl
      · rw [update_of_ne hqp]
        exact hqv.imp_left (update_of_ne hj ..).trans
  · refine iff_of_false (Dinode.not_ref (fun htype => ?_) pl)
      (Dinode.not_ref (fun _ => hcur ▸ h0) pl)
    simp [Store.cur, Store.setValid, Store.setDisk] at htype
  · simp [Store.setValid]
  · intro htype
    simp [Store.cur, Store.setValid, Store.setDisk] at htype

end Xv6.Alloc
