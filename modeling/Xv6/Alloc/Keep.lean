import Xv6.Alloc.Exact

/-!
# The operations of a process on its inode

One lemma for each operation of `Xv6.Alloc.Op` that a process performs on the inode that it works
on, as an instance of `Inv.work_step`.
-/

namespace Xv6.Alloc

open Function
open Fs (BSIZE MAXFILE Itype)

variable {n : ℕ} {ι : Type} {sb : Super} {s : Store n ι} {S : ι → Stage n} {p : ι} {w : Work n}
  {b c k : ℕ}

/-! ## The bitmap -/

theorem mul_add_div {m q r : ℕ} (h : r < m) : (q * m + r) / m = q := by
  rw [Nat.add_comm, Nat.add_mul_div_right _ _ (Nat.zero_lt_of_lt h), Nat.div_eq_of_lt h,
    Nat.zero_add]

theorem mul_add_mod {m q r : ℕ} (h : r < m) : (q * m + r) % m = r := by
  rw [Nat.add_comm, Nat.add_mul_mod_self_right, Nat.mod_eq_of_lt h]

theorem eq_of_div_mod (hdiv : c / BPB = b / BPB) (hmod : c % BPB = b % BPB) : c = b := by
  rw [← Nat.div_add_mod c BPB, hdiv, hmod, Nat.div_add_mod]

namespace Store

@[simp] theorem marked_setMark : (s.setMark b).marked c = (s.marked c || decide (c = b)) := by
  unfold marked setMark
  by_cases hdiv : c / BPB = b / BPB
  · simp only [hdiv, update_self, Bytes.bit_setBit]
    congr 1
    exact decide_eq_decide.2 ⟨eq_of_div_mod hdiv, fun h => by rw [h]⟩
  · have hne : c ≠ b := fun h => hdiv (by rw [h])
    simp only [update_of_ne hdiv, hne, decide_false, Bool.or_false]

@[simp] theorem marked_clearMark : (s.clearMark b).marked c = (s.marked c && decide (c ≠ b)) := by
  unfold marked clearMark
  by_cases hdiv : c / BPB = b / BPB
  · simp only [hdiv, update_self, Bytes.bit_clearBit]
    congr 1
    exact decide_eq_decide.2 (not_congr ⟨eq_of_div_mod hdiv, fun h => by rw [h]⟩)
  · have hne : c ≠ b := fun h => hdiv (by rw [h])
    simp only [update_of_ne hdiv, hne, ne_eq, not_false_eq_true, decide_true,
      Bool.and_true]

theorem findFree_some {bb bi : ℕ} (h : s.findFree sb bb = some bi) :
    bb * BPB + bi < sb.size ∧ s.marked (bb * BPB + bi) = false := by
  unfold findFree at h
  have hmem : bi ∈ List.range BPB := List.mem_of_find?_eq_some h
  have hlt : bi < BPB := List.mem_range.1 hmem
  have hfree := List.find?_some h
  rw [decide_eq_true_iff] at hfree
  refine ⟨hfree.1, ?_⟩
  rw [marked, mul_add_div hlt, mul_add_mod hlt]
  exact hfree.2

end Store

/-! ## What a process has -/

theorem Phase.Quiet.not_dropped {φ : Phase} (h : φ.Quiet) (pl : Place) : ¬ φ.Dropped pl := by
  cases φ with
  | calm | hole k | seen b => exact id
  | fresh z hole b | gone k | cut j | entry j b => exact h.elim

theorem Phase.Quiet.not_fresh {φ : Phase} (h : φ.Quiet) (c : ℕ) : ¬ φ.Fresh c := by
  cases φ with
  | calm | hole k | seen b => exact id
  | fresh z hole b | gone k | cut j | entry j b => exact h.elim

theorem Work.holds_of_quiet {blk : ℕ → Bytes} (hq : w.phase.Quiet) (x : Option Place) :
    w.Holds blk x c ↔ ∃ pl, x = some pl ∧ w.ip.Ref blk pl c := by
  cases x with
  | none => exact ⟨fun h => absurd h (hq.not_fresh c), fun ⟨pl, hpl, _⟩ => by cases hpl⟩
  | some pl =>
    constructor
    · exact fun h => ⟨pl, rfl, h.1⟩
    · rintro ⟨pl', hpl, href⟩
      cases hpl
      exact ⟨href, hq.not_dropped pl⟩

theorem Work.holds_of_fresh {blk : ℕ → Bytes} {z : Bool} {h : Option ℕ}
    (hφ : w.phase = .fresh z h b) (x : Option Place) :
    w.Holds blk x c ↔ (∃ pl, x = some pl ∧ w.ip.Ref blk pl c) ∨ x = none ∧ c = b := by
  cases x with
  | none =>
    have hfresh : w.Holds blk none c ↔ c = b := by
      rw [Holds, hφ]
      exact Iff.rfl
    rw [hfresh]
    constructor
    · exact fun h => .inr ⟨rfl, h⟩
    · rintro (⟨pl, hpl, -⟩ | ⟨-, h⟩)
      · cases hpl
      · exact h
  | some pl =>
    simp only [Holds, hφ]
    constructor
    · exact fun h => .inl ⟨pl, rfl, h.1⟩
    · rintro (⟨pl', hpl, href⟩ | ⟨hx, -⟩)
      · cases hpl
        exact ⟨href, id⟩
      · cases hx

theorem Framed.refl (s : Store n ι) (w : Work n) : Framed s s w :=
  ⟨rfl, rfl, fun _ _ => rfl, fun _ _ => rfl, fun _ => .inl rfl⟩

theorem Store.inUse_congr {s' : Store n ι} (h : s'.bits = s.bits) (c : ℕ) :
    s'.InUse sb c ↔ s.InUse sb c := by
  simp only [InUse, marked, h]

theorem Inv.not_indirect (h : Inv sb s S) (hp : S p = .work w) {x : Option Place}
    (hx : w.Holds s.blk x b) (hne : x ≠ some (.addr NDIRECT))
    (hd : ¬ w.phase.Dropped (.addr NDIRECT)) : w.ip.addrs NDIRECT ≠ b := by
  intro heq
  have hind : w.Holds s.blk (some (.addr NDIRECT)) b :=
    ⟨⟨(h.work p w hp).2.2.2.type, le_rfl, heq, (h.holds_inUse hp hx).ne_zero⟩, hd⟩
  exact hne (h.holds_unique hp hx hind)

theorem Dinode.ref_update {x : Dinode} {blk : ℕ → Bytes} {d : Bytes} (h : x.addrs NDIRECT ≠ b)
    (pl : Place) : x.Ref (update blk b d) pl c ↔ x.Ref blk pl c := by
  cases pl with
  | addr k => exact Iff.rfl
  | entry j => simp only [Ref, update_of_ne h]

theorem Framed.setBlk {d : Bytes} {x : Option Place} (hx : w.Holds s.blk x b) :
    Framed s (s.setBlk b d) w := by
  refine ⟨rfl, rfl, fun _ _ => rfl, fun _ _ => rfl, fun c => ?_⟩
  by_cases hc : c = b
  · exact .inr ⟨x, hc ▸ hx⟩
  · exact .inl (update_of_ne hc ..)

theorem Framed.setMem {x : Dinode} : Framed s (s.setMem w.i x) w :=
  ⟨rfl, rfl, fun _ hj => update_of_ne hj .., fun _ _ => rfl, fun _ => .inl rfl⟩

variable [DecidableEq ι]

theorem Inv.learn {w' : Work n} (h : Inv sb s S) (hp : S p = .work w) (hi : w'.i = w.i)
    (hip : w'.ip = w.ip) (hsync : w'.sync = w.sync) (hknown : w'.Known s.blk)
    (hold : ∀ x c, w'.Holds s.blk x c ↔ w.Holds s.blk x c) :
    Inv sb s (update S p (.work w')) := by
  obtain ⟨hm, ht, hs, -⟩ := h.work p w hp
  refine h.work_step hp (.refl s w) hi (hm.trans hip.symm) ht (fun hw' => ?_) hknown h.boot
    (h.ledger_same hp (.refl s w) hi (hm.trans hip.symm) (fun _ => Iff.rfl) hold)
  rw [hip]
  exact hs (hsync ▸ hw')

theorem Inv.balloc {bb bi : ℕ} (h : Inv sb s S) (hp : S p = .work w) (hq : w.phase.Quiet)
    (hfind : s.findFree sb bb = some bi) :
    bb * BPB + bi ≠ 0 ∧ Inv sb (s.setMark (bb * BPB + bi))
      (update S p (.work (w.next (.balloc bb) (some (bb * BPB + bi))))) := by
  obtain ⟨hlt, hfree⟩ := Store.findFree_some hfind
  generalize bb * BPB + bi = b at hlt hfree ⊢
  have hge : sb.datastart ≤ b := by
    by_contra hb
    rw [h.boot b (Nat.not_le.1 hb)] at hfree
    cases hfree
  obtain ⟨hm, ht, hs, hk⟩ := h.work p w hp
  have hF : Framed s (s.setMark b) w :=
    ⟨rfl, rfl, fun _ _ => rfl, fun _ _ => rfl, fun _ => .inl rfl⟩
  refine ⟨fun h0 => ?_, h.work_step hp hF rfl hm ht hs ⟨hk.type, hk.lead, nofun, ?_⟩ ?_
    (h.ledger_take (b := b) hp hF rfl hm ?_ ?_ ?_)⟩
  · have := sb.datastart_pos
    omega
  · refine ⟨fun k hk' => ?_, nofun⟩
    have hphase := hk.phase
    cases hφ : w.phase with
    | hole l =>
      rw [hφ] at hphase hk'
      cases hk'
      exact hphase
    | calm | seen b | fresh z hole b | gone k | cut j | entry j b =>
      rw [hφ] at hk'
      cases hk'
  · intro c hc
    rw [Store.marked_setMark, h.boot c hc, Bool.true_or]
  · rintro ⟨hmark, -⟩
    rw [hfree] at hmark
    cases hmark
  · intro c
    simp only [Store.InUse, Store.marked_setMark, Bool.or_eq_true, decide_eq_true_eq]
    constructor
    · rintro ⟨hmark | hc, hrange⟩
      · exact .inl ⟨hmark, hrange⟩
      · exact .inr hc
    · rintro (⟨hmark, hrange⟩ | rfl)
      · exact ⟨.inl hmark, hrange⟩
      · exact ⟨.inr rfl, hge, hlt⟩
  · intro x c
    rw [Work.holds_of_fresh (w := w.next (.balloc bb) (some b)) rfl, Work.holds_of_quiet hq]
    exact Iff.rfl

theorem Inv.bzero {z : Bool} {hole : Option ℕ} (h : Inv sb s S) (hp : S p = .work w)
    (hφ : w.phase = .fresh z hole b) :
    Inv sb (s.setBlk b .zero) (update S p (.work (w.next (.bzero b) ()))) := by
  obtain ⟨hm, ht, hs, hk⟩ := h.work p w hp
  have hx : w.Holds s.blk none b := (Work.holds_of_fresh hφ none).2 (.inr ⟨rfl, rfl⟩)
  have hne : w.ip.addrs NDIRECT ≠ b := h.not_indirect hp hx nofun (by rw [hφ]; exact id)
  have hnext : w.next (.bzero b) () = { w with phase := .fresh true hole b } := by
    simp only [Work.next, hφ]
  have hphase := hk.phase
  rw [hφ] at hphase
  rw [hnext]
  refine h.work_step hp (.setBlk hx) rfl hm ht hs ⟨hk.type, fun k hk' => ?_, nofun, ?_⟩ h.boot
    (h.ledger_same hp (.setBlk hx) rfl hm (Store.inUse_congr rfl) fun x c => ?_)
  · show k < NINDIRECT ∧ _ ∧ (update s.blk b Bytes.zero (w.ip.addrs NDIRECT)).word k ≠ 0
    rw [update_of_ne hne]
    exact hk.lead k hk'
  · refine ⟨fun k hk' => ?_, fun _ => update_self ..⟩
    show (update s.blk b Bytes.zero (w.ip.addrs NDIRECT)).word k = 0
    rw [update_of_ne hne]
    exact hphase.1 k hk'
  · rw [Work.holds_of_fresh (w := { w with phase := .fresh true hole b }) rfl,
      Work.holds_of_fresh hφ]
    refine or_congr_left (exists_congr fun pl => and_congr_right fun _ => ?_)
    exact Dinode.ref_update hne pl

theorem Dinode.ref_setAddr {x : Dinode} {blk : ℕ → Bytes} (htype : x.type ≠ .free)
    (hk : k ≤ NDIRECT) (h0 : x.addrs k = 0) (hb : b ≠ 0) (hzero : blk b = .zero) (pl : Place) :
    Ref { x with addrs := update x.addrs k b } blk pl c ↔
      x.Ref blk pl c ∨ pl = .addr k ∧ c = b := by
  cases pl with
  | addr l =>
    by_cases hl : l = k
    · subst hl
      simp only [Ref, update_self, h0]
      constructor
      · rintro ⟨-, -, rfl, -⟩
        exact .inr ⟨trivial, rfl⟩
      · rintro (⟨-, -, rfl, hne⟩ | ⟨-, rfl⟩)
        · exact absurd rfl hne
        · exact ⟨htype, hk, rfl, hb⟩
    · have hpl : ¬ (Place.addr l = .addr k ∧ c = b) := fun h => hl (Place.addr.inj h.1)
      rw [or_iff_left hpl]
      simp only [Ref, update_of_ne hl]
  | entry j =>
    have hpl : ¬ (Place.entry j = .addr k ∧ c = b) := fun h => by cases h.1
    rw [or_iff_left hpl]
    by_cases hkn : NDIRECT = k
    · -- A new indirect block is empty.
      subst hkn
      simp only [Ref, update_self, h0, hzero, Bytes.word_zero]
      constructor
      · rintro ⟨-, -, -, rfl, hne⟩
        exact absurd rfl hne
      · rintro ⟨-, -, hne, -⟩
        exact absurd rfl hne
    · simp only [Ref, update_of_ne hkn]

theorem Inv.setAddr {hole : Option ℕ} (h : Inv sb s S) (hp : S p = .work w)
    (hφ : w.phase = .fresh true hole b) (hk : k ≤ NDIRECT) (h0 : w.ip.addrs k = 0) :
    Inv sb (s.setMem w.i { s.mem w.i with addrs := update (s.mem w.i).addrs k b })
      (update S p (.work (w.next (.setAddr w.i k b) ()))) := by
  obtain ⟨hm, ht, hs, hknown⟩ := h.work p w hp
  have hx : w.Holds s.blk none b := (Work.holds_of_fresh hφ none).2 (.inr ⟨rfl, rfl⟩)
  have hphase := hknown.phase
  rw [hφ] at hphase
  rw [hm]
  refine h.work_step hp .setMem rfl (update_self ..) ht nofun
    ⟨hknown.type, fun l hl => ?_, nofun, trivial⟩ h.boot
    (h.ledger_move (b := b) hp .setMem rfl (update_self ..) (.addr k) hx
      (Store.inUse_congr rfl) fun x c => ?_)
  · by_cases hkn : k = NDIRECT
    · simp only [Work.next, hkn, if_true] at hl
      exact absurd hl (Nat.not_lt_zero _)
    · simp only [Work.next, hkn, if_false] at hl
      show l < NINDIRECT ∧ update w.ip.addrs k b NDIRECT ≠ 0 ∧
        (s.blk (update w.ip.addrs k b NDIRECT)).word l ≠ 0
      rw [update_of_ne (Ne.symm hkn)]
      exact hknown.lead l hl
  · rw [Work.holds_of_quiet (w := w.next (.setAddr w.i k b) ()) trivial, Work.holds_of_fresh hφ]
    have hb := (h.holds_inUse hp hx).ne_zero
    have href : ∀ pl, (w.next (.setAddr w.i k b) ()).ip.Ref s.blk pl c ↔
        w.ip.Ref s.blk pl c ∨ pl = .addr k ∧ c = b :=
      Dinode.ref_setAddr hknown.type hk h0 hb (hphase.2 rfl)
    have hold : ∀ pl, w.ip.Ref s.blk pl c → c ≠ b := by
      rintro pl hpl rfl
      have := h.holds_unique hp hx ((Work.holds_of_fresh hφ (some pl)).2 (.inl ⟨pl, rfl, hpl⟩))
      cases this
    constructor
    · rintro ⟨pl, rfl, hpl⟩
      rcases (href pl).1 hpl with hpl | ⟨rfl, rfl⟩
      · exact .inl ⟨.inl ⟨pl, rfl, hpl⟩, hold pl hpl⟩
      · exact .inr ⟨rfl, rfl⟩
    · rintro (⟨⟨pl, rfl, hpl⟩ | ⟨-, hc⟩, hne⟩ | ⟨rfl, hc⟩)
      · exact ⟨pl, rfl, (href pl).2 (.inl hpl)⟩
      · exact absurd hc hne
      · exact ⟨.addr k, rfl, (href _).2 (.inr ⟨rfl, hc⟩)⟩

theorem Inv.clearAddr (h : Inv sb s S) (hp : S p = .work w) (hφ : w.phase = .gone k) :
    Inv sb (s.setMem w.i { s.mem w.i with addrs := update (s.mem w.i).addrs k 0 })
      (update S p (.work (w.next (.setAddr w.i k 0) ()))) := by
  obtain ⟨hm, ht, hs, hknown⟩ := h.work p w hp
  rw [hm]
  refine h.work_step hp .setMem rfl (update_self ..) ht nofun
    ⟨hknown.type, fun l hl => ?_, nofun, trivial⟩ h.boot
    (h.ledger_same hp .setMem rfl (update_self ..) (Store.inUse_congr rfl) fun x c => ?_)
  · by_cases hkn : k = NDIRECT
    · simp only [Work.next, hkn, if_true] at hl
      exact absurd hl (Nat.not_lt_zero _)
    · simp only [Work.next, hkn, if_false] at hl
      show l < NINDIRECT ∧ update w.ip.addrs k 0 NDIRECT ≠ 0 ∧
        (s.blk (update w.ip.addrs k 0 NDIRECT)).word l ≠ 0
      rw [update_of_ne (Ne.symm hkn)]
      exact hknown.lead l hl
  · rw [Work.holds_of_quiet (w := w.next (.setAddr w.i k 0) ()) trivial]
    have href : ∀ pl, (w.next (.setAddr w.i k 0) ()).ip.Ref s.blk pl c ↔
        w.ip.Ref s.blk pl c ∧ ¬ w.phase.Dropped pl := by
      intro pl
      rw [hφ]
      cases pl with
      | addr l =>
        by_cases hl : l = k
        · subst hl
          simp only [Work.next, Dinode.Ref, update_self, Phase.Dropped]
          constructor
          · rintro ⟨-, -, rfl, hne⟩
            exact absurd rfl hne
          · exact fun h => absurd trivial h.2
        · simp only [Work.next, Dinode.Ref, update_of_ne hl, Phase.Dropped, hl,
            not_false_eq_true, and_true]
      | entry j =>
        by_cases hkn : k = NDIRECT
        · subst hkn
          simp only [Work.next, Dinode.Ref, update_self, Phase.Dropped]
          constructor
          · rintro ⟨-, -, hne, -⟩
            exact absurd rfl hne
          · exact fun h => absurd trivial h.2
        · simp only [Work.next, Dinode.Ref, update_of_ne (Ne.symm hkn), Phase.Dropped, hkn,
            not_false_eq_true, and_true]
    cases x with
    | none =>
      simp only [Work.Holds, hφ, Phase.Fresh, iff_false]
      rintro ⟨pl, hpl, -⟩
      cases hpl
    | some pl =>
      show _ ↔ w.ip.Ref s.blk pl c ∧ ¬ w.phase.Dropped pl
      rw [← href]
      constructor
      · rintro ⟨pl', hpl, h⟩
        cases hpl
        exact h
      · exact fun h => ⟨pl, rfl, h⟩

omit [DecidableEq ι] in
theorem Dinode.ref_congr {x y : Dinode} {blk : ℕ → Bytes} (hty : x.type = y.type)
    (ha : x.addrs = y.addrs) (pl : Place) : x.Ref blk pl c ↔ y.Ref blk pl c := by
  cases pl with
  | addr k => simp only [Ref, hty, ha]
  | entry j => simp only [Ref, hty, ha]

omit [DecidableEq ι] in
theorem Phase.Known.congr {x y : Dinode} {blk : ℕ → Bytes} {φ : Phase} (h : φ.Known y blk)
    (hty : x.type = y.type) (ha : x.addrs = y.addrs) : φ.Known x blk := by
  cases φ with
  | calm | gone k | cut j => trivial
  | hole k =>
    simp only [Phase.Known, ha]
    exact h
  | seen b =>
    obtain ⟨k, hk⟩ := h
    exact ⟨k, (Dinode.ref_congr hty ha _).2 hk⟩
  | fresh z hole b =>
    simp only [Phase.Known, ha]
    exact h
  | entry j b => exact (Dinode.ref_congr hty ha (.entry j)).2 h

theorem Inv.setField {x : Dinode} (h : Inv sb s S) (hp : S p = .work w)
    (hty : x.type = w.ip.type) (ha : x.addrs = w.ip.addrs) :
    Inv sb (s.setMem w.i x) (update S p (.work { w with ip := x, sync := false })) := by
  obtain ⟨hm, ht, hs, hk⟩ := h.work p w hp
  refine h.work_step hp .setMem rfl (update_self ..) ht nofun
    ⟨hty ▸ hk.type, fun k hl => ?_, hk.intact, hk.phase.congr hty ha⟩ h.boot
    (h.ledger_same hp .setMem rfl (update_self ..) (Store.inUse_congr rfl) fun y c => ?_)
  · rw [show ({ w with ip := x, sync := false } : Work n).ip.addrs = w.ip.addrs from ha]
    exact hk.lead k hl
  · cases y with
    | none => exact Iff.rfl
    | some pl => exact and_congr_left fun _ => Dinode.ref_congr hty ha pl

theorem Inv.iupdate (h : Inv sb s S) (hp : S p = .work w) :
    Inv sb (s.setDisk w.i (s.mem w.i))
      (update S p (.work (w.next (.iupdate w.i) ()))) := by
  obtain ⟨hm, ht, hs, hk⟩ := h.work p w hp
  have hF : Framed s (s.setDisk w.i (s.mem w.i)) w :=
    ⟨rfl, rfl, fun _ _ => rfl, fun _ hj => update_of_ne hj .., fun _ => .inl rfl⟩
  have hdisk : (s.setDisk w.i (s.mem w.i)).disk w.i = w.ip :=
    (update_self ..).trans hm
  refine h.work_step hp hF rfl hm (hdisk ▸ hk.type) (fun _ => hdisk)
    ⟨hk.type, hk.lead, hk.intact, hk.phase⟩ h.boot
    (h.ledger_same hp hF rfl hm (Store.inUse_congr rfl) fun _ _ => Iff.rfl)

theorem Dinode.Ref.eq {x : Dinode} {blk : ℕ → Bytes} {pl : Place} (h : x.Ref blk pl b)
    (h' : x.Ref blk pl c) : b = c := by
  cases pl with
  | addr k => exact h.2.2.1.symm.trans h'.2.2.1
  | entry j => exact h.2.2.2.1.symm.trans h'.2.2.2.1

theorem Inv.bfree {w' : Work n} (pl₀ : Place) (h : Inv sb s S) (hp : S p = .work w)
    (hi : w'.i = w.i) (hip : w'.ip = w.ip) (hsync : w'.sync = w.sync) (hknown : w'.Known s.blk)
    (hb : w.ip.Ref s.blk pl₀ b) (hd₀ : ¬ w.phase.Dropped pl₀)
    (hf : ∀ c, ¬ w.phase.Fresh c) (hf' : ∀ c, ¬ w'.phase.Fresh c)
    (hmono : ∀ pl, w.phase.Dropped pl → w'.phase.Dropped pl) (hd : w'.phase.Dropped pl₀)
    (hnew : ∀ pl c, w.ip.Ref s.blk pl c → w'.phase.Dropped pl → w.phase.Dropped pl ∨ pl = pl₀) :
    s.marked b = true ∧ Inv sb (s.clearMark b) (update S p (.work w')) := by
  obtain ⟨hm, ht, hs, -⟩ := h.work p w hp
  have hx : w.Holds s.blk (some pl₀) b := ⟨hb, hd₀⟩
  have hin := h.holds_inUse hp hx
  have hF : Framed s (s.clearMark b) w :=
    ⟨rfl, rfl, fun _ _ => rfl, fun _ _ => rfl, fun _ => .inl rfl⟩
  have hmem : (s.clearMark b).mem w.i = w'.ip := hm.trans hip.symm
  refine ⟨hin.1, h.work_step hp hF hi hmem ht (fun hw' => ?_) hknown (fun c hc => ?_)
    (h.ledger_drop hp hF hi hmem hx (fun c => ?_) fun x c => ?_)⟩
  · rw [hip]
    exact hs (hsync ▸ hw')
  · have hne : c ≠ b := by
      have := hin.2.1
      omega
    rw [Store.marked_clearMark, h.boot c hc, decide_eq_true hne, Bool.and_true]
  · simp only [Store.InUse, Store.marked_clearMark, Bool.and_eq_true, decide_eq_true_eq]
    exact and_right_comm
  · cases x with
    | none => exact iff_of_false (hf' c) fun hc => hf c hc.1
    | some pl =>
      show w'.ip.Ref s.blk pl c ∧ _ ↔ (w.ip.Ref s.blk pl c ∧ _) ∧ _
      rw [hip]
      constructor
      · rintro ⟨href, hdrop⟩
        have hold : w.Holds s.blk (some pl) c := ⟨href, fun hd => hdrop (hmono pl hd)⟩
        refine ⟨hold, ?_⟩
        rintro rfl
        cases h.holds_unique hp hx hold
        exact hdrop hd
      · rintro ⟨⟨href, hdrop⟩, hne⟩
        refine ⟨href, fun hd' => ?_⟩
        rcases hnew pl c href hd' with hd' | rfl
        · exact hdrop hd'
        · exact hne (href.eq hb)

theorem Inv.bfree_direct (h : Inv sb s S) (hp : S p = .work w) (hq : w.phase.Quiet)
    (hk : k < NDIRECT) (hb : w.ip.addrs k = b) (h0 : b ≠ 0) :
    s.marked b = true ∧ Inv sb (s.clearMark b)
      (update S p (.work (w.next (.bfree (.addr k) b) true))) := by
  have hknown := (h.work p w hp).2.2.2
  refine h.bfree (.addr k) hp rfl rfl rfl ⟨hknown.type, nofun, nofun, trivial⟩
    ⟨hknown.type, hk.le, hb, h0⟩ (hq.not_dropped _) hq.not_fresh (fun c => id)
    (fun pl hd => absurd hd (hq.not_dropped pl)) rfl ?_
  intro pl c _ hd
  cases pl with
  | addr l => exact .inr (congrArg _ hd)
  | entry l => exact absurd hd hk.ne

theorem Inv.bfree_indirect (h : Inv sb s S) (hp : S p = .work w) (hφ : w.phase = .cut NINDIRECT)
    (hb : w.ip.addrs NDIRECT = b) (h0 : b ≠ 0) :
    s.marked b = true ∧ Inv sb (s.clearMark b)
      (update S p (.work (w.next (.bfree (.addr NDIRECT) b) true))) := by
  have hknown := (h.work p w hp).2.2.2
  refine h.bfree (.addr NDIRECT) hp rfl rfl rfl ⟨hknown.type, nofun, nofun, trivial⟩
    ⟨hknown.type, le_rfl, hb, h0⟩ (by rw [hφ]; exact id) (fun c => by rw [hφ]; exact id)
    (fun c => id) (fun pl hd => ?_) rfl (fun pl c href hd => ?_)
  · rw [hφ] at hd
    cases pl with
    | addr l => exact hd.elim
    | entry l => rfl
  · cases pl with
    | addr l => exact .inr (congrArg _ hd)
    | entry l =>
      rw [hφ]
      exact .inl href.2.1

theorem Inv.bfree_entry {j : ℕ} (h : Inv sb s S) (hp : S p = .work w)
    (hφ : w.phase = .entry j b) :
    s.marked b = true ∧ Inv sb (s.clearMark b)
      (update S p (.work (w.next (.bfree (.entry j) b) true))) := by
  have hknown := (h.work p w hp).2.2.2
  have hphase := hknown.phase
  rw [hφ] at hphase
  refine h.bfree (.entry j) hp rfl rfl rfl ⟨hknown.type, hknown.lead, nofun, trivial⟩
    hphase (by rw [hφ]; exact lt_irrefl j) (fun c => by rw [hφ]; exact id)
    (fun c => id) (fun pl hd => ?_) (Nat.lt_succ_self j) (fun pl c href hd => ?_)
  · rw [hφ] at hd
    cases pl with
    | addr l => exact hd.elim
    | entry l => exact Nat.lt_succ_of_lt hd
  · rw [hφ]
    cases pl with
    | addr l => exact hd.elim
    | entry l =>
      rcases Nat.lt_succ_iff_lt_or_eq.1 hd with hlt | heq
      · exact .inl hlt
      · exact .inr (congrArg _ heq)

theorem Inv.word_bmap (h : Inv sb s S) (hp : S p = .work w) (hq : w.phase.Quiet)
    (h0 : w.ip.addrs NDIRECT ≠ 0) (hk : k < NINDIRECT) :
    Inv sb s (update S p
      (.work (w.next (.word .bmap (w.ip.addrs NDIRECT) k)
        ((s.blk (w.ip.addrs NDIRECT)).word k)))) := by
  have hknown := (h.work p w hp).2.2.2
  generalize hr : (s.blk (w.ip.addrs NDIRECT)).word k = r
  by_cases hr0 : r = 0
  · simp only [Work.next, hr0, if_true]
    refine h.learn hp rfl rfl rfl ⟨hknown.type, hknown.lead, nofun, hr.trans hr0⟩ fun x c => ?_
    rw [Work.holds_of_quiet (w := { w with phase := .hole k }) trivial, Work.holds_of_quiet hq]
  · simp only [Work.next, hr0, if_false]
    refine h.learn hp rfl rfl rfl ⟨hknown.type, fun l hl => ?_, nofun,
      k, hknown.type, hk, h0, hr, hr0⟩ fun x c => ?_
    · have hword : (s.blk (w.ip.addrs NDIRECT)).word k ≠ 0 := hr ▸ hr0
      by_cases hlead : k = w.lead
      · simp only [hlead, if_true] at hl
        rcases Nat.lt_succ_iff_lt_or_eq.1 hl with hlt | rfl
        · exact hknown.lead l hlt
        · exact ⟨hlead ▸ hk, h0, hlead ▸ hword⟩
      · simp only [hlead, if_false] at hl
        exact hknown.lead l hl
    · rw [Work.holds_of_quiet hq]
      exact Work.holds_of_quiet (w := { w with lead := _, phase := .seen r }) trivial x

theorem Inv.word_itrunc {j : ℕ} (h : Inv sb s S) (hp : S p = .work w)
    (hφ : j = 0 ∧ w.phase.Quiet ∨ w.phase = .cut j) (h0 : w.ip.addrs NDIRECT ≠ 0)
    (hj : j < NINDIRECT) :
    Inv sb s (update S p
      (.work (w.next (.word .itrunc (w.ip.addrs NDIRECT) j)
        ((s.blk (w.ip.addrs NDIRECT)).word j)))) := by
  have hknown := (h.work p w hp).2.2.2
  -- So far the first `j` entries have been dropped.
  have hdrop : ∀ pl c, (w.phase.Dropped pl ↔ ∃ l, pl = .entry l ∧ l < j) ∧ ¬ w.phase.Fresh c := by
    intro pl c
    rcases hφ with ⟨rfl, hq⟩ | hcut
    · refine ⟨iff_of_false (hq.not_dropped pl) ?_, hq.not_fresh c⟩
      rintro ⟨l, -, hl⟩
      cases hl
    · rw [hcut]
      refine ⟨?_, id⟩
      cases pl with
      | addr l => exact iff_of_false id (by rintro ⟨l, hl, -⟩; cases hl)
      | entry l =>
        refine ⟨fun hl => ⟨l, rfl, hl⟩, ?_⟩
        rintro ⟨l', hl', hlt⟩
        obtain rfl := Place.entry.inj hl'
        exact hlt
  generalize hr : (s.blk (w.ip.addrs NDIRECT)).word j = r
  refine h.learn hp rfl rfl rfl ⟨hknown.type, nofun, nofun, ?_⟩ fun x c => ?_
  · by_cases hr0 : r = 0
    · simp only [Work.next, hr0, if_true]
      trivial
    · simp only [Work.next, hr0, if_false]
      exact ⟨hknown.type, hj, h0, hr, hr0⟩
  · cases x with
    | none =>
      refine iff_of_false ?_ (hdrop (.addr 0) c).2
      simp only [Work.Holds, Work.next]
      split <;> exact id
    | some pl =>
      refine and_congr_right fun href => not_congr ?_
      rw [(hdrop pl c).1]
      simp only [Work.next]
      cases pl with
      | addr l =>
        refine iff_of_false ?_ (by rintro ⟨l, hl, -⟩; cases hl)
        split <;> exact id
      | entry l =>
        have hne : r = 0 → l ≠ j := by
          rintro hr0 rfl
          exact href.2.2.2.2 (href.2.2.2.1.symm.trans (hr.trans hr0))
        have hiff : (∃ l', Place.entry l = .entry l' ∧ l' < j) ↔ l < j := by
          refine ⟨?_, fun hl => ⟨l, rfl, hl⟩⟩
          rintro ⟨l', hl', hlt⟩
          obtain rfl := Place.entry.inj hl'
          exact hlt
        rw [hiff]
        split
        · rename_i hr0
          have := hne hr0
          show l < j + 1 ↔ l < j
          omega
        · exact Iff.rfl

omit [DecidableEq ι] in
theorem Dinode.ref_setWord {x : Dinode} {blk : ℕ → Bytes} (htype : x.type ≠ .free)
    (hind : x.addrs NDIRECT ≠ 0) (hk : k < NINDIRECT)
    (h0 : (blk (x.addrs NDIRECT)).word k = 0) (hb : b ≠ 0) (hlt : b < 4294967296) (pl : Place) :
    x.Ref (update blk (x.addrs NDIRECT) ((blk (x.addrs NDIRECT)).setWord k b)) pl c ↔
      x.Ref blk pl c ∨ pl = .entry k ∧ c = b := by
  cases pl with
  | addr l => exact (or_iff_left fun h => by cases h.1).symm
  | entry l =>
    simp only [Ref, update_self]
    by_cases hl : l = k
    · subst hl
      rw [Bytes.word_setWord_self _ hlt, h0]
      constructor
      · rintro ⟨-, -, -, rfl, -⟩
        exact .inr ⟨rfl, rfl⟩
      · rintro (⟨-, -, -, rfl, hne⟩ | ⟨-, rfl⟩)
        · exact absurd rfl hne
        · exact ⟨htype, hk, hind, rfl, hb⟩
    · rw [Bytes.word_setWord_of_ne _ hl]
      refine (or_iff_left ?_).symm
      rintro ⟨hpl, -⟩
      exact hl (Place.entry.inj hpl)

theorem Inv.setWord {z : Bool} (h : Inv sb s S) (hp : S p = .work w)
    (hφ : w.phase = .fresh z (some k) b) (h0 : w.ip.addrs NDIRECT ≠ 0) (hk : k < NINDIRECT) :
    Inv sb (s.setBlk (w.ip.addrs NDIRECT) ((s.blk (w.ip.addrs NDIRECT)).setWord k b))
      (update S p (.work (w.next (.setWord (w.ip.addrs NDIRECT) k b) ()))) := by
  obtain ⟨hm, ht, hs, hknown⟩ := h.work p w hp
  have hphase := hknown.phase
  rw [hφ] at hphase
  have hfresh : w.Holds s.blk none b := (Work.holds_of_fresh hφ none).2 (.inr ⟨rfl, rfl⟩)
  have hx : w.Holds s.blk (some (.addr NDIRECT)) (w.ip.addrs NDIRECT) :=
    (Work.holds_of_fresh hφ _).2 (.inl ⟨_, rfl, hknown.type, le_rfl, rfl, h0⟩)
  have hin := h.holds_inUse hp hfresh
  have hlt : b < 4294967296 := hin.2.2.trans sb.size_lt
  have href := fun c => Dinode.ref_setWord (c := c) hknown.type h0 hk (hphase.1 k rfl) hin.ne_zero
    hlt
  refine h.work_step hp (.setBlk hx) rfl hm ht hs ⟨hknown.type, fun l hl => ?_, nofun, k, ?_⟩
    h.boot (h.ledger_move hp (.setBlk hx) rfl hm (.entry k) hfresh (Store.inUse_congr rfl)
      fun x c => ?_)
  · show l < NINDIRECT ∧ _ ∧
      (update s.blk (w.ip.addrs NDIRECT) ((s.blk (w.ip.addrs NDIRECT)).setWord k b)
        (w.ip.addrs NDIRECT)).word l ≠ 0
    rw [update_self]
    by_cases hlk : l = k
    · subst hlk
      rw [Bytes.word_setWord_self _ hlt]
      exact ⟨hk, h0, hin.ne_zero⟩
    · rw [Bytes.word_setWord_of_ne _ hlk]
      refine hknown.lead l ?_
      simp only [Work.next] at hl
      split at hl
      · omega
      · exact hl
  · exact (href b (.entry k)).2 (.inr ⟨rfl, rfl⟩)
  · rw [Work.holds_of_fresh hφ,
      Work.holds_of_quiet (w := w.next (.setWord (w.ip.addrs NDIRECT) k b) ()) trivial]
    have hold : ∀ pl, w.ip.Ref s.blk pl c → c ≠ b := by
      rintro pl hpl rfl
      have := h.holds_unique hp hfresh
        ((Work.holds_of_fresh hφ (some pl)).2 (.inl ⟨pl, rfl, hpl⟩))
      cases this
    constructor
    · rintro ⟨pl, rfl, hpl⟩
      rcases (href c pl).1 hpl with hpl | ⟨rfl, rfl⟩
      · exact .inl ⟨.inl ⟨pl, rfl, hpl⟩, hold pl hpl⟩
      · exact .inr ⟨rfl, rfl⟩
    · rintro (⟨⟨pl, rfl, hpl⟩ | ⟨-, hc⟩, hne⟩ | ⟨rfl, hc⟩)
      · exact ⟨pl, rfl, (href c pl).2 (.inl hpl)⟩
      · exact absurd hc hne
      · exact ⟨.entry k, rfl, (href c _).2 (.inr ⟨rfl, hc⟩)⟩

theorem Inv.copyin {d : Bytes} (h : Inv sb s S) (hp : S p = .work w) (hq : w.phase.Quiet)
    (hdata : w.Data b) : Inv sb (s.setBlk b d) (update S p (.work w)) := by
  obtain ⟨hm, ht, hs, hknown⟩ := h.work p w hp
  obtain ⟨pl, hpl, href⟩ : ∃ pl, pl ≠ .addr NDIRECT ∧ w.ip.Ref s.blk pl b := by
    rcases hdata with hseen | ⟨k, hk, hb, h0⟩
    · have hphase := hknown.phase
      rw [hseen] at hphase
      obtain ⟨k, hk⟩ := hphase
      exact ⟨.entry k, nofun, hk⟩
    · exact ⟨.addr k, fun heq => hk.ne (Place.addr.inj heq), hknown.type, hk.le, hb, h0⟩
  have hx : w.Holds s.blk (some pl) b := (Work.holds_of_quiet hq _).2 ⟨pl, rfl, href⟩
  have hne : w.ip.addrs NDIRECT ≠ b :=
    h.not_indirect hp hx (fun heq => hpl (Option.some.inj heq)) (hq.not_dropped _)
  refine h.work_step hp (.setBlk hx) rfl hm ht hs ⟨hknown.type, fun l hl => ?_, hknown.intact, ?_⟩
    h.boot (h.ledger_same hp (.setBlk hx) rfl hm (Store.inUse_congr rfl) fun x c => ?_)
  · show l < NINDIRECT ∧ _ ∧ (update s.blk b d (w.ip.addrs NDIRECT)).word l ≠ 0
    rw [update_of_ne hne]
    exact hknown.lead l hl
  · have hphase := hknown.phase
    cases hφ : w.phase with
    | calm => trivial
    | hole k =>
      rw [hφ] at hphase
      show (update s.blk b d (w.ip.addrs NDIRECT)).word k = 0
      rw [update_of_ne hne]
      exact hphase
    | seen e =>
      rw [hφ] at hphase
      obtain ⟨k, hk⟩ := hphase
      exact ⟨k, (Dinode.ref_update hne _).2 hk⟩
    | fresh z hole e | gone k | cut j | entry j e =>
      rw [hφ] at hq
      exact hq.elim
  · rw [Work.holds_of_quiet hq, Work.holds_of_quiet hq]
    refine exists_congr fun pl => and_congr_right fun _ => ?_
    exact Dinode.ref_update hne pl

end Xv6.Alloc
