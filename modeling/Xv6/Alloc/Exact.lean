import Xv6.Alloc.Follow

/-!
# The bitmap is exact and files have no holes

What the functions on blocks keep of the shared state, over any interleaving. Every block of the
data area that is marked in the bitmap has one owner (`Ledger`): a place of an allocated inode that
refers to it, or a process that has allocated it and not stored its number yet. An inode that nobody
works on is on the disk as it is in memory, and has a block for whatever is below its size.

`Inv.work_step` is the step of a process that works on its inode. It asks for little but the
process's own part of the ledger before and after (`Work.Holds`): whatever the process writes to is
owned by it or by its inode, so it is of no other inode.
-/

namespace Xv6.Alloc

open Function
open Fs (BSIZE MAXFILE Itype)

variable {n : ℕ} {ι : Type}

def Store.cur (s : Store n ι) (i : Fin n) : Dinode := if s.valid i = true then s.mem i else s.disk i

def Dinode.Ref (x : Dinode) (blk : ℕ → Bytes) : Place → ℕ → Prop
  | .addr k, b => x.type ≠ .free ∧ k ≤ NDIRECT ∧ x.addrs k = b ∧ b ≠ 0
  | .entry j, b => x.type ≠ .free ∧ j < NINDIRECT ∧ x.addrs NDIRECT ≠ 0 ∧
      (blk (x.addrs NDIRECT)).word j = b ∧ b ≠ 0

def Dinode.Has (x : Dinode) (blk : ℕ → Bytes) (bn : ℕ) : Prop :=
  bn < MAXFILE ∧ (bn < NDIRECT → x.addrs bn ≠ 0) ∧
    (NDIRECT ≤ bn → x.addrs NDIRECT ≠ 0 ∧ (blk (x.addrs NDIRECT)).word (bn - NDIRECT) ≠ 0)

def Dinode.Full (x : Dinode) (blk : ℕ → Bytes) : Prop :=
  x.type ≠ .free → x.type ≠ .dev → ∀ bn, bn * BSIZE < x.size → x.Has blk bn

/-- Who may have a block. -/
inductive Owner (n : ℕ) (ι : Type)
  | place (i : Fin n) (pl : Place)
  /-- It has been allocated by a process. -/
  | fresh (p : ι)

def Dropped (S : ι → Stage n) (i : Fin n) (pl : Place) : Prop :=
  ∃ p w, S p = .work w ∧ w.i = i ∧ w.phase.Dropped pl

/-- Who has a block. -/
def Owns (s : Store n ι) (S : ι → Stage n) : Owner n ι → ℕ → Prop
  | .place i pl, b => (s.cur i).Ref s.blk pl b ∧ ¬ Dropped S i pl
  | .fresh p, b => ∃ w, S p = .work w ∧ w.phase.Fresh b

def Store.InUse (sb : Super) (s : Store n ι) (b : ℕ) : Prop :=
  s.marked b = true ∧ sb.datastart ≤ b ∧ b < sb.size

def Worked (S : ι → Stage n) (i : Fin n) : Prop := ∃ p w, S p = .work w ∧ w.i = i

/-- The inode of a stage. -/
def Stage.inode : Stage n → Option (Fin n)
  | .idle => none
  | .locking i | .held i => some i
  | .work w => some w.i

def Phase.Known (ip : Dinode) (blk : ℕ → Bytes) : Phase → Prop
  | .calm | .gone _ => True
  | .hole k => (blk (ip.addrs NDIRECT)).word k = 0
  | .seen b => ∃ k, ip.Ref blk (.entry k) b
  | .fresh z h b =>
    (∀ k, h = some k → (blk (ip.addrs NDIRECT)).word k = 0) ∧ (z = true → blk b = .zero)
  | .cut _ => True
  | .entry j b => ip.Ref blk (.entry j) b

/-- What the process knows is so. -/
structure Work.Known (w : Work n) (blk : ℕ → Bytes) : Prop where
  type : w.ip.type ≠ .free
  lead : ∀ k < w.lead, k < NINDIRECT ∧ w.ip.addrs NDIRECT ≠ 0 ∧
    (blk (w.ip.addrs NDIRECT)).word k ≠ 0
  intact : 0 < w.lead → w.phase ≠ .gone NDIRECT
  phase : w.phase.Known w.ip blk

/-- What holds of the blocks and inodes, where `S` says what the processes know. -/
structure Inv (sb : Super) (s : Store n ι) (S : ι → Stage n) : Prop where
  lock : ∀ p i, (S p).inode = some i → s.lock i = some p
  valid : ∀ p i, s.lock i = some p → s.valid i = true ∨ S p = .locking i
  work : ∀ p w, S p = .work w → s.mem w.i = w.ip ∧ (s.disk w.i).type ≠ .free ∧
    (w.sync = true → s.disk w.i = w.ip) ∧ w.Known s.blk
  rest : ∀ i, ¬ Worked S i → (s.valid i = true → s.mem i = s.disk i ∧ (s.disk i).type ≠ .free) ∧
    (s.cur i).Full s.blk
  ledger : Ledger (s.InUse sb) (Owns s S)
  boot : ∀ b < sb.datastart, s.marked b = true

/-! ## The part of one process -/

def Owner.own (p : ι) (i : Fin n) : Option Place → Owner n ι
  | some pl => .place i pl
  | none => .fresh p

def Work.Holds (w : Work n) (blk : ℕ → Bytes) : Option Place → ℕ → Prop
  | some pl, b => w.ip.Ref blk pl b ∧ ¬ w.phase.Dropped pl
  | none, b => w.phase.Fresh b

theorem own_or_other (p : ι) (i : Fin n) (o : Owner n ι) :
    (∃ x, o = .own p i x) ∨ ∀ x, o ≠ .own p i x := by
  by_cases h : ∃ x, o = .own p i x
  · exact .inl h
  · exact .inr fun x hx => h ⟨x, hx⟩

theorem own_inj {p : ι} {i : Fin n} {x y : Option Place} (h : Owner.own p i x = .own p i y) :
    x = y := by
  cases x with
  | none =>
    cases y with
    | none => rfl
    | some pl => cases h
  | some pl =>
    cases y with
    | none => cases h
    | some pl' =>
      obtain ⟨-, rfl⟩ := Owner.place.inj h
      rfl

section Part

variable {sb : Super} {s s' : Store n ι} {S : ι → Stage n} {p : ι} {w w' : Work n} {b c : ℕ}

theorem owns_own (hp : S p = .work w) (huniq : ∀ q v, S q = .work v → v.i = w.i → q = p)
    (hvalid : s.valid w.i = true) (hmem : s.mem w.i = w.ip) (x : Option Place) :
    Owns s S (.own p w.i x) b ↔ w.Holds s.blk x b := by
  cases x with
  | none =>
    refine ⟨?_, fun h => ⟨w, hp, h⟩⟩
    rintro ⟨v, hv, hfresh⟩
    obtain rfl := Stage.work.inj (hp.symm.trans hv)
    exact hfresh
  | some pl =>
    have hcur : s.cur w.i = w.ip := (if_pos hvalid).trans hmem
    show (s.cur w.i).Ref s.blk pl b ∧ _ ↔ _
    rw [hcur]
    refine and_congr_right fun _ => not_congr ⟨?_, fun h => ⟨p, w, hp, rfl, h⟩⟩
    rintro ⟨q, v, hq, hv, hdropped⟩
    obtain rfl := huniq q v hq hv
    obtain rfl := Stage.work.inj (hp.symm.trans hq)
    exact hdropped

theorem Inv.unique (h : Inv sb s S) (hp : S p = .work w) {q : ι} {v : Work n}
    (hq : S q = .work v) (hv : v.i = w.i) : q = p := by
  have hlockp := h.lock p w.i (by rw [hp]; rfl)
  have hlockq := h.lock q v.i (by rw [hq]; rfl)
  rw [hv, hlockp] at hlockq
  exact (Option.some.inj hlockq).symm

theorem Inv.valid_work (h : Inv sb s S) (hp : S p = .work w) : s.valid w.i = true := by
  refine (h.valid p w.i (h.lock p w.i (by rw [hp]; rfl))).resolve_right fun hl => ?_
  rw [hp] at hl
  cases hl

theorem Inv.owns_own (h : Inv sb s S) (hp : S p = .work w) (x : Option Place) :
    Owns s S (.own p w.i x) b ↔ w.Holds s.blk x b :=
  Alloc.owns_own hp (fun _ _ => h.unique hp) (h.valid_work hp) (h.work p w hp).1 x

theorem Inv.holds_unique (h : Inv sb s S) (hp : S p = .work w) {x y : Option Place}
    (hx : w.Holds s.blk x b) (hy : w.Holds s.blk y b) : x = y :=
  own_inj (h.ledger.unique ((h.owns_own hp x).2 hx) ((h.owns_own hp y).2 hy))

theorem Inv.holds_inUse (h : Inv sb s S) (hp : S p = .work w) {x : Option Place}
    (hx : w.Holds s.blk x b) : s.InUse sb b :=
  h.ledger.sound ((h.owns_own hp x).2 hx)

theorem Store.InUse.ne_zero (h : s.InUse sb b) : b ≠ 0 := by
  have := sb.datastart_pos
  have := h.2.1
  omega

end Part

/-! ## A step of a process on its inode -/

/-- Nothing but the inode that the process works on, and blocks that it has, differs. -/
structure Framed (s s' : Store n ι) (w : Work n) : Prop where
  lock : s'.lock = s.lock
  valid : s'.valid = s.valid
  mem : ∀ j, j ≠ w.i → s'.mem j = s.mem j
  disk : ∀ j, j ≠ w.i → s'.disk j = s.disk j
  blk : ∀ c, s'.blk c = s.blk c ∨ ∃ x, w.Holds s.blk x c

section Step

variable {sb : Super} {s s' : Store n ι} {S : ι → Stage n} {p : ι} {w w' : Work n} {b c : ℕ}

theorem Framed.cur (hF : Framed s s' w) {j : Fin n} (hj : j ≠ w.i) : s'.cur j = s.cur j := by
  simp only [Store.cur, hF.valid, hF.mem j hj, hF.disk j hj]

theorem Inv.blk_other (h : Inv sb s S) (hp : S p = .work w) (hF : Framed s s' w) {j : Fin n}
    (hj : j ≠ w.i) (hown : Owns s S (.place j (.addr NDIRECT)) c) : s'.blk c = s.blk c := by
  refine (hF.blk c).resolve_right ?_
  rintro ⟨x, hx⟩
  have heq := h.ledger.unique hown ((h.owns_own hp x).2 hx)
  cases x with
  | none => cases heq
  | some pl => exact hj (Owner.place.inj heq).1

theorem Inv.blk_fresh (h : Inv sb s S) (hp : S p = .work w) (hF : Framed s s' w) {q : ι}
    (hq : q ≠ p) (hown : Owns s S (.fresh q) c) : s'.blk c = s.blk c := by
  refine (hF.blk c).resolve_right ?_
  rintro ⟨x, hx⟩
  have heq := h.ledger.unique hown ((h.owns_own hp x).2 hx)
  cases x with
  | none => exact hq (Owner.fresh.inj heq)
  | some pl => cases heq

theorem Inv.ref_other (h : Inv sb s S) (hp : S p = .work w) (hF : Framed s s' w) {j : Fin n}
    (hj : j ≠ w.i) {pl : Place} (hd : ¬ Dropped S j pl) :
    (s'.cur j).Ref s'.blk pl c ↔ (s.cur j).Ref s.blk pl c := by
  rw [hF.cur hj]
  cases pl with
  | addr k => exact Iff.rfl
  | entry l =>
    refine and_congr_right fun htype => and_congr_right fun _ => and_congr_right fun h0 => ?_
    -- The indirect block is still the inode's, since its entries are.
    have hown : Owns s S (.place j (.addr NDIRECT)) ((s.cur j).addrs NDIRECT) := by
      refine ⟨⟨htype, le_rfl, rfl, h0⟩, ?_⟩
      rintro ⟨q, v, hq, hv, hdrop⟩
      refine hd ⟨q, v, hq, hv, ?_⟩
      cases hφ : v.phase with
      | gone k =>
        rw [hφ] at hdrop
        exact hdrop.symm
      | calm | hole k | seen b | fresh z hole b | cut j | entry j b =>
        rw [hφ] at hdrop
        exact hdrop.elim
    rw [h.blk_other hp hF hj hown]

variable [DecidableEq ι]

theorem update_work_iff {S : ι → Stage n} {p q : ι} {σ : Stage n} (hq : q ≠ p) {v : Work n} :
    update S p σ q = .work v ↔ S q = .work v := by
  rw [update_of_ne hq]

theorem dropped_update_iff (hp : S p = .work w) (hi : w'.i = w.i) {j : Fin n} (hj : j ≠ w.i)
    (pl : Place) : Dropped (update S p (.work w')) j pl ↔ Dropped S j pl := by
  constructor
  · rintro ⟨q, v, hq, hv, hd⟩
    by_cases hqp : q = p
    · rw [hqp, update_self] at hq
      obtain rfl := Stage.work.inj hq
      exact absurd (hv.symm.trans hi) hj
    · exact ⟨q, v, (update_work_iff hqp).1 hq, hv, hd⟩
  · rintro ⟨q, v, hq, hv, hd⟩
    by_cases hqp : q = p
    · rw [hqp, hp] at hq
      obtain rfl := Stage.work.inj hq
      exact absurd hv.symm hj
    · exact ⟨q, v, (update_work_iff hqp).2 hq, hv, hd⟩

theorem Inv.owns_other (h : Inv sb s S) (hp : S p = .work w) (hF : Framed s s' w)
    (hi : w'.i = w.i) {o : Owner n ι} (ho : ∀ x, o ≠ .own p w.i x) :
    Owns s' (update S p (.work w')) o c ↔ Owns s S o c := by
  cases o with
  | fresh q =>
    have hq : q ≠ p := fun hq => ho none (by rw [hq]; rfl)
    exact exists_congr fun v => and_congr_left fun _ => update_work_iff hq
  | place j pl =>
    have hj : j ≠ w.i := fun hj => ho (some pl) (by rw [hj]; rfl)
    show _ ∧ ¬ Dropped _ j pl ↔ _ ∧ ¬ Dropped _ j pl
    rw [dropped_update_iff hp hi hj]
    exact and_congr_left fun hd => h.ref_other hp hF hj hd

theorem Inv.owns_own_update (h : Inv sb s S) (hp : S p = .work w) (hF : Framed s s' w)
    (hi : w'.i = w.i) (hmem : s'.mem w.i = w'.ip) (x : Option Place) :
    Owns s' (update S p (.work w')) (.own p w.i x) c ↔ w'.Holds s'.blk x c := by
  rw [← hi] at hmem ⊢
  refine Alloc.owns_own (update_self ..) (fun q v hq hv => ?_) ?_ hmem x
  · by_contra hqp
    exact hqp (h.unique hp ((update_work_iff hqp).1 hq) (hv.trans hi))
  · rw [hF.valid, hi]
    exact h.valid_work hp

theorem Inv.ledger_same (h : Inv sb s S) (hp : S p = .work w) (hF : Framed s s' w)
    (hi : w'.i = w.i) (hmem : s'.mem w.i = w'.ip) (huse : ∀ c, s'.InUse sb c ↔ s.InUse sb c)
    (hold : ∀ x c, w'.Holds s'.blk x c ↔ w.Holds s.blk x c) :
    Ledger (s'.InUse sb) (Owns s' (update S p (.work w'))) := by
  refine h.ledger.congr huse fun o c => ?_
  rcases own_or_other p w.i o with ⟨x, rfl⟩ | ho
  · rw [h.owns_own_update hp hF hi hmem, h.owns_own hp, hold]
  · exact h.owns_other hp hF hi ho

theorem Inv.ledger_take (h : Inv sb s S) (hp : S p = .work w) (hF : Framed s s' w)
    (hi : w'.i = w.i) (hmem : s'.mem w.i = w'.ip) (hb : ¬ s.InUse sb b)
    (huse : ∀ c, s'.InUse sb c ↔ s.InUse sb c ∨ c = b)
    (hold : ∀ x c, w'.Holds s'.blk x c ↔ w.Holds s.blk x c ∨ x = none ∧ c = b) :
    Ledger (s'.InUse sb) (Owns s' (update S p (.work w'))) := by
  refine h.ledger.take (a := .fresh p) hb huse fun o c => ?_
  rcases own_or_other p w.i o with ⟨x, rfl⟩ | ho
  · rw [h.owns_own_update hp hF hi hmem, h.owns_own hp, hold]
    refine or_congr_right (and_congr_left fun _ => ⟨?_, fun hx => own_inj hx⟩)
    rintro rfl
    rfl
  · rw [h.owns_other hp hF hi ho]
    exact (or_iff_left fun ⟨hfresh, _⟩ => ho none hfresh).symm

theorem Inv.ledger_drop (h : Inv sb s S) (hp : S p = .work w) (hF : Framed s s' w)
    (hi : w'.i = w.i) (hmem : s'.mem w.i = w'.ip) {x₀ : Option Place} (hb : w.Holds s.blk x₀ b)
    (huse : ∀ c, s'.InUse sb c ↔ s.InUse sb c ∧ c ≠ b)
    (hold : ∀ x c, w'.Holds s'.blk x c ↔ w.Holds s.blk x c ∧ c ≠ b) :
    Ledger (s'.InUse sb) (Owns s' (update S p (.work w'))) := by
  refine h.ledger.drop huse fun o c => ?_
  rcases own_or_other p w.i o with ⟨x, rfl⟩ | ho
  · rw [h.owns_own_update hp hF hi hmem, h.owns_own hp, hold]
  · rw [h.owns_other hp hF hi ho]
    refine (and_iff_left_of_imp fun hown hcb => ?_).symm
    exact ho x₀ (h.ledger.unique hown ((h.owns_own hp x₀).2 (hcb ▸ hb)))

theorem Inv.ledger_move (h : Inv sb s S) (hp : S p = .work w) (hF : Framed s s' w)
    (hi : w'.i = w.i) (hmem : s'.mem w.i = w'.ip) (pl : Place) (hb : w.Holds s.blk none b)
    (huse : ∀ c, s'.InUse sb c ↔ s.InUse sb c)
    (hold : ∀ x c, w'.Holds s'.blk x c ↔ w.Holds s.blk x c ∧ c ≠ b ∨ x = some pl ∧ c = b) :
    Ledger (s'.InUse sb) (Owns s' (update S p (.work w'))) := by
  refine h.ledger.move (a := .place w.i pl) (h.holds_inUse hp hb) huse fun o c => ?_
  rcases own_or_other p w.i o with ⟨x, rfl⟩ | ho
  · rw [h.owns_own_update hp hF hi hmem, h.owns_own hp, hold]
    refine or_congr_right (and_congr_left fun _ => ⟨?_, fun hx => ?_⟩)
    · rintro rfl
      rfl
    · exact own_inj (y := some pl) hx
  · rw [h.owns_other hp hF hi ho]
    have hne : ¬ (o = .place w.i pl ∧ c = b) := fun hc => ho (some pl) hc.1
    rw [or_iff_left hne]
    refine (and_iff_left_of_imp fun hown hcb => ?_).symm
    exact ho none (h.ledger.unique hown ((h.owns_own hp none).2 (hcb ▸ hb)))

omit [DecidableEq ι] in
theorem Inv.blk_indirect (h : Inv sb s S) (hp : S p = .work w) (hF : Framed s s' w) {q : ι}
    {v : Work n} (hq : S q = .work v) (hqp : q ≠ p) (hgone : v.phase ≠ .gone NDIRECT) :
    s'.blk (v.ip.addrs NDIRECT) = s.blk (v.ip.addrs NDIRECT) := by
  have hj : v.i ≠ w.i := fun hj => hqp (h.unique hp hq hj)
  by_cases h0 : v.ip.addrs NDIRECT = 0
  · rw [h0]
    refine (hF.blk 0).resolve_right ?_
    rintro ⟨x, hx⟩
    exact (h.holds_inUse hp hx).ne_zero rfl
  · refine h.blk_other hp hF hj ?_
    refine (h.owns_own hq (some (.addr NDIRECT))).2
      ⟨⟨(h.work q v hq).2.2.2.type, le_rfl, rfl, h0⟩, fun hd => ?_⟩
    cases hφ : v.phase with
    | gone k =>
      rw [hφ] at hd hgone
      exact hgone (congrArg _ hd.symm)
    | calm | hole k | seen b | fresh z hole b | cut j | entry j b =>
      rw [hφ] at hd
      exact hd.elim

omit [DecidableEq ι] in
theorem Inv.known_other (h : Inv sb s S) (hp : S p = .work w) (hF : Framed s s' w) {q : ι}
    {v : Work n} (hq : S q = .work v) (hqp : q ≠ p) : v.Known s'.blk := by
  have hknown := (h.work q v hq).2.2.2
  have hind := h.blk_indirect hp hF hq hqp
  refine ⟨hknown.type, fun k hk => ?_, hknown.intact, ?_⟩
  · rw [hind (hknown.intact (Nat.zero_lt_of_lt hk))]
    exact hknown.lead k hk
  · have hphase := hknown.phase
    cases hφ : v.phase with
    | calm | gone k | cut j => trivial
    | hole k =>
      rw [hφ] at hphase hind
      simp only [Phase.Known, hind nofun]
      exact hphase
    | seen b =>
      rw [hφ] at hphase hind
      simp only [Phase.Known, Dinode.Ref, hind nofun]
      exact hphase
    | fresh z hole b =>
      have hfresh : s'.blk b = s.blk b :=
        h.blk_fresh hp hF hqp ((h.owns_own hq none).2 (by rw [Work.Holds, hφ]; rfl))
      rw [hφ] at hphase hind
      simp only [Phase.Known, hind nofun, hfresh]
      exact hphase
    | entry j b =>
      rw [hφ] at hphase hind
      simp only [Phase.Known, Dinode.Ref, hind nofun]
      exact hphase

omit [DecidableEq ι] in
theorem Inv.full_other (h : Inv sb s S) (hp : S p = .work w) (hF : Framed s s' w) {j : Fin n}
    (hj : ¬ Worked S j) : (s'.cur j).Full s'.blk := by
  have hjw : j ≠ w.i := fun hj' => hj ⟨p, w, hp, hj'.symm⟩
  rw [hF.cur hjw]
  intro htype hdev bn hbn
  obtain ⟨hlt, hdirect, hindirect⟩ := (h.rest j hj).2 htype hdev bn hbn
  refine ⟨hlt, hdirect, fun hge => ?_⟩
  obtain ⟨h0, hword⟩ := hindirect hge
  rw [h.blk_other hp hF hjw ⟨⟨htype, le_rfl, rfl, h0⟩, ?_⟩]
  · exact ⟨h0, hword⟩
  · rintro ⟨q, v, hq, hv, -⟩
    exact hj ⟨q, v, hq, hv⟩

theorem Inv.work_step (h : Inv sb s S) (hp : S p = .work w) (hF : Framed s s' w) (hi : w'.i = w.i)
    (hmem : s'.mem w.i = w'.ip) (hdisk : (s'.disk w.i).type ≠ .free)
    (hsync : w'.sync = true → s'.disk w.i = w'.ip) (hknown : w'.Known s'.blk)
    (hboot : ∀ b < sb.datastart, s'.marked b = true)
    (hledger : Ledger (s'.InUse sb) (Owns s' (update S p (.work w')))) :
    Inv sb s' (update S p (.work w')) where
  lock q i hq := by
    rw [hF.lock]
    by_cases hqp : q = p
    · subst hqp
      rw [update_self] at hq
      refine h.lock q i ?_
      rw [hp, ← hq]
      exact congrArg some hi.symm
    · rw [update_of_ne hqp] at hq
      exact h.lock q i hq
  valid q i hq := by
    rw [hF.lock] at hq
    rw [hF.valid]
    by_cases hqp : q = p
    · subst hqp
      refine .inl ((h.valid q i hq).resolve_right fun hl => ?_)
      rw [hp] at hl
      cases hl
    · rw [update_of_ne hqp]
      exact h.valid q i hq
  work q v hq := by
    by_cases hqp : q = p
    · subst hqp
      rw [update_self] at hq
      obtain rfl := Stage.work.inj hq
      rw [hi]
      exact ⟨hmem, hdisk, hsync, hknown⟩
    · have hq' := (update_work_iff hqp).1 hq
      have hv : v.i ≠ w.i := fun hv => hqp (h.unique hp hq' hv)
      rw [hF.mem _ hv, hF.disk _ hv]
      obtain ⟨hm, ht, hs, -⟩ := h.work q v hq'
      exact ⟨hm, ht, hs, h.known_other hp hF hq' hqp⟩
  rest j hj := by
    have hj' : ¬ Worked S j := by
      rintro ⟨q, v, hq, hv⟩
      by_cases hqp : q = p
      · rw [hqp, hp] at hq
        obtain rfl := Stage.work.inj hq
        exact hj ⟨p, w', update_self .., hi.trans hv⟩
      · exact hj ⟨q, v, (update_work_iff hqp).2 hq, hv⟩
    have hjw : j ≠ w.i := fun hjw => hj' ⟨p, w, hp, hjw.symm⟩
    rw [hF.valid, hF.mem j hjw, hF.disk j hjw]
    exact ⟨(h.rest j hj').1, h.full_other hp hF hj'⟩
  ledger := hledger
  boot := hboot

end Step

end Xv6.Alloc
