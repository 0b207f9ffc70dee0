import Xv6.Alloc.Lay

/-!
# Runs of the functions on blocks

The invariant of `Xv6.Alloc.Exact` and the bookkeeping of transactions are kept by every operation
that the protocol allows (`protocol_keeps`), so they hold in every run of any number of processes
from a file system whose bitmap is exact and whose files have no holes.
-/

namespace Xv6.Alloc

open Function
open Fs (BSIZE MAXFILE Itype)

variable {n : ℕ} {ι : Type} {sb : Super} {s s' : Store n ι} {G : ι → Ghost n} {p : ι} {g : Ghost n}

/-! ## Transactions -/

/-- What a process knows of its transaction is so. -/
structure Logged (s : Store n ι) (p : ι) (g : Ghost n) : Prop where
  trans : g.writes = true → s.trans p = true
  pass : s.trans p = true → s.pass p = true → g.pass = true
  log : g.pass = true → s.logged p = g.log ∧ g.log.card ≤ MAXOPBLOCKS

theorem Logged.congr (h : Logged s p g) (htrans : s'.trans p = s.trans p)
    (hpass : s'.pass p = s.pass p) (hlogged : s'.logged p = s.logged p) : Logged s' p g where
  trans := by rw [htrans]; exact h.trans
  pass := by rw [htrans, hpass]; exact h.pass
  log := by rw [hlogged]; exact h.log

theorem Logged.rest (h : Logged s p g) (hp : g.pass = false) : Logged s p .rest where
  trans := nofun
  pass ht hpass := by
    rw [h.pass ht hpass] at hp
    cases hp
  log := nofun

/-! ## All operations -/

theorem Inv.congr {S : ι → Stage n} (h : Inv sb s S) (hbits : s'.bits = s.bits)
    (hblk : s'.blk = s.blk) (hdisk : s'.disk = s.disk) (hmem : s'.mem = s.mem)
    (hvalid : s'.valid = s.valid) (hlock : s'.lock = s.lock) : Inv sb s' S := by
  obtain ⟨bits, blk, disk, mem, valid, lock, trans, pass, logged, off⟩ := s
  obtain ⟨bits', blk', disk', mem', valid', lock', trans', pass', logged', off'⟩ := s'
  obtain rfl : bits' = bits := hbits
  obtain rfl : blk' = blk := hblk
  obtain rfl : disk' = disk := hdisk
  obtain rfl : mem' = mem := hmem
  obtain rfl : valid' = valid := hvalid
  obtain rfl : lock' = lock := hlock
  exact ⟨h.lock, h.valid, h.work, h.rest, h.ledger, h.boot⟩

def stages (G : ι → Ghost n) (p : ι) : Stage n := (G p).stage

/-- The invariant of the machine. -/
structure Good (sb : Super) (s : Store n ι) (G : ι → Ghost n) : Prop where
  inv : Inv sb s (stages G)
  logs : ∀ p, Logged s p (G p)

variable [DecidableEq ι]

theorem stages_update : stages (update G p g) = update (stages G) p g.stage := by
  funext q
  by_cases hqp : q = p
  · simp only [stages, hqp, update_self]
  · simp only [stages, update_of_ne hqp]

theorem logged_update (hp : Logged s p g) (hother : ∀ q, q ≠ p → Logged s q (G q)) (q : ι) :
    Logged s q (update G p g q) := by
  by_cases hqp : q = p
  · rw [hqp, update_self]
    exact hp
  · rw [update_of_ne hqp]
    exact hother q hqp

theorem Good.log (h : Good sb s G) (hs : Inv sb s' (stages G)) (hg : g.stage = (G p).stage)
    (hp : Logged s' p g) (hother : ∀ q, q ≠ p → s'.trans q = s.trans q ∧ s'.pass q = s.pass q ∧
      s'.logged q = s.logged q) : Good sb s' (update G p g) := by
  refine ⟨?_, logged_update hp fun q hq => ?_⟩
  · rw [stages_update, hg]
    exact (update_eq_self p (stages G)).symm ▸ hs
  · obtain ⟨htrans, hpass, hlogged⟩ := hother q hq
    exact (h.logs q).congr htrans hpass hlogged

theorem Good.move {σ : Stage n} (h : Good sb s G)
    (hs : Inv sb s' (update (stages G) p σ)) (htrans : s'.trans = s.trans)
    (hpass : s'.pass = s.pass) (hlogged : s'.logged = s.logged) :
    Good sb s' (update G p { G p with stage := σ }) := by
  have hsame : ∀ q, Logged s' q (G q) := fun q =>
    (h.logs q).congr (congrFun htrans q) (congrFun hpass q) (congrFun hlogged q)
  refine ⟨?_, logged_update ?_ fun q _ => hsame q⟩
  · rw [stages_update]
    exact hs
  · exact ⟨(hsame p).trans, (hsame p).pass, (hsame p).log⟩

theorem Inv.acquire {S : ι → Stage n} {i : Fin n} (h : Inv sb s S) (hp : S p = .idle)
    (hi : s.lock i = none) : Inv sb (s.setLock i (some p)) (update S p (.locking i)) := by
  refine h.stage (h.not_worked hi) ?_ nofun (.inl hi) (.inr rfl) ?_ (fun _ => .inr rfl) ?_
  · intro w hw
    rw [hp] at hw
    cases hw
  · intro j hj
    exact ⟨(Option.some.inj hj).symm, rfl⟩
  · intro j hj
    rw [hp] at hj
    cases hj

theorem Inv.hold {S : ι → Stage n} {i : Fin n} {σ : Stage n} (h : Inv sb s S)
    (hp : S p = .idle ∨ S p = .locking i) (hi : s.lock i = some p) (hσ : ∀ w, σ ≠ .work w)
    (hinode : σ.inode = some i) (hvalid : s.valid i = true ∨ σ = .locking i) :
    Inv sb s (update S p σ) := by
  have hwork : ∀ w, S p ≠ .work w := by
    intro w hw
    rw [hw] at hp
    exact hp.elim nofun nofun
  have hlock : s.setLock i (some p) = s := by
    rw [Store.setLock, ← hi, update_eq_self]
  rw [← hlock]
  refine h.stage (h.not_worked_of_lock hi fun w hw => absurd hw (hwork w)) hwork hσ (.inr hi)
    (.inr rfl) (fun j hj => ?_) (fun _ => hvalid) (fun j hj => ?_)
  · exact ⟨Option.some.inj (hj.symm.trans hinode), rfl⟩
  · rw [hj] at hp
    exact hp.elim nofun fun heq => Stage.locking.inj heq

theorem Inv.release {S : ι → Stage n} {i : Fin n} (h : Inv sb s S) (hp : ∀ w, S p ≠ .work w)
    (hlocking : ∀ j, S p = .locking j → j = i) (hi : s.lock i = some p) :
    Inv sb (s.setLock i none) (update S p .idle) :=
  h.stage (h.not_worked_of_lock hi fun w hw => absurd hw (hp w)) hp nofun (.inr hi) (.inl rfl)
    nofun nofun hlocking

theorem Inv.rests {S : ι → Stage n} (h : Inv sb s S) (hp : ∀ w, S p ≠ .work w)
    (hlocking : ∀ j, S p ≠ .locking j) : Inv sb s (update S p .idle) := by
  cases hS : S p with
  | idle =>
    rw [← hS, update_eq_self]
    exact h
  | locking j => exact absurd hS (hlocking j)
  | work w => exact absurd hS (hp w)
  | held i =>
    have hi : s.lock i = some p := h.lock p i (by rw [hS]; rfl)
    have hvalid : s.valid i = true := (h.valid p i hi).resolve_right (hlocking i)
    have hlock : s.setLock i (some p) = s := by
      rw [Store.setLock, ← hi, update_eq_self]
    rw [← hlock]
    exact h.stage (h.not_worked_of_lock hi fun w hw => absurd hw (hp w)) hp nofun (.inr hi)
      (.inr rfl) nofun (fun _ => .inl hvalid) fun j hj => absurd hj (hlocking j)

theorem Inv.same {S : ι → Stage n} {w : Work n} (h : Inv sb s S) (hp : S p = .work w) :
    Inv sb s (update S p (.work w)) := by
  rw [← hp, update_eq_self]
  exact h

theorem Good.work {w : Work n} {o : Op n} {r : o.Answer} (h : Good sb s G)
    (hnext : (G p).next o r = { G p with stage := .work (w.next o r) })
    (hs : Inv sb s' (update (stages G) p (.work (w.next o r))))
    (htrans : s'.trans = s.trans) (hpass : s'.pass = s.pass) (hlogged : s'.logged = s.logged) :
    Good sb s' (update G p ((G p).next o r)) := by
  rw [hnext]
  exact h.move hs htrans hpass hlogged

theorem Good.same (h : Good sb s G) (hg : g = G p) : Good sb s (update G p g) := by
  rw [hg, update_eq_self]
  exact h

variable {i : Fin n}

theorem Good.found (h : Good sb s G) (hp : stages G p = .locking i) (hvalid : s.valid i = true) :
    Good sb s (update G p { G p with stage := .held i }) :=
  h.move (h.inv.hold (.inr hp) (h.inv.lock p i (by rw [hp]; rfl)) nofun rfl (.inl hvalid))
    rfl rfl rfl

theorem Good.releasesleep (h : Good sb s G) (hallow : (G p).Allows (.releasesleep i)) :
    Good sb (s.setLock i none) (update G p { G p with stage := .idle }) := by
  refine h.move ?_ rfl rfl rfl
  rcases hallow with hl | hh | ⟨w, hw, rfl, hc⟩
  · have hS : stages G p = .locking i := hl
    exact h.inv.release (fun w hw => by cases hS.symm.trans hw)
      (fun j hj => (Stage.locking.inj (hS.symm.trans hj)).symm)
      (h.inv.lock p i (by rw [hS]; rfl))
  · have hS : stages G p = .held i := hh
    exact h.inv.release (fun w hw => by cases hS.symm.trans hw)
      (fun j hj => by cases hS.symm.trans hj) (h.inv.lock p i (by rw [hS]; rfl))
  · have hS : stages G p = .work w := hw
    have hlay := h.inv.lay hS hc
    have hrel := hlay.release (p := p) (i := w.i)
      (fun v hv => by rw [update_self] at hv; cases hv)
      (fun j hj => by rw [update_self] at hj; cases hj)
      (h.inv.lock p w.i (by rw [hS]; rfl))
    rwa [update_idem] at hrel

theorem Good.inode (h : Good sb s G) (hallow : (G p).Allows (.inode i)) :
    (G p).Answers (.inode i) (s.mem i) ∧
      Good sb s (update G p ((G p).next (.inode i) (s.mem i))) := by
  rcases hallow with hh | ⟨w, hw, rfl⟩
  · obtain ⟨⟨htype, hfull⟩, hbegin⟩ := h.inv.begin hh
    simp only [Ghost.Answers, Ghost.next, hh]
    refine ⟨⟨htype, fun hdev bn hbn => ?_⟩, h.move hbegin rfl rfl rfl⟩
    obtain ⟨hlt, hdirect, hind⟩ := hfull hdev bn hbn
    exact ⟨hlt, hdirect, fun hge => (hind hge).1⟩
  · simp only [Ghost.Answers, Ghost.next, hw]
    exact ⟨(h.inv.work p w hw).1, h.same rfl⟩

theorem Good.word {w : Work n} {site : Site} {b k : ℕ} (h : Good sb s G)
    (hw : (G p).stage = .work w) (hallow : w.Allows (.word site b k)) :
    w.Answers (.word site b k) ((s.blk b).word k) ∧
      Good sb s (update G p ((G p).next (.word site b k) ((s.blk b).word k))) := by
  cases site with
  | bmap =>
    obtain ⟨rfl, h0, hk, hq⟩ := hallow
    exact ⟨fun hlt => ((h.inv.work p w hw).2.2.2.lead k hlt).2.2,
      h.work (w := w) (by simp only [Ghost.next, hw]) (h.inv.word_bmap hw hq h0 hk) rfl rfl rfl⟩
  | itrunc =>
    obtain ⟨rfl, h0, hj, hφ⟩ := hallow
    exact ⟨trivial,
      h.work (w := w) (by simp only [Ghost.next, hw]) (h.inv.word_itrunc hw hφ h0 hj) rfl rfl rfl⟩

variable [Fintype ι]

theorem Good.load {r : Bool} (h : Good sb s G) (hp : stages G p = .locking i)
    (hperform : (Op.load i).perform sb p s = some (r, s')) :
    Good sb s' (update G p ((G p).next (.load i) r)) := by
  have hi : s.lock i = some p := h.inv.lock p i (by rw [hp]; rfl)
  have hworked : ¬ Worked (stages G) i :=
    h.inv.not_worked_of_lock hi fun w hw => by cases hp.symm.trans hw
  rcases Op.perform_load hperform with
    ⟨hvalid, rfl, rfl⟩ | ⟨-, htype, rfl, rfl⟩ | ⟨-, -, rfl, rfl⟩
  · exact h.found hp hvalid
  · have hcopy := h.inv.copy (x := s.disk i) (v := true) hworked (fun _ => ⟨rfl, htype⟩)
      fun _ _ => .inl rfl
    exact h.move (hcopy.hold (.inr hp) hi nofun rfl (.inl (update_self ..))) rfl rfl rfl
  · exact h.same rfl

theorem Good.balloc {w : Work n} {bb : ℕ} {r : Option ℕ} (h : Good sb s G)
    (hw : (G p).stage = .work w) (hq : w.phase.Quiet)
    (hperform : (Op.balloc (n := n) bb).perform sb p s = some (r, s')) :
    w.Answers (.balloc bb) r ∧ Good sb s' (update G p ((G p).next (.balloc bb) r)) := by
  have hnext : ∀ r, (G p).next (.balloc bb) r =
      { G p with stage := .work (w.next (.balloc bb) r) } := by
    intro r
    simp only [Ghost.next, hw]
  rcases Op.perform_balloc hperform with ⟨bi, hfind, rfl, rfl⟩ | ⟨-, rfl, rfl⟩
  · obtain ⟨h0, hinv⟩ := h.inv.balloc hw hq hfind
    refine ⟨fun b hb => ?_, h.work (hnext _) hinv rfl rfl rfl⟩
    cases hb
    exact h0
  · refine ⟨fun b hb => (by cases hb), h.work (hnext _) ?_ rfl rfl rfl⟩
    exact h.inv.same hw

theorem Good.bfree {w : Work n} {place : Place} {b : ℕ} {r : Bool} (h : Good sb s G)
    (hw : (G p).stage = .work w) (hallow : w.Allows (.bfree place b))
    (hperform : (Op.bfree (n := n) place b).perform sb p s = some (r, s')) :
    r = true ∧ Good sb s' (update G p ((G p).next (.bfree place b) r)) := by
  have hfree : s.marked b = true ∧ Inv sb (s.clearMark b)
      (update (stages G) p (.work (w.next (.bfree place b) true))) := by
    cases place with
    | addr k =>
      obtain ⟨hb, h0, ⟨hk, hq⟩ | ⟨rfl, hφ⟩⟩ := hallow
      · exact h.inv.bfree_direct hw hq hk hb h0
      · exact h.inv.bfree_indirect hw hφ hb h0
    | entry j => exact h.inv.bfree_entry hw hallow
  obtain ⟨rfl, rfl⟩ : true = r ∧ s.clearMark b = s' :=
    ((Op.perform_bfree hperform).resolve_right fun hm => hm.1 hfree.1).2
  exact ⟨rfl, h.work (w := w) (by simp only [Ghost.next, hw]) hfree.2 rfl rfl rfl⟩

theorem Good.logWrite {b : ℕ} {r : Bool} (h : Good sb s G) (hallow : (G p).Allows (.logWrite b))
    (hperform : (Op.logWrite (n := n) b).perform sb p s = some (r, s')) :
    r = true ∧ Good sb s' (update G p ((G p).next (.logWrite b) r)) := by
  obtain ⟨hwrites, hcard⟩ := hallow
  have htrans : ∃ q, s.trans q = true := ⟨p, (h.logs p).trans hwrites⟩
  obtain ⟨-, rfl, rfl⟩ := (Op.perform_logWrite hperform).resolve_right fun hn => hn.1 htrans
  refine ⟨rfl, h.log (h.inv.congr rfl rfl rfl rfl rfl rfl) rfl
    ⟨(h.logs p).trans, (h.logs p).pass, fun hpass => ⟨?_, hcard hpass⟩⟩
    fun q hq => ⟨rfl, rfl, update_of_ne hq ..⟩⟩
  refine (update_self ..).trans ?_
  rw [((h.logs p).log hpass).1]
  rfl

theorem Good.run {o : Op n} {r : o.Answer} (h : Good sb s G) (hallow : (G p).Allows o)
    (hperform : o.perform sb p s = some (r, s')) :
    (G p).Answers o r ∧ Good sb s' (update G p ((G p).next o r)) := by
  cases o with
  | beginOp pass =>
    cases hperform
    refine ⟨fun _ _ => trivial, h.log (h.inv.congr rfl rfl rfl rfl rfl rfl) rfl
      ⟨fun _ => update_self .., fun _ hpass => (update_self ..).symm.trans hpass,
        fun _ => ⟨update_self .., Nat.zero_le _⟩⟩
      fun q hq => ⟨update_of_ne hq .., update_of_ne hq .., update_of_ne hq ..⟩⟩
  | endOp =>
    cases hperform
    refine ⟨fun _ _ => trivial, h.log (h.inv.congr rfl rfl rfl rfl rfl rfl) rfl
      ⟨nofun, fun ht => ?_, nofun⟩ fun q hq => ⟨update_of_ne hq .., rfl, rfl⟩⟩
    have ht : update s.trans p false p = true := ht
    rw [update_self] at ht
    cases ht
  | inTrans =>
    obtain ⟨ht, rfl⟩ := Op.perform_inTrans hperform
    exact ⟨fun _ _ => trivial, h.log h.inv rfl ⟨fun _ => ht, (h.logs p).pass, (h.logs p).log⟩
      fun _ _ => ⟨rfl, rfl, rfl⟩⟩
  | holding i =>
    obtain ⟨hi, rfl⟩ := Op.perform_holding hperform
    have hvalid : s.valid i = true := by
      refine (h.inv.valid p i hi).resolve_right fun hl => ?_
      cases hallow.symm.trans hl
    exact ⟨fun _ _ => trivial, h.move (h.inv.hold (.inl hallow) hi nofun rfl (.inl hvalid))
      rfl rfl rfl⟩
  | acquiresleep i =>
    obtain ⟨hi, rfl⟩ := Op.perform_acquiresleep hperform
    exact ⟨fun _ _ => trivial, h.move (h.inv.acquire hallow hi) rfl rfl rfl⟩
  | releasesleep i =>
    cases hperform
    exact ⟨fun _ _ => trivial, h.releasesleep hallow⟩
  | load i => exact ⟨fun _ _ => trivial, h.load hallow hperform⟩
  | valid i =>
    cases hperform
    refine ⟨fun _ _ => trivial, ?_⟩
    cases hvalid : s.valid i with
    | true => exact h.found hallow hvalid
    | false => exact h.same rfl
  | inode i =>
    cases hperform
    exact h.inode hallow
  | setAddr i k b =>
    cases hperform
    obtain ⟨w, hw, rfl, hk, hcase⟩ := hallow
    refine ⟨fun _ _ => trivial, h.work (w := w) (by simp only [Ghost.next, hw]) ?_ rfl rfl rfl⟩
    rcases hcase with ⟨⟨hole, hφ⟩, h0⟩ | ⟨hφ, rfl⟩
    · exact h.inv.setAddr hw hφ hk h0
    · exact h.inv.clearAddr hw hφ
  | setSize i _ | setNlink i _ =>
    cases hperform
    obtain ⟨w, hw, rfl, hq⟩ := hallow
    refine ⟨fun _ _ => trivial, h.work (w := w) (by simp only [Ghost.next, hw]) ?_ rfl rfl rfl⟩
    rw [(h.inv.work p w hw).1]
    exact h.inv.setField hw rfl rfl
  | iupdate i =>
    cases hperform
    obtain ⟨w, hw, rfl, hq⟩ := hallow
    exact ⟨fun _ _ => trivial, h.work (w := w) (by simp only [Ghost.next, hw]) (h.inv.iupdate hw)
      rfl rfl rfl⟩
  | freeInode i =>
    cases hperform
    obtain ⟨w, hw, rfl, hq, h0⟩ := hallow
    exact ⟨fun _ _ => trivial, h.move (h.inv.freeInode hw hq h0) rfl rfl rfl⟩
  | ialloc i type =>
    have hidle : (G p).stage = .idle := hallow.1
    have hnext : (G p).next (.ialloc i type) r = G p := by simp only [Ghost.next, hidle]
    rw [hnext]
    rcases Op.perform_ialloc hperform with ⟨hfree, rfl, rfl⟩ | ⟨-, rfl, rfl⟩
    · exact ⟨fun _ _ => trivial, h.log (h.inv.ialloc hfree) rfl
        ((h.logs p).congr rfl rfl rfl) fun _ _ => ⟨rfl, rfl, rfl⟩⟩
    · exact ⟨fun _ _ => trivial, h.same rfl⟩
  | evict i =>
    have hidle : (G p).stage = .idle := hallow
    have hnext : (G p).next (.evict i) r = G p := by simp only [Ghost.next, hidle]
    rw [hnext]
    obtain ⟨hi, rfl⟩ := Op.perform_evict hperform
    have hcopy := h.inv.copy (x := s.mem i) (v := false) (h.inv.not_worked hi) nofun
      fun q hq => by cases hi.symm.trans hq
    rw [Store.setMem, update_eq_self] at hcopy
    exact ⟨fun _ _ => trivial, h.log hcopy rfl ((h.logs p).congr rfl rfl rfl)
      fun _ _ => ⟨rfl, rfl, rfl⟩⟩
  | balloc bb =>
    obtain ⟨-, w, hw, hq⟩ := hallow
    obtain ⟨hanswer, hgood⟩ := h.balloc hw hq hperform
    refine ⟨fun v hv => ?_, hgood⟩
    exact Stage.work.inj (hw.symm.trans hv) ▸ hanswer
  | bzero b =>
    cases hperform
    obtain ⟨w, hw, z, hole, hφ⟩ := hallow
    exact ⟨fun _ _ => trivial, h.work (w := w) (by simp only [Ghost.next, hw])
      (h.inv.bzero hw hφ) rfl rfl rfl⟩
  | bfree place b =>
    obtain ⟨w, hw, hallow⟩ := hallow
    obtain ⟨hanswer, hgood⟩ := h.bfree hw hallow hperform
    exact ⟨fun _ _ => hanswer, hgood⟩
  | word site b k =>
    cases hperform
    obtain ⟨w, hw, hallow⟩ := hallow
    obtain ⟨hanswer, hgood⟩ := h.word hw hallow
    refine ⟨fun v hv => ?_, hgood⟩
    exact Stage.work.inj (hw.symm.trans hv) ▸ hanswer
  | setWord b k v =>
    cases hperform
    obtain ⟨w, hw, rfl, h0, hk, z, hφ⟩ := hallow
    exact ⟨fun _ _ => trivial, h.work (w := w) (by simp only [Ghost.next, hw])
      (h.inv.setWord hw hφ h0 hk) rfl rfl rfl⟩
  | copyout b pos m =>
    cases hperform
    obtain ⟨w, hw, -⟩ := hallow
    exact ⟨fun _ _ => trivial, h.work (w := w) (by simp only [Ghost.next, hw]) (h.inv.same hw)
      rfl rfl rfl⟩
  | copyin b pos src =>
    cases hperform
    obtain ⟨w, hw, hq, hdata⟩ := hallow
    exact ⟨fun _ _ => trivial, h.work (w := w) (by simp only [Ghost.next, hw])
      (h.inv.copyin hw hq hdata) rfl rfl rfl⟩
  | logFull =>
    cases hperform
    exact ⟨fun _ _ => trivial, h.same rfl⟩
  | logWrite b => exact h.logWrite hallow hperform
  | off f =>
    cases hperform
    refine ⟨fun _ _ => trivial, h.same ?_⟩
    cases hS : (G p).stage with
    | idle | locking i | held i => simp only [Ghost.next, hS]
    | work w =>
      simp only [Ghost.next, hS]
      exact hS ▸ rfl
  | addOff f m =>
    cases hperform
    have hgood : Good sb { s with off := update s.off f (s.off f + m) } G :=
      ⟨h.inv.congr rfl rfl rfl rfl rfl rfl, fun q => (h.logs q).congr rfl rfl rfl⟩
    refine ⟨fun _ _ => trivial, hgood.same ?_⟩
    cases hS : (G p).stage with
    | idle | locking i | held i => simp only [Ghost.next, hS]
    | work w =>
      simp only [Ghost.next, hS]
      exact hS ▸ rfl

theorem protocol_keeps :
    (protocol n).Keeps Ghost.Quits .rest .rest (machine n ι sb) (fun _ _ => True) (Good sb) where
  follows := prog_follows sb
  start s G p h hp _ := by
    rw [← hp, update_eq_self]
    exact h
  run T G p o k r s _ _ h _ _ hallow hperform := h.run hallow hperform
  done s G p h hq := by
    obtain ⟨hpass, hlocking, hclean⟩ := hq
    refine ⟨?_, logged_update ((h.logs p).rest hpass) fun q _ => h.logs q⟩
    rw [stages_update]
    cases hS : (G p).stage with
    | work w => exact h.inv.lay hS (hclean w hS)
    | idle | locking i | held i =>
      refine h.inv.rests (fun w hw => ?_) hlocking
      cases hS.symm.trans hw

/-! ## File systems -/

omit [DecidableEq ι] [Fintype ι]

/-- After booting: no inode is in memory and no process is in a call. -/
structure Booted (s : Store n ι) : Prop where
  valid : ∀ i, s.valid i = false
  lock : ∀ i, s.lock i = none
  trans : ∀ p, s.trans p = false

/-- The bitmap is exact: a block is marked iff it is before the blocks of the files, or exactly one
place of an allocated inode on the disk refers to it; none is referred to twice. -/
structure Exact (sb : Super) (s : Store n ι) : Prop where
  marked_iff : ∀ b < sb.size, s.marked b = true ↔
    b < sb.datastart ∨ ∃! x : Fin n × Place, (s.disk x.1).Ref s.blk x.2 b
  unique : ∀ b (x y : Fin n × Place), (s.disk x.1).Ref s.blk x.2 b → (s.disk y.1).Ref s.blk y.2 b →
    x = y
  range : ∀ b (x : Fin n × Place), (s.disk x.1).Ref s.blk x.2 b → sb.datastart ≤ b ∧ b < sb.size

def Whole (s : Store n ι) : Prop := ∀ i, (s.disk i).Full s.blk

theorem Inv.cur_eq {S : ι → Stage n} (h : Inv sb s S) (hS : ∀ p, S p = .idle) (i : Fin n) :
    s.cur i = s.disk i := by
  have hi : ¬ Worked S i := by
    rintro ⟨p, w, hp, -⟩
    rw [hS] at hp
    cases hp
  unfold Store.cur
  split
  · rename_i hv
    exact ((h.rest i hi).1 hv).1
  · rfl

theorem Inv.owns_place {S : ι → Stage n} (h : Inv sb s S) (hS : ∀ p, S p = .idle) (i : Fin n)
    (pl : Place) (b : ℕ) : Owns s S (.place i pl) b ↔ (s.disk i).Ref s.blk pl b := by
  rw [← h.cur_eq hS i]
  refine and_iff_left ?_
  rintro ⟨p, w, hp, -⟩
  rw [hS] at hp
  cases hp

theorem Inv.exact {S : ι → Stage n} (h : Inv sb s S) (hS : ∀ p, S p = .idle) : Exact sb s := by
  have hplace := h.owns_place hS
  have hunique : ∀ b (x y : Fin n × Place), (s.disk x.1).Ref s.blk x.2 b →
      (s.disk y.1).Ref s.blk y.2 b → x = y := by
    intro b x y hx hy
    have heq := h.ledger.unique ((hplace _ _ _).2 hx) ((hplace _ _ _).2 hy)
    obtain ⟨hi, hpl⟩ := Owner.place.inj heq
    exact Prod.ext hi hpl
  refine ⟨fun b hb => ⟨fun hm => ?_, ?_⟩, hunique, fun b x hx => ?_⟩
  · rcases Nat.lt_or_ge b sb.datastart with hlt | hge
    · exact .inl hlt
    · obtain ⟨o, ho⟩ := h.ledger.complete ⟨hm, hge, hb⟩
      cases o with
      | fresh p =>
        obtain ⟨w, hp, -⟩ := ho
        rw [hS] at hp
        cases hp
      | place i pl =>
        have href := (hplace i pl b).1 ho
        exact .inr ⟨(i, pl), href, fun y hy => hunique b y (i, pl) hy href⟩
  · rintro (hlt | ⟨x, hx, -⟩)
    · exact h.boot b hlt
    · exact (h.ledger.sound ((hplace _ _ _).2 hx)).1
  · exact (h.ledger.sound ((hplace _ _ _).2 hx)).2

theorem Inv.whole {S : ι → Stage n} (h : Inv sb s S) (hS : ∀ p, S p = .idle) : Whole s := by
  intro i
  rw [← h.cur_eq hS i]
  refine (h.rest i ?_).2
  rintro ⟨p, w, hp, -⟩
  rw [hS] at hp
  cases hp

theorem Booted.good (h : Booted s) (hexact : Exact sb s) (hwhole : Whole s) :
    Good sb s fun _ => .rest := by
  have hcur : ∀ i, s.cur i = s.disk i := fun i => if_neg (by rw [h.valid i]; exact nofun)
  have howns : ∀ i pl b, Owns s (stages fun _ => .rest) (.place i pl) b ↔
      (s.disk i).Ref s.blk pl b := by
    intro i pl b
    show _ ∧ _ ↔ _
    rw [hcur]
    refine and_iff_left ?_
    rintro ⟨p, w, hp, -⟩
    cases hp
  refine ⟨⟨nofun, fun p i hp => ?_, nofun, fun i _ => ⟨fun hv => ?_, ?_⟩, ⟨?_, ?_, ?_⟩, ?_⟩,
    fun p => ⟨nofun, fun ht => ?_, nofun⟩⟩
  · rw [h.lock i] at hp
    cases hp
  · rw [h.valid i] at hv
    cases hv
  · rw [hcur]
    exact hwhole i
  · intro o b ho
    cases o with
    | fresh p =>
      obtain ⟨w, hp, -⟩ := ho
      cases hp
    | place i pl =>
      have href := (howns i pl b).1 ho
      have hrange := hexact.range b (i, pl) href
      refine ⟨(hexact.marked_iff b hrange.2).2 (.inr ⟨(i, pl), href, fun y hy => ?_⟩), hrange⟩
      exact hexact.unique b y (i, pl) hy href
  · intro o o' b ho ho'
    cases o with
    | fresh p =>
      obtain ⟨w, hp, -⟩ := ho
      cases hp
    | place i pl =>
      cases o' with
      | fresh p =>
        obtain ⟨w, hp, -⟩ := ho'
        cases hp
      | place j pl' =>
        have heq := hexact.unique b (i, pl) (j, pl') ((howns i pl b).1 ho) ((howns j pl' b).1 ho')
        cases heq
        rfl
  · rintro b ⟨hm, hge, hlt⟩
    obtain hb | ⟨⟨i, pl⟩, hx, -⟩ := (hexact.marked_iff b hlt).1 hm
    · exact absurd hb (Nat.not_lt.2 hge)
    · exact ⟨.place i pl, (howns i pl b).2 hx⟩
  · exact fun b hb => (hexact.marked_iff b (hb.trans_le sb.datastart_le)).2 (.inl hb)
  · rw [h.trans p] at ht
    cases ht

end Xv6.Alloc
