import Xv6.Fs.CallsFollow
import Xv6.Fs.Held
import Mathlib.Logic.Relation

/-!
# Inode locks

A call locks a directory before an inode that one of its entries names, and a new inode after the
directory that it is made in. Directories can be numbered so that every name leads from a smaller to
a larger number: a new directory gets the largest one, and no call writes a name for a directory
that exists already. So the processes that wait for each other's locks wait for larger and larger
numbers, and there is no cycle.

Two places of the source break the order. `dirlink` puts back the inode that it has found with the
directory locked, and `"."` and `".."` lead to the directory itself or to the one above. And the
`iunlockput(dp)` of `create` and `sys_unlink` unlocks the directory and then locks it again in
`iput`, with the inode below it locked; another process may have locked it in between.
-/

namespace Xv6.Fs

open Function Ghost Run

def waits (T : System) (p : Pid) : Option ℕ :=
  match T.pending p with
  | some (.acquiresleep _ i) => some i
  | _ => none

def WaitsFor (T : System) (p q : Pid) : Prop :=
  ∃ i, waits T p = some i ∧ T.shared.lock i = some q

def Orderly (T : System) : Event → Prop
  | .run p =>
    match T.pending p with
    | some (.iget (.dirlink name) _) => name ≠ dot ∧ name ≠ dotdot
    | some (.acquiresleep _ i) => ∀ q, q ≠ p → T.pending q ≠ some (.acquiresleep .parent i)
    | _ => True
  | _ => True

instance decidableOrderly (T : System) : ∀ e, Decidable (Orderly T e)
  | .run p => by
    unfold Orderly
    dsimp only
    split
    all_goals infer_instance
  | .start _ _ => isTrue trivial
  | .done _ => isTrue trivial

def Disk.Ranks (s : Disk) (rank : ℕ → ℕ) : Prop :=
  ∀ dp e, (s.inode dp).type = .dir → e ∈ (s.inode dp).ents → e.inum ≠ 0 → e.name ≠ dot →
    e.name ≠ dotdot → (s.inode e.inum).type = .dir → rank dp < rank e.inum

/-- The lock order. -/
structure Ranked (s : Disk) (G : Pid → Ghost) (rank : ℕ → ℕ) : Prop where
  entry : s.Ranks rank
  fresh : ∀ p i type, (G p).fresh = some (i, type) → ∀ j, (G p).Locked j → j ≠ i →
    (∃ c, (G p).known j = some c) ∧ rank j < rank i
  window : ∀ p i, (G p).window = some i → s.lock i = none

namespace Ranked

variable {n : ℕ} {s s' : Disk} {G : Pid → Ghost} {p q : Pid} {g : Ghost} {rank : ℕ → ℕ} {i : ℕ}

theorem of_step (h : Ranked s G rank) (hentry : s'.Ranks rank)
    (hfresh : ∀ i type, g.fresh = some (i, type) → ∀ j, g.Locked j → j ≠ i →
      (∃ c, g.known j = some c) ∧ rank j < rank i)
    (hwindow : ∀ i, g.window = some i → s'.lock i = none)
    (hother : ∀ q, q ≠ p → ∀ i, (G q).window = some i → s'.lock i = none) :
    Ranked s' (update G p g) rank where
  entry := hentry
  fresh q := by
    by_cases hq : q = p
    · subst hq
      rw [update_self]
      exact hfresh
    · rw [update_of_ne hq]
      exact h.fresh q
  window q := by
    by_cases hq : q = p
    · subst hq
      rw [update_self]
      exact hwindow
    · rw [update_of_ne hq]
      exact hother q hq

theorem window_eq_none {o : Op} (hu : (G p).Urgent o) (ho : ∀ i, o ≠ .acquiresleep .parent i) :
    (G p).window = none := by
  cases hw : (G p).window with
  | none => rfl
  | some i => exact absurd (hu.window i hw) (ho i)

theorem of_same (h : Ranked s G rank) (hinode : s'.inode = s.inode) (hlock : s'.lock = s.lock)
    (hfresh : g.fresh = (G p).fresh) (hlocks : g.locks = (G p).locks) (hwindow : g.window = none) :
    Ranked s' (update G p g) rank := by
  refine h.of_step ?_ (fun i type hf j hj hne => ?_) (fun i hi => ?_) fun q hq i hi => ?_
  · rw [Disk.Ranks, hinode]
    exact h.entry
  · rw [hfresh] at hf
    rw [Locked, hlocks] at hj
    rw [known, hlocks]
    exact h.fresh p i type hf j hj hne
  · rw [hwindow] at hi
    cases hi
  · rw [hlock]
    exact h.window q i hi

theorem of_none (h : Ranked s G rank) (hentry : s'.Ranks rank) (hlock : s'.lock = s.lock)
    (hfresh : g.fresh = none) (hwindow : g.window = none) : Ranked s' (update G p g) rank := by
  refine h.of_step hentry (fun i type hf => ?_) (fun i hi => ?_) fun q hq i hi => ?_
  · rw [hfresh] at hf
    cases hf
  · rw [hwindow] at hi
    cases hi
  · rw [hlock]
    exact h.window q i hi

theorem acquiresleep_step {site : Site} (h : Ranked s G rank)
    (ha : allows n False True (G p) (.acquiresleep site i))
    (hmine : ∀ q, q ≠ p → (G q).window ≠ some i)
    (hr : (Op.acquiresleep site i).perform n p s = some ((), s')) :
    Ranked s' (update G p ((G p).next (.acquiresleep site i) ())) rank := by
  simp only [Op.perform] at hr
  split at hr
  · cases hr
    refine h.of_step h.entry (fun k type hf j hj hne => ?_) (fun k hk => by cases hk)
      fun q hq j hj => ?_
    · -- With a new inode in hand, it is the one that is locked.
      obtain rfl : i = k := by
        rcases ha.2.2 trivial with ⟨hf', -⟩ | ⟨dp, c, -, -, ⟨⟨type', hf'⟩, -⟩ | ⟨hf', -⟩⟩
        · exact absurd (hf'.symm.trans hf) (by simp)
        · exact (Prod.mk.inj (Option.some.inj (hf'.symm.trans hf))).1
        · exact absurd (hf'.symm.trans hf) (by simp)
      have hj' : (G p).Locked j := (List.mem_cons.1 hj).resolve_left hne
      obtain ⟨⟨c, hc⟩, hlt⟩ := h.fresh p i type hf j hj' hne
      refine ⟨⟨c, ?_⟩, hlt⟩
      simpa [Ghost.next, known, List.lookup_cons, beq_false_of_ne hne] using hc
    · have hji : j ≠ i := by
        rintro rfl
        exact hmine q hq hj
      exact (update_of_ne hji ..).trans (h.window q j hj)
  · cases hr

theorem releasesleep_step {site : Site} (h : Ranked s G rank) :
    Ranked (s.setLock i none) (update G p ((G p).next (.releasesleep site i) ())) rank := by
  have hlock : ∀ j, s.lock j = none → (s.setLock i none).lock j = none := by
    intro j hj
    by_cases hji : j = i
    · rw [hji]
      exact update_self ..
    · exact (update_of_ne hji ..).trans hj
  refine h.of_step h.entry (fun k type hf j hj hne => ?_) (fun k hk => ?_)
    fun q hq j hj => hlock j (h.window q j hj)
  · obtain ⟨hj', hji⟩ := locked_unlock.1 hj
    obtain ⟨⟨c, hc⟩, hlt⟩ := h.fresh p k type hf j hj' hne
    exact ⟨⟨c, (known_unlock_of_ne hji).trans hc⟩, hlt⟩
  · simp only [Ghost.next] at hk
    split at hk
    · rw [← Option.some.inj hk]
      exact update_self ..
    · cases hk

theorem fresh_learn {x : Option Inode} (h : Ranked s G rank) (hl : (G p).Locked i)
    (hx : x = none → (G p).known i = none) {k j : ℕ} {type : Itype}
    (hf : (G p).fresh = some (k, type)) (hj : ((G p).learn i x).Locked j) (hne : j ≠ k) :
    (∃ c, ((G p).learn i x).known j = some c) ∧ rank j < rank k := by
  obtain ⟨⟨c, hc⟩, hlt⟩ := h.fresh p k type hf j (locked_learn.1 hj) hne
  refine ⟨?_, hlt⟩
  by_cases hji : j = i
  · subst hji
    rw [known_learn_self hl]
    cases x with
    | none => exact absurd (hc.symm.trans (hx rfl)) (by simp)
    | some c' => exact ⟨c', rfl⟩
  · rw [known_learn_of_ne hji]
    exact ⟨c, hc⟩

theorem writei_step {dp off inum : ℕ} {name : Name} {r : Bool} (h : Ranked s G rank)
    (hb : Base n s G) (hn : n ≤ 65536)
    (ha : allows n False True (G p) (.writei dp off inum name))
    (hu : (G p).Urgent (.writei dp off inum name))
    (hr : (Op.writei dp off inum name).perform n p s = some (r, s')) :
    Ranked s' (update G p ((G p).next (.writei dp off inum name) r)) rank := by
  have hp := hb.holds p
  have hwindow : (G p).window = none := window_eq_none hu (by simp)
  obtain ⟨-, ⟨c, hk, hdir⟩, -, hname, -⟩ := ha
  obtain ⟨hc, -⟩ := hp.known dp c hk
  obtain ⟨L, F, D, hw⟩ := Counts.wrote_eq (G p) dp off inum name
  simp only [Op.perform] at hr
  split at hr
  · cases hr
    refine h.of_step (fun d e hd he h0 hdot hdotdot hed => ?_) (fun k type hf j hj hne => ?_)
      (fun k hk' => ?_) fun q hq j hj => h.window q j hj
    · rw [s.writeEnt_type] at hd hed
      by_cases hdp : d = dp
      · subst hdp
        rw [s.writeEnt_self] at he
        rcases mem_putEnt he with rfl | he
        · -- The name is one for a new inode, or for one that is not a directory.
          have hinum : inum ≠ 0 := by
            rintro rfl
            exact h0 rfl
          rcases hname hinum hdot hdotdot with ⟨⟨type, hf⟩, hne⟩ | ⟨type, htype, hdebt⟩
          · have hlt := (hp.fresh inum type hf).2
            rw [Nat.mod_eq_of_lt (by omega)] at hed ⊢
            exact (h.fresh p inum type hf d (locked_of_known hk) (Ne.symm hne)).2
          · obtain ⟨-, h2, h3⟩ := hp.debt _ hdebt
            have hlt := (hb.bound inum (h2 ▸ h3)).2
            rw [Nat.mod_eq_of_lt (by omega)] at hed
            exact absurd (h2.symm.trans hed) htype
        · exact h.entry d e hd he h0 hdot hdotdot hed
      · rw [s.writeEnt_of_ne hdp] at he
        exact h.entry d e hd he h0 hdot hdotdot hed
    · simp only [Ghost.next, if_true] at hf hj ⊢
      have hf' : (G p).fresh = some (k, type) := by
        simp only [wrote, hk] at hf
        split at hf
        · split at hf
          · exact hf
          · exact hf
        · split at hf
          · exact hf
          · cases hf
      rw [known, Base.wrote_locks hk]
      rw [Locked, Base.wrote_locks hk] at hj
      exact h.fresh_learn (locked_of_known hk) (fun hx => by cases hx) hf' hj hne
    · simp only [Ghost.next, if_true, hw, hwindow] at hk'
      cases hk'
  · cases hr
    exact h.of_same rfl rfl rfl rfl hwindow

theorem setNlink_step {k : ℤ} (h : Ranked s G rank)
    (ha : allows n False True (G p) (.setNlink i k)) (hu : (G p).Urgent (.setNlink i k)) :
    Ranked (s.setNlink i k) (update G p ((G p).next (.setNlink i k) ())) rank := by
  have hwindow : (G p).window = none := window_eq_none hu (by simp)
  obtain ⟨-, c, hk, -⟩ := ha
  refine h.of_step (fun d e hd he h0 hdot hdotdot hed => ?_) (fun j type hf m hm hne => ?_)
    (fun j hj => ?_) fun q hq j hj => h.window q j hj
  · rw [s.setNlink_type] at hd hed
    rw [s.setNlink_ents] at he
    exact h.entry d e hd he h0 hdot hdotdot hed
  · simp only [Ghost.next, counted, hk] at hf hm ⊢
    exact h.fresh_learn (locked_of_known hk) (fun hx => by cases hx) hf hm hne
  · simp only [Ghost.next, counted, hk] at hj
    exact absurd (hwindow.symm.trans hj) (by simp)

theorem ialloc_step {type : Itype} {r : Bool} (h : Ranked s G rank) (hb : Base n s G)
    (ha : allows n False True (G p) (.ialloc i type)) (hu : (G p).Urgent (.ialloc i type))
    (hr : (Op.ialloc i type).perform n p s = some (r, s')) :
    ∃ rank', Ranked s' (update G p ((G p).next (.ialloc i type) r)) rank' := by
  have hwindow : (G p).window = none := window_eq_none hu (by simp)
  obtain ⟨-, -, -, -, dp, c, hlocks⟩ := ha
  simp only [Op.perform] at hr
  split at hr
  · rename_i hi
    cases hr
    set top := 1 + ∑ j ∈ Finset.range n, rank j with htop
    have hlt : ∀ j, (s.inode j).type ≠ .free → rank j < top := by
      intro j hj
      have := Finset.single_le_sum (f := rank) (fun k _ => Nat.zero_le _)
        (Finset.mem_range.2 (hb.bound j hj).2)
      omega
    -- The inode was free, so that no process knows it and it has no entries.
    have hne : ∀ j, (s.inode j).type ≠ .free → update rank i top j = rank j := by
      intro j hj
      refine update_of_ne ?_ ..
      rintro rfl
      exact hj hi
    refine ⟨update rank i top, ⟨fun d e hd he h0 hdot hdotdot hed => ?_, fun q k t hf j hj hjk => ?_,
      fun q k hk => ?_⟩⟩
    · by_cases hdi : d = i
      · rw [hdi, s.allocInode_self] at he
        cases he
      · rw [s.allocInode_of_ne hdi] at hd he
        have hd' : (s.inode d).type ≠ .free := by simp [hd]
        rw [hne d hd']
        by_cases hei : e.inum = i
        · rw [hei, update_self]
          exact hlt d hd'
        · rw [s.allocInode_of_ne hei] at hed
          rw [hne e.inum (by simp [hed])]
          exact h.entry d e hd he h0 hdot hdotdot hed
    · by_cases hq : q = p
      · subst hq
        rw [update_self] at hf hj ⊢
        cases hf
        have hj' : j ∈ (G q).locks.map Prod.fst := hj
        obtain rfl : j = dp := by simpa [hlocks] using hj'
        have hk : (G q).known j = some c := by simp [known, hlocks]
        obtain ⟨hc, hc'⟩ := hb.type_of_known hk
        refine ⟨⟨c, hk⟩, ?_⟩
        rw [hne j (hc ▸ hc'), update_self]
        exact hlt j (hc ▸ hc')
      · rw [update_of_ne hq] at hf hj ⊢
        obtain ⟨⟨x, hk⟩, hjk'⟩ := h.fresh q k t hf j hj hjk
        obtain ⟨hx, hx'⟩ := hb.type_of_known hk
        refine ⟨⟨x, hk⟩, ?_⟩
        rw [hne j (hx ▸ hx')]
        by_cases hki : k = i
        · rw [hki, update_self]
          exact hlt j (hx ▸ hx')
        · rw [update_of_ne hki]
          exact hjk'
    · by_cases hq : q = p
      · subst hq
        rw [update_self] at hk
        exact absurd (hwindow.symm.trans hk) (by simp)
      · rw [update_of_ne hq] at hk
        exact h.window q k hk
  · cases hr
    exact ⟨rank, h.of_same rfl rfl rfl rfl hwindow⟩

theorem ranks_freeInode (h : s.Ranks rank) (i : ℕ) : (s.freeInode i).Ranks rank := by
  intro d e hd he h0 hdot hdotdot hed
  have hdi : d ≠ i := by
    rintro rfl
    simp at hd
  have hei : e.inum ≠ i := by
    intro hei
    simp [hei] at hed
  rw [s.freeInode_of_ne hdi] at hd he
  rw [s.freeInode_of_ne hei] at hed
  exact h d e hd he h0 hdot hdotdot hed

theorem step {o : Op} {r : o.Answer} (h : Ranked s G rank) (hb : Base n s G) (hn : n ≤ 65536)
    (ha : allows n False True (G p) o) (hu : (G p).Urgent o)
    (hmine : ∀ site i, o = .acquiresleep site i → ∀ q, q ≠ p → (G q).window ≠ some i)
    (hr : o.perform n p s = some (r, s')) :
    ∃ rank', Ranked s' (update G p ((G p).next o r)) rank' := by
  have hwindow : (∀ i, o ≠ .acquiresleep .parent i) → (G p).window = none := window_eq_none hu
  cases o with
  | acquiresleep site i => exact ⟨rank, h.acquiresleep_step ha (hmine site i rfl) hr⟩
  | releasesleep site i =>
    cases hr
    exact ⟨rank, h.releasesleep_step⟩
  | writei dp off inum name => exact ⟨rank, h.writei_step hb hn ha hu hr⟩
  | setNlink i k =>
    cases hr
    exact ⟨rank, h.setNlink_step ha hu⟩
  | ialloc i type => exact h.ialloc_step hb ha hu hr
  | iget site i =>
    simp only [Op.perform] at hr
    split at hr
    · cases hr
      exact ⟨rank, h.of_same rfl rfl rfl rfl (hwindow (by simp))⟩
    · split at hr
      all_goals
        cases hr
        exact ⟨rank, h.of_same rfl rfl rfl rfl (hwindow (by simp))⟩
  | load i =>
    have hlearn : ∀ x, (x = none → (G p).known i = none) → ∀ s' : Disk, s'.inode = s.inode →
        s'.lock = s.lock → Ranked s' (update G p ((G p).learn i x)) rank := by
      intro x hx s' hinode hlock
      refine h.of_step ?_ (fun j type hf m hm hne => h.fresh_learn ha.2.1 hx hf hm hne)
        (fun j hj => ?_) fun q hq j hj => ?_
      · rw [Disk.Ranks, hinode]
        exact h.entry
      · exact absurd ((hwindow (by simp)).symm.trans hj) (by simp)
      · rw [hlock]
        exact h.window q j hj
    simp only [Op.perform] at hr
    split at hr
    all_goals
      cases hr
      exact ⟨rank, hlearn _ (fun _ => ha.2.2) _ rfl rfl⟩
  | peek i =>
    cases hr
    have hfresh : (G p).fresh = none := ha.2.2.2.2.2.1 (.inr trivial)
    simp only [Ghost.next]
    split
    · split
      all_goals exact ⟨rank, h.of_none h.entry rfl hfresh (hwindow (by simp))⟩
    · exact ⟨rank, h.of_none h.entry rfl hfresh (hwindow (by simp))⟩
  | ref i =>
    cases hr
    simp only [Ghost.next]
    split
    all_goals exact ⟨rank, h.of_same rfl rfl rfl rfl (hwindow (by simp))⟩
  | free i =>
    cases hr
    exact ⟨rank, h.of_none (ranks_freeInode h.entry i) rfl (ha.2.2.1 (.inr trivial))
      (hwindow (by simp))⟩
  | ilockRef i | read i | holding i | idupCwd | drop i | cwd | setCwd i | setFile f i | exit =>
    cases hr
    exact ⟨rank, h.of_same rfl rfl rfl rfl (hwindow (by simp))⟩
  | takeFd fd =>
    cases hr
    simp only [Ghost.next]
    split
    all_goals exact ⟨rank, h.of_same rfl rfl rfl rfl (hwindow (by simp))⟩
  | filealloc | fdalloc f | fork np =>
    simp only [Op.perform] at hr
    split at hr
    all_goals
      cases hr
      exact ⟨rank, h.of_same rfl rfl rfl rfl (hwindow (by simp))⟩
  | fileclose f =>
    rcases Counts.fileclose_eq hr with ⟨rfl, -, rfl⟩ | ⟨rfl, -, rfl⟩ | ⟨m, rfl, -, rfl⟩
    · exact ⟨rank, h.of_same rfl rfl rfl rfl (hwindow (by simp))⟩
    · cases (s.file f).ip with
      | none => exact ⟨rank, h.of_same rfl rfl rfl rfl (hwindow (by simp))⟩
      | some i => exact ⟨rank, h.of_same rfl rfl rfl rfl (hwindow (by simp))⟩
    · exact ⟨rank, h.of_same rfl rfl rfl rfl (hwindow (by simp))⟩

end Ranked

/-! ## All runs -/

theorem waits_eq_some {T : System} {p : Pid} {i : ℕ} (h : waits T p = some i) :
    ∃ site, T.pending p = some (.acquiresleep site i) := by
  unfold waits at h
  split at h
  · rename_i site j hj
    cases h
    exact ⟨site, hj⟩
  · cases h

theorem keeps_ranked {n : ℕ} (hn : n ≤ 65536) :
    (protocol n False True).Keeps (Settled False) Ghost.idle Ghost.start (machine n) Orderly
      fun s G => Base n s G ∧ ∃ rank, Ranked s G rank where
  follows := prog_follows hn
  start := by
    rintro s G p ⟨hb, rank, h⟩ hg hready
    refine ⟨hb.start hg hready, rank, h.of_same rfl rfl ?_ ?_ rfl⟩
    · rw [hg]
      rfl
    · rw [hg]
      rfl
  run := by
    rintro T G p o k r s hW hnone ⟨hb, rank, h⟩ hC htask ⟨ha, hu⟩ hr
    have hpending := Tasks.pending_of_task htask
    simp only [Orderly, hpending] at hC
    refine ⟨hb.answer ha hr ?_ fun _ _ hF => hF.elim, hb.step ha hu hr,
      h.step hb hn ha hu ?_ hr⟩
    · rintro site i rfl -
      refine ⟨?_, ?_⟩
      · rintro rfl
        exact hC.1 rfl
      · rintro rfl
        exact hC.2 rfl
    · rintro site i rfl q hq hwindow
      -- The other process has nothing to do but to lock its directory again.
      rcases hW.waiting hnone q with hg | hs | ⟨o, ho, -, hu'⟩
      · rw [hg] at hwindow
        cases hwindow
      · rw [hs.window] at hwindow
        cases hwindow
      · exact hC q hq (ho.trans (congrArg some (hu'.window i hwindow)))
  done := by
    rintro s G p ⟨hb, rank, h⟩ hs
    exact ⟨hb.done hs, rank, h.of_same rfl rfl hs.fresh.symm hs.locks.symm rfl⟩

theorem rank_lt_of_waitsFor {n : ℕ} {T : System} {G : Pid → Ghost} {rank : ℕ → ℕ}
    (hW : (protocol n False True).Within (Settled False) Ghost.idle T G) (hb : Base n T.shared G)
    (h : Ranked T.shared G rank) {b c d : Pid} {i j : ℕ} (hi : T.shared.lock i = some b)
    (hj : waits T b = some j) (hjc : T.shared.lock j = some c) (hcd : WaitsFor T c d) :
    rank i < rank j := by
  -- A process that holds a lock and waits has locked one directory, which is the one it holds.
  have hone : ∀ {x : Pid} {k m : ℕ}, T.shared.lock k = some x → waits T x = some m →
      T.shared.lock m ≠ none → ∃ cc, (G x).locks = [(k, some cc)] ∧ cc.type = .dir ∧
        T.shared.inode k = cc ∧ ((∃ type, (G x).fresh = some (m, type)) ∧ m ≠ k ∨
          ∃ e ∈ cc.ents, e.inum = m ∧ e.inum ≠ 0 ∧ e.name ≠ dot ∧ e.name ≠ dotdot) := by
    intro x k m hk hm hlock
    obtain ⟨site, hsite⟩ := waits_eq_some hm
    obtain ⟨k', htask⟩ := Tasks.task_of_pending hsite
    obtain ⟨⟨⟨-, -, horder⟩, -⟩, -⟩ := hW.follows x _ htask
    have hlocked := ((hb.holds x).lock k).1 hk
    rcases horder trivial with ⟨-, hnil | hwindow⟩ | ⟨dp, cc, hlocks, hdir, hrest⟩
    · simp [Locked, hnil] at hlocked
    · exact absurd (h.window x m hwindow) hlock
    · obtain rfl : k = dp := by simpa [Locked, hlocks] using hlocked
      have hknown : (G x).known k = some cc := by simp [known, hlocks]
      exact ⟨cc, hlocks, hdir, ((hb.holds x).known k cc hknown).1,
        hrest.imp id fun hr => hr.2⟩
  obtain ⟨cc, hlocks, hdir, hinode, hrest⟩ := hone hi hj (by simp [hjc])
  rcases hrest with ⟨⟨type, hf⟩, hne⟩ | ⟨e, he, rfl, h0, hdot, hdotdot⟩
  · refine (h.fresh b j type hf i ?_ (Ne.symm hne)).2
    simp [Locked, hlocks]
  · obtain ⟨m, hm, hmd⟩ := hcd
    obtain ⟨cc', -, hdir', hinode', -⟩ := hone hjc hm (by simp [hmd])
    exact h.entry i e (by rw [hinode, hdir]) (by rw [hinode]; exact he) h0 hdot hdotdot
      (by rw [hinode', hdir'])

/-- In every run that meets the condition, no processes wait for inode locks in a cycle, and none
waits for a lock that it holds. -/
theorem not_transGen_waitsFor {n : ℕ} (hn : n ≤ 65536) {s₀ : Disk} (hq : s₀.Quiet n)
    {rank : ℕ → ℕ} (hrank : s₀.Ranks rank) {π : List (Event × System)}
    (hrun : IsRun (Tasks.step (machine n)) (.idle s₀) π) (hC : Meets Orderly (.idle s₀) π)
    (p : Pid) : ¬ Relation.TransGen (WaitsFor (last (.idle s₀) π)) p p := by
  have h0 : Ranked s₀ (fun _ => Ghost.idle) rank :=
    ⟨hrank, fun _ _ _ hf => (by cases hf), fun _ _ hw => (by cases hw)⟩
  obtain ⟨G, hW, hb, rank', h⟩ := (keeps_ranked hn).run_invariant ⟨hq.base, rank, h0⟩ hrun hC
  refine not_transGen_self (m := fun a => ((waits (last (.idle s₀) π) a).map rank').getD 0) ?_ p
  rintro a b c d ⟨i, hai, hi⟩ ⟨j, hbj, hj⟩ hcd
  simp only [hai, hbj, Option.map_some, Option.getD_some]
  exact rank_lt_of_waitsFor hW hb h hi hbj hj hcd

/-- Process 0 has locked the root directory in `open`, and process 1 waits for it. -/
theorem not_transGen_waitsFor_open :
    ∃ π, IsRun (Tasks.step (machine 8)) (.idle boot) π ∧ Meets Orderly (.idle boot) π ∧
      waits (last (.idle boot) π) child = some ROOTINO ∧
      (last (.idle boot) π).shared.lock ROOTINO = some init ∧
      ∀ p, ¬ Relation.TransGen (WaitsFor (last (.idle boot) π)) p p := by
  have heval : (Tasks.run (machine 8) boot
      (begins init (.open ['/', 'x'] O_CREATE) 20 ++
        begins child (.open ['/', 'y'] O_CREATE) 2)).map
      (fun π => (decide (Meets Orderly (.idle boot) π),
        waits (last (.idle boot) π) child, (last (.idle boot) π).shared.lock ROOTINO)) =
      some (true, some ROOTINO, some init) := by
    decide +kernel
  obtain ⟨π, hrun, heq⟩ := Tasks.exists_run heval
  obtain ⟨hmeets, heq⟩ := Prod.mk.inj heq
  obtain ⟨hwaits, hlock⟩ := Prod.mk.inj heq
  have hC := of_decide_eq_true hmeets
  have hrank : boot.Ranks fun _ => 0 := by
    intro dp e hd he h0 hdot hdotdot
    by_cases hdp : dp = ROOTINO
    · subst hdp
      simp only [boot, if_true, List.mem_cons, List.not_mem_nil, or_false] at he
      rcases he with rfl | rfl
      · exact absurd rfl hdot
      · exact absurd rfl hdotdot
    · simp [boot, hdp] at hd
  exact ⟨π, hrun, hC, hwaits, hlock,
    not_transGen_waitsFor (by decide) (quiet_boot (by decide)) hrank hrun hC⟩

/-- `link("/f", "/.")` waits for the lock of the root directory, which it holds. And `unlink("/x")`
waits for the inode that `open("/x", O_CREATE)` has just made, while the latter waits to lock the
root directory again. -/
theorem link_dot_waits_for_itself_and_unlink_for_create :
    (∃ π, IsRun (Tasks.step (machine 8)) (.idle boot) π ∧
      WaitsFor (last (.idle boot) π) init init) ∧
    ∃ π, IsRun (Tasks.step (machine 8)) (.idle boot) π ∧
      WaitsFor (last (.idle boot) π) init child ∧
      WaitsFor (last (.idle boot) π) child init := by
  constructor
  · have heval : (Tasks.run (machine 8) boot
        (calls init (.open ['/', 'f'] O_CREATE) 32 ++
          begins init (.link ['/', 'f'] ['/', '.']) 32)).map
        (fun π => (waits (last (.idle boot) π) init,
          (last (.idle boot) π).shared.lock ROOTINO)) =
        some (some ROOTINO, some init) := by
      decide +kernel
    obtain ⟨π, hrun, heq⟩ := Tasks.exists_run heval
    obtain ⟨hwaits, hlock⟩ := Prod.mk.inj heq
    exact ⟨π, hrun, ROOTINO, hwaits, hlock⟩
  · have heval : (Tasks.run (machine 8) boot
        (begins init (.open ['/', 'x'] O_CREATE) 23 ++
          begins child (.unlink ['/', 'x']) 13)).map
        (fun π => ((waits (last (.idle boot) π) init,
          (last (.idle boot) π).shared.lock ROOTINO), waits (last (.idle boot) π) child,
          (last (.idle boot) π).shared.lock 2)) =
        some ((some ROOTINO, some child), some 2, some init) := by
      decide +kernel
    obtain ⟨π, hrun, heq⟩ := Tasks.exists_run heval
    obtain ⟨h0, h1⟩ := Prod.mk.inj heq
    obtain ⟨hwaits0, hlock0⟩ := Prod.mk.inj h0
    obtain ⟨hwaits1, hlock1⟩ := Prod.mk.inj h1
    exact ⟨π, hrun, ⟨ROOTINO, hwaits0, hlock0⟩, ⟨2, hwaits1, hlock1⟩⟩

end Xv6.Fs
