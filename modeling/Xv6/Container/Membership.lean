import Xv6.Kernel
import Mathlib.Order.Basic

/-!
# The two records of membership

A process is a member of a container in two places: in `container_id` of its `struct proc`, and in a
slot of the container, which holds a copy of the `struct proc`. `Agree` says that the two records
match. `join_container` sets `container_id` in the copy only, so that the records agree along a run
exactly if no join of the run gets past the guards of the call.

The slots outlive their processes, since neither `exit` nor `wait` looks at the containers. What
does hold of the member of a slot is that it is live or has exited since it joined.
-/

namespace Xv6.Kernel

open Containers Run

variable {N P : ℕ}

def Holds (s : Kernel N P) (k : Fin N) (j : Fin P) (pid : ℤ) : Prop :=
  s.cont.c_active k = true ∧ (s.cont.container_table k).process_active j = true ∧
    ((s.cont.container_table k).process_table j).pid = pid

/-- The records of every live process agree: its `container_id` is `id ≥ 0` exactly if `id` is a
container in use with exactly one slot of the process, and no other container has one; and is `-1`
exactly if no container in use has a slot of the process. -/
structure Agree (s : Kernel N P) : Prop where
  member : ∀ i, (s.ptable.proc i).Live → ∀ id : ℤ, 0 ≤ id →
    ((s.ptable.proc i).container_id = id ↔
      ∃ k : Fin N, id = (k : ℕ) ∧ (∃! j, s.Holds k j (s.ptable.proc i).pid) ∧
        ∀ k', k' ≠ k → ∀ j, ¬ s.Holds k' j (s.ptable.proc i).pid)
  outside : ∀ i, (s.ptable.proc i).Live →
    ((s.ptable.proc i).container_id = -1 ↔ ∀ k j, ¬ s.Holds k j (s.ptable.proc i).pid)

def hintOf (s : Kernel N P) (id : ℤ) : ℤ :=
  ((CArray.rd s.cont.container_table id).map Container.process_pointer).getD (-1)

def lastJoin (s₀ : Kernel N P) (i : Fin NPROC) : List (Event P × Kernel N P) → Option (ℤ × ℤ)
  | [] => none
  | (e, _) :: π =>
    -- the slot of an exited process may hold another one later
    if ¬ ((last s₀ π).ptable.proc i).Live then none
    else match e with
      | .call cur (.container (.join _ id)) r =>
        if cur = i ∧ r = some 0 then some (id, (last s₀ π).hintOf id) else lastJoin s₀ i π
      | .call cur (.container (.leave _)) r =>
        if cur = i ∧ r = some 0 then none else lastJoin s₀ i π
      | .call _ (.container (.destroy id)) r =>
        if r = some 0 then (lastJoin s₀ i π).filter fun x => x.1 ≠ id else lastJoin s₀ i π
      | _ => lastJoin s₀ i π

def LeaveFrees (s₀ : Kernel N P) : List (Event P × Kernel N P) → Prop
  | (.call cur (.container (.leave _)) r, s') :: π =>
    ∀ (k : Fin N) (j : Fin P), lastJoin s₀ cur π = some (((k : ℕ) : ℤ), ((j : ℕ) : ℤ)) →
      r = some 0 ∧ s' = { last s₀ π with cont := (last s₀ π).cont.freed k j }
  | _ => True

def JoinRefused (s : Kernel N P) : Event P → Prop
  | .call _ (.container (.join _ id)) _ =>
    ∀ k : Fin N, id = (k : ℕ) → s.cont.c_active k = true →
      (s.cont.container_table k).process_pointer = -1
  | _ => True

def NoMember (s : Kernel N P) : Prop :=
  ∀ k j, s.cont.c_active k = true → (s.cont.container_table k).process_active j = false

theorem NoMember.agree {s : Kernel N P} (h : s.NoMember) (hinv : s.Inv) : s.Agree := by
  have hno : ∀ k j pid, ¬ s.Holds k j pid := by
    rintro k j pid ⟨hk, hj, -⟩
    rw [h k j hk] at hj
    cases hj
  refine ⟨fun i hlive id hid => ?_, fun i hlive => ?_⟩
  · rw [hinv.container_id i hlive]
    constructor
    · intro h
      omega
    · rintro ⟨k, -, ⟨j, hj, -⟩, -⟩
      exact absurd hj (hno k j _)
  · exact ⟨fun _ k j => hno k j _, fun _ => hinv.container_id i hlive⟩

theorem not_live_of_neg {s : Containers N P} {id : ℤ} (h : id = -1) : ¬ s.Live id := by
  rintro ⟨k, hk, -⟩
  omega

theorem NoMember.step (hNP : N ≤ P) {s s' : Kernel N P} {e : Event P} (h : s.NoMember)
    (hinv : s.Inv) (hs : s.step e s') (hc : s.JoinRefused e) : s'.NoMember := by
  cases stepped_of_step hs with
  | quiet => exact h
  | exit => exact h
  | container cur call r c hcur hcopy hstep =>
    cases effect_of_callStep hNP hinv.cont hstep with
    | createFull => exact h
    | create c k ptr hk =>
      intro i j hi
      by_cases hik : i = k
      · simp [hik, initContainer]
      · simpa [hik] using h i j (by simpa [hik] using hi)
    | destroyRefused => exact h
    | destroy k hk =>
      intro i j hi
      by_cases hik : i = k
      · simp [hik] at hi
      · exact h i j (by simpa [hik] using hi)
    | joinRefused => exact h
    | joinFull => exact h
    | join p k j hint hk hj =>
      have := hc k rfl hk
      omega
    | leaveRefused => exact h
    | leaveNone => exact h
    | leave p k j hid hk hj =>
      rw [h k j hk] at hj
      cases hj

theorem joinRefused_of_agree (hNP : N ≤ P) {s s' : Kernel N P} {e : Event P} (hinv : s.Inv)
    (hs : s.step e s') (h : s'.Agree) : s.JoinRefused e := by
  cases stepped_of_step hs with
  | quiet e t hexit hcall =>
    unfold JoinRefused
    split
    · exact absurd rfl (hcall _ _ _)
    · trivial
  | exit => trivial
  | container cur call r c hcur hcopy hstep =>
    cases call with
    | create c => trivial
    | destroy id => trivial
    | leave p => trivial
    | join p id =>
      intro k hid hk
      obtain rfl : p = s.ptable.proc cur := hcopy
      cases effect_of_callStep hNP hinv.cont hstep with
      | joinRefused _ _ hno => exact absurd ⟨k, hid, hk⟩ hno
      | joinFull _ k' hk' hj =>
        obtain rfl : k' = k := Fin.ext (by omega)
        exact hj
      | join _ k' j hint hk' =>
        have hnone := (h.outside cur hcur).1 (hinv.container_id cur hcur) k' j
        exact absurd ⟨hk', by simp [joined], by simp [joined, member]⟩ hnone

theorem lastJoin_eq_none (hNP : N ≤ P) {s₀ : Kernel N P} (h0 : s₀.Inv) (i : Fin NPROC)
    {π : List (Event P × Kernel N P)} (h : IsRun step s₀ π) (hc : Meets JoinRefused s₀ π) :
    lastJoin s₀ i π = none := by
  induction π with
  | nil => rfl
  | cons x π ih =>
    obtain ⟨e, s'⟩ := x
    have hprev := ih h.2 hc.2
    have hinv : (last s₀ π).Inv := IsRun.invariant h0 (fun _ _ _ hi hs => step_inv hNP hi hs) h.2
    unfold lastJoin
    rw [hprev]
    split
    · rfl
    · split
      · rename_i cur p id r
        rw [if_neg]
        rintro ⟨rfl, rfl⟩
        cases stepped_of_step h.1 with
        | quiet _ _ _ hcall => exact hcall _ _ _ rfl
        | container _ _ _ c _ _ hstep =>
          cases effect_of_callStep hNP hinv.cont hstep with
          | join _ k j hint hk hj =>
            have := hc.1 k rfl hk
            omega
      · simp
      · simp
      · rfl

/-- The two records of membership agree in every state of a run, and every `leave_container` of a
process that has joined frees the slot of that join, exactly if no `join_container` of the run gets
past its guards. -/
theorem membership_agrees_iff (hN : 0 < N) (hNP : N ≤ P) {π : List (Event P × Kernel N P)}
    (h : IsRun step (boot N P) π) :
    Along (fun π => (last (boot N P) π).Agree ∧ LeaveFrees (boot N P) π) π ↔
      Meets JoinRefused (boot N P) π := by
  have h0 : (boot N P).Inv := boot_inv hN (by omega)
  have hnil : (boot N P).NoMember := fun k j hk => by cases hk
  induction π with
  | nil => exact ⟨fun _ => trivial, fun _ => ⟨hnil.agree h0, trivial⟩⟩
  | cons x π ih =>
    obtain ⟨e, s'⟩ := x
    have hiff := ih h.2
    have hinv : (last (boot N P) π).Inv := run_inv hN hNP h.2
    constructor
    · rintro ⟨⟨hagree, -⟩, hπ⟩
      exact ⟨joinRefused_of_agree hNP hinv h.1 hagree, hiff.1 hπ⟩
    · intro hc
      refine ⟨⟨?_, ?_⟩, hiff.2 hc.2⟩
      · have hno : s'.NoMember := (IsRun.invariant_of_meets (I := fun s => s.Inv ∧ s.NoMember)
          ⟨h0, hnil⟩ (fun _ _ _ hi hc hs => ⟨step_inv hNP hi.1 hs, hi.2.step hNP hi.1 hs hc⟩)
          h hc).2
        exact hno.agree (step_inv hNP hinv h.1)
      · unfold LeaveFrees
        split
        · rename_i heq
          obtain ⟨-, rfl⟩ := List.cons.inj heq
          intro k j hj
          rw [lastJoin_eq_none hNP h0 _ h.2 hc.2] at hj
          cases hj
        · trivial

/-- The run in which init is started and creates a container. -/
theorem membership_agrees_iff_create :
    ∃ π, IsRun step (boot 2 2) π ∧
      π.map Prod.fst = [.call init (.container (.create (Container.zero 2))) (some 0),
        .dispatch init] ∧
      (Along (fun π => (last (boot 2 2) π).Agree ∧ LeaveFrees (boot 2 2) π) π ↔
        Meets JoinRefused (boot 2 2) π) := by
  have hcreate := firstCreate_step (s := started 2 2) init rfl started_running.1 started_running.2
  have hrun : IsRun step (boot 2 2) [(_, { started 2 2 with cont := firstCreate }),
      (_, started 2 2)] := ⟨hcreate, started_step, trivial⟩
  exact ⟨_, hrun, rfl, membership_agrees_iff (by decide) (by decide) hrun⟩

/-- Init creates container `0`, joins it with success, and calls `leave_container`, which returns
`-1`: the slot still holds its pid, and its `container_id` is `-1` all along. -/
theorem join_breaks_membership :
    ∃ (p : Proc) (π : List (Event 2 × Kernel 2 2)), IsRun step (boot 2 2) π ∧
      π.map Prod.fst =
        [.call init (.container (.leave p)) (some (-1)),
          .call init (.container (.join p 0)) (some 0),
          .call init (.container (.create (Container.zero 2))) (some 0),
          .dispatch init] ∧
      ¬ (last (boot 2 2) π).Agree ∧ ¬ LeaveFrees (boot 2 2) π := by
  obtain ⟨hrun, hchan⟩ := started_running (N := 2) (P := 2)
  have hid : ((started 2 2).ptable.proc init).container_id = -1 := by
    rw [started_init]
    rfl
  have hlive : ((started 2 2).ptable.proc init).Live := by
    rw [started_init]
    decide
  have hcreate := firstCreate_step (s := started 2 2) init rfl hrun hchan
  have hjoin := firstJoin_step (s := { started 2 2 with cont := firstCreate }) init rfl hrun hchan
  generalize hp : (started 2 2).ptable.proc init = p at hrun hchan hid hlive hjoin
  have hleave : step { started 2 2 with cont := firstJoin p }
      (.call init (.container (.leave p)) (some (-1))) { started 2 2 with cont := firstJoin p } :=
    container_step (by rw [hp]; exact hrun) (by rw [hp]; exact hchan) hp.symm
      (leaveContainer_refused (not_live_of_neg hid))
  refine ⟨p, [(_, { started 2 2 with cont := firstJoin p }),
    (_, { started 2 2 with cont := firstJoin p }), (_, { started 2 2 with cont := firstCreate }),
    (_, started 2 2)], ⟨hleave, hjoin, hcreate, started_step, trivial⟩, rfl, ?_, ?_⟩
  · intro hagree
    have hnone := hagree.outside init
    simp only [last_cons, hp] at hnone
    exact (hnone hlive).1 hid 0 0 ⟨rfl, rfl, rfl⟩
  · intro hfrees
    refine absurd (hfrees 0 0 ?_).1 (by decide)
    simp only [lastJoin, last_cons, hp, hlive, not_true, if_false, and_self, if_true]
    rfl

/-! ## Members that exit -/

def MemberExited (s₀ : Kernel N P) (k : Fin N) (j : Fin P) : List (Event P × Kernel N P) → Prop
  | [] => False
  | (.call cur .exit _, _) :: π =>
    ((last s₀ π).ptable.proc cur).pid =
        (((last s₀ π).cont.container_table k).process_table j).pid ∨
      MemberExited s₀ k j π
  | (.call _ (.container (.join _ id)) r, _) :: π =>
    ¬ (r = some 0 ∧ id = (k : ℕ) ∧ (last s₀ π).hintOf id = (j : ℕ)) ∧ MemberExited s₀ k j π
  | _ :: π => MemberExited s₀ k j π

def MemberLive (s : Kernel N P) (k : Fin N) (j : Fin P) : Prop :=
  ∃ i, (s.ptable.proc i).Live ∧
    (s.ptable.proc i).pid = ((s.cont.container_table k).process_table j).pid

theorem memberExited_cons {s₀ s' : Kernel N P} {k : Fin N} {j : Fin P} {e : Event P}
    {π : List (Event P × Kernel N P)} (hexit : ∀ cur r, e ≠ .call cur .exit r)
    (hjoin : ∀ cur p id r, e ≠ .call cur (.container (.join p id)) r) :
    MemberExited s₀ k j ((e, s') :: π) ↔ MemberExited s₀ k j π := by
  cases e with
  | call cur c r =>
    cases c with
    | exit => exact absurd rfl (hexit cur r)
    | container call =>
      cases call with
      | join p id => exact absurd rfl (hjoin cur p id r)
      | _ => exact Iff.rfl
    | _ => exact Iff.rfl
  | _ => exact Iff.rfl

def MembersKnown (s₀ : Kernel N P) (π : List (Event P × Kernel N P)) : Prop :=
  ∀ k j, (last s₀ π).cont.c_active k = true →
    ((last s₀ π).cont.container_table k).process_active j = true →
      (last s₀ π).MemberLive k j ∨ MemberExited s₀ k j π

theorem hintOf_natCast (s : Kernel N P) (k : Fin N) :
    s.hintOf (k : ℕ) = (s.cont.container_table k).process_pointer := by
  simp [hintOf]

theorem MembersKnown.step (hNP : N ≤ P) {s₀ s' : Kernel N P} {e : Event P}
    {π : List (Event P × Kernel N P)} (h : MembersKnown s₀ π) (hinv : (last s₀ π).Inv)
    (hs : (last s₀ π).step e s') : MembersKnown s₀ ((e, s') :: π) := by
  unfold MembersKnown at h
  intro k j
  cases stepped_of_step hs with
  | quiet e t hexit hcall hslot =>
    intro hk hj
    rw [memberExited_cons hexit fun cur p id r => hcall cur _ r]
    apply (h k j hk hj).imp_left
    rintro ⟨i, hlive, hpid⟩
    rcases hslot i with hsame | ⟨hdead, -⟩
    · exact ⟨i, hsame.live.2 hlive, hsame.pid.trans hpid⟩
    · exact absurd hlive hdead
  | exit cur t hcur hother hzombie =>
    intro hk hj
    rcases h k j hk hj with ⟨i, hlive, hpid⟩ | hexited
    · by_cases hi : i = cur
      · subst hi
        exact .inr (.inl hpid)
      · exact .inl ⟨i, (hother i hi).live.2 hlive, (hother i hi).pid.trans hpid⟩
    · exact .inr (.inr hexited)
  | container cur call r c hcur hcopy hstep =>
    cases effect_of_callStep hNP hinv.cont hstep with
    | createFull => exact h k j
    | create c k' ptr hk' =>
      intro hk hj
      by_cases hkk : k = k'
      · simp [hkk, initContainer] at hj
      · simp only [last_cons, created_c_active, created_container_table,
          Function.update_of_ne hkk] at hk hj
        apply (h k j hk hj).imp_left
        rintro ⟨i, hi⟩
        exact ⟨i, by simpa [hkk] using hi⟩
    | destroyRefused => exact h k j
    | destroy k' hk' =>
      intro hk hj
      by_cases hkk : k = k'
      · simp [hkk] at hk
      · exact h k j (by simpa [hkk] using hk) hj
    | joinRefused => exact fun hk hj => (h k j hk hj).imp_right fun hex => ⟨by simp, hex⟩
    | joinFull => exact fun hk hj => (h k j hk hj).imp_right fun hex => ⟨by simp, hex⟩
    | join p k' j' hint hk' hj' =>
      obtain rfl : p = (last s₀ π).ptable.proc cur := hcopy
      intro hk hj
      by_cases hslot : k = k' ∧ j = j'
      · -- The new member is the caller, which runs.
        obtain ⟨rfl, rfl⟩ := hslot
        exact .inl ⟨cur, hcur, by simp [joined, member]⟩
      · -- The join has changed another slot.
        obtain ⟨hact, htable⟩ := joined_slot_of_ne (s := (last s₀ π).cont)
          (p := (last s₀ π).ptable.proc cur) hint hslot
        rcases h k j hk (hact.symm.trans hj) with ⟨i, hlive, hpid⟩ | hex
        · exact .inl ⟨i, hlive, hpid.trans (congrArg Proc.pid htable.symm)⟩
        · refine .inr ⟨?_, hex⟩
          rintro ⟨-, hid, heq⟩
          obtain rfl : k' = k := Fin.ext (by omega)
          rw [hintOf_natCast, hj'] at heq
          exact hslot ⟨rfl, Fin.ext (by omega)⟩
    | leaveRefused => exact h k j
    | leaveNone => exact h k j
    | leave p k' j' hid =>
      -- A live process has no container to leave.
      obtain rfl : p = (last s₀ π).ptable.proc cur := hcopy
      rw [hinv.container_id cur hcur] at hid
      omega

/-- After every run from boot, the pid in an active slot of a container in use is the pid of a live
process, unless a process with that pid has exited since the slot was filled. -/
theorem member_live_or_exited (hN : 0 < N) (hNP : N ≤ P) {π : List (Event P × Kernel N P)}
    (h : IsRun step (boot N P) π) {s : Kernel N P} (hs : s = last (boot N P) π) (k : Fin N)
    (j : Fin P) (hk : s.cont.c_active k = true)
    (hj : (s.cont.container_table k).process_active j = true) :
    s.MemberLive k j ∨ MemberExited (boot N P) k j π := by
  subst hs
  have hknown : Along (MembersKnown (boot N P)) π :=
    IsRun.along (fun k j hk => by cases hk)
      (fun _ _ _ hπ ih hs => ih.step hNP (run_inv hN hNP hπ) hs) h
  exact hknown.here k j hk hj

/-- The run in which init creates a container and joins it. -/
theorem member_live_or_exited_join :
    ∃ (p : Proc) (π : List (Event 2 × Kernel 2 2)), IsRun step (boot 2 2) π ∧
      π.map Prod.fst = [.call init (.container (.join p 0)) (some 0),
        .call init (.container (.create (Container.zero 2))) (some 0), .dispatch init] ∧
      ((last (boot 2 2) π).MemberLive 0 0 ∨ MemberExited (boot 2 2) 0 0 π) := by
  obtain ⟨hrun, hchan⟩ := started_running (N := 2) (P := 2)
  have hcreate := firstCreate_step (s := started 2 2) init rfl hrun hchan
  have hjoin := firstJoin_step (s := { started 2 2 with cont := firstCreate }) init rfl hrun hchan
  have hπ : IsRun step (boot 2 2) [(_, _), (_, _), (_, _)] :=
    ⟨hjoin, hcreate, started_step, trivial⟩
  exact ⟨_, _, hπ, rfl, member_live_or_exited (by decide) (by decide) hπ rfl 0 0 rfl rfl⟩

def child : Fin NPROC := ⟨1, one_lt_NPROC⟩

def forked : Ptable :=
  let t := ((started 2 2).ptable.fork true true init).2
  t.setProc child { t.proc child with state := .RUNNING }

/-- Init forks a child, which creates container `0`, joins it, and exits. The slot stays active with
pid `2`, which no live process has. -/
theorem exit_leaves_member :
    ∃ (p : Proc) (π : List (Event 2 × Kernel 2 2)), IsRun step (boot 2 2) π ∧
      π.map Prod.fst = [.call child .exit none,
        .call child (.container (.join p 0)) (some 0),
        .call child (.container (.create (Container.zero 2))) (some 0),
        .dispatch child, .call init (.fork true true) (some 2), .dispatch init] ∧
      (last (boot 2 2) π).cont.c_active 0 = true ∧
      ((last (boot 2 2) π).cont.container_table 0).process_active 0 = true ∧
      ¬ (last (boot 2 2) π).MemberLive 0 0 := by
  have hrun : (forked.proc child).state = .RUNNING := by decide
  have hchan : (forked.proc child).chan = none := by decide
  have hpid : (forked.proc child).pid = 2 := by decide
  have honly : ∀ i, i ≠ child → (forked.proc i).Live → (forked.proc i).pid ≠ 2 := by decide
  have hfork : step (started 2 2) (.call init (.fork true true) (some 2))
      { started 2 2 with ptable := ((started 2 2).ptable.fork true true init).2 } := by
    refine ⟨⟨started_running.1, .inl started_running.2⟩, fun _ h => (by cases h), ?_⟩
    have hret : ((started 2 2).ptable.fork true true init).1 = 2 := by decide
    simp only [exec, hret]
  have hdisp : step { started 2 2 with ptable := ((started 2 2).ptable.fork true true init).2 }
      (.dispatch child) { started 2 2 with ptable := forked } := ⟨by decide, rfl⟩
  have hcreate := firstCreate_step (s := { started 2 2 with ptable := forked }) child rfl hrun
    hchan
  have hjoin := firstJoin_step (s := ⟨forked, firstCreate⟩) child rfl hrun hchan
  obtain ⟨t, ht⟩ : ∃ t, forked.exit child = some t := by
    unfold Ptable.exit
    rw [if_neg (by decide)]
    exact ⟨_, rfl⟩
  have hexit : step (N := 2) (P := 2) ⟨forked, firstJoin (forked.proc child)⟩
      (.call child .exit none) ⟨t, firstJoin (forked.proc child)⟩ := by
    refine ⟨⟨hrun, .inl hchan⟩, fun _ h => (by cases h), ?_⟩
    simp only [exec, ht]
    rfl
  refine ⟨_, [(_, _), (_, _), (_, _), (_, _), (_, _), (_, _)],
    ⟨hexit, hjoin, hcreate, hdisp, hfork, started_step, trivial⟩, rfl, rfl, rfl, ?_⟩
  rintro ⟨i, hlive, hi⟩
  obtain ⟨hother, hzombie⟩ := Ptable.exit_spec ht
  by_cases hc : i = child
  · subst hc
    exact hlive.2 hzombie
  · apply honly i hc ((hother i hc).same.live.1 hlive)
    rw [← (hother i hc).pid, ← hpid]
    exact hi

end Xv6.Kernel
