import Xv6.Proc.Sleep

/-!
# Sleep locks

`acquiresleep`, `releasesleep` and `holdingsleep` are rounds of `Xv6.Proc.Sleep`, with `lk->lk` for
the lock and a loop around `sleep` in the first. A thread that leaves such a loop has not released
the lock since the test, so that its condition is still true when it makes its change. So nobody
takes a sleep lock that has not been given back, however the threads interleave, and `holdingsleep`
tells who has it.
-/

namespace Xv6

open Function Run

variable {σ C F χ κ : Type*} {n : ℕ} {P : Protocol σ C F χ}

namespace Place

variable {p p' : Place C F χ} {eff : Effect F χ} {d : σ}

theorem next_ready {r : Round C F} {c : C} (h : p.next P n d = some (.change r, eff))
    (hc : r.wait = some c) : P.holds c d = true ∧ eff = .skip := by
  have hsteps := steps_of_next h
  generalize hp' : Place.change r = p' at hsteps
  cases hsteps with
  | pass r' =>
    cases hp'
    simp only [next, hc] at h
    split at h
    · exact ⟨‹_›, rfl⟩
    · cases h
  | yieldUnlock q => cases q <;> cases hp'
  | _ => cases hp'

theorem next_change_iff {f : F} (h : p.next P n d = some (p', eff)) :
    eff = .change f ↔ ∃ r, p = .change r ∧ r.op = f := by
  cases steps_of_next h <;> simp

theorem dispatched_ne_change (h : p.dispatched = some p') (r : Round C F) : p' ≠ .change r := by
  revert h
  fun_cases dispatched p <;> rintro ⟨⟩ <;> simp

end Place

namespace Sleepers

variable {s s' : Sleepers σ C F χ κ n}

def Ready (P : Protocol σ C F χ) (s : Sleepers σ C F χ κ n) : Prop :=
  ∀ i r c, s.place i = .change r → r.wait = some c → P.holds c s.data = true

def made (s : Sleepers σ C F χ κ n) : SleepEvent C F κ n → Option (Round C F)
  | .run k =>
    match s.cpu k with
    | .thread m =>
      match s.place m with
      | .change r => some r
      | _ => none
    | _ => none
  | _ => none

def changes (s₀ : Sleepers σ C F χ κ n) :
    List (SleepEvent C F κ n × Sleepers σ C F χ κ n) → List (Round C F)
  | [] => []
  | (e, _) :: π => ((last s₀ π).made e).toList ++ changes s₀ π

theorem Ready.of_place {i : Fin n} {p : Place C F χ} (h : Ready P s) (hp : ∀ r, p ≠ .change r)
    (hplace : s'.place = update s.place i p) (hdata : s'.data = s.data) : Ready P s' := by
  intro j r c hj hc
  rw [hplace] at hj
  by_cases hji : j = i
  · rw [hji, update_self] at hj
    exact absurd hj (hp r)
  · rw [update_of_ne hji] at hj
    rw [hdata]
    exact h j r c hj hc

variable [DecidableEq κ]

theorem Ready.moved {k : κ} {m : Fin n} {p : Place C F χ} {eff : Effect F χ} (h : Ready P s)
    (hinv : Inv P s) (hnext : (s.place m).next P n s.data = some (p, eff))
    (hm : Moved P s k m p eff s') : Ready P s' := by
  intro i r c hi hc
  by_cases him : i = m
  · -- the test and the change are under `lk`, with nothing in between
    rw [him, hm.place_self] at hi
    subst hi
    obtain ⟨hholds, rfl⟩ := Place.next_ready hnext hc
    rcases hm.data with heq | ⟨f, hf, -⟩
    · rw [heq]
      exact hholds
    · cases hf
  · rw [hm.place_of_ne him] at hi
    rcases hm.data with heq | ⟨f, rfl, -⟩
    · rw [heq]
      exact h i r c hi hc
    · -- the other thread would hold `lk` as well
      have hlk : (s.place i).holdsLock .lk = true := by
        rw [hi]
        rfl
      exact absurd (hinv.exclusive hlk (Place.next_change_lk hnext)) him

theorem Ready.step [DecidableEq χ] {e : SleepEvent C F κ n} (h : Ready P s) (hinv : Inv P s)
    (hs : s.step P e s') : Ready P s' ∧ (s.made e = none ∧ s'.data = s.data ∨
      ∃ i r, s.place i = .change r ∧ s.made e = some r ∧ s'.data = P.change r.op s.data) := by
  cases e with
  | run k =>
    simp only [Sleepers.step, next] at hs
    split at hs
    · rename_i m hcpu
      split at hs
      · rename_i p eff hnext
        have hm := moved_of_move hs
        refine ⟨h.moved hinv hnext hm, ?_⟩
        simp only [made, hcpu]
        split
        · rename_i r hr
          obtain rfl := (Place.next_change_iff hnext).2 ⟨r, hr, rfl⟩
          cases hs
          exact .inr ⟨m, r, hr, rfl, rfl⟩
        · rename_i hne
          rcases hm.data with heq | ⟨f, rfl, -⟩
          · exact .inl ⟨rfl, heq⟩
          · obtain ⟨r, hr, -⟩ := (Place.next_change_iff hnext).1 rfl
            exact absurd hr (hne r)
      · cases hs
    · cases hs
  | start k r | preempt k =>
    simp only [Sleepers.step, next] at hs
    split at hs
    · split at hs
      · cases hs
        exact ⟨h.of_place (by simp) rfl rfl, .inl ⟨rfl, rfl⟩⟩
      · cases hs
    · cases hs
  | enter k | leave k =>
    simp only [Sleepers.step, next, Option.ite_none_right_eq_some] at hs
    obtain rfl := Option.some.inj hs.2
    exact ⟨h, .inl ⟨rfl, rfl⟩⟩
  | dispatch k i =>
    simp only [Sleepers.step, next, Option.ite_none_right_eq_some] at hs
    obtain ⟨-, hs⟩ := hs
    split at hs
    · rename_i p hp
      cases hs
      exact ⟨h.of_place (Place.dispatched_ne_change hp) rfl rfl, .inl ⟨rfl, rfl⟩⟩
    · cases hs

end Sleepers

/-! ## The calls -/

/-- `struct sleeplock`, as far as `lk->lk` guards it. -/
structure Sleeplock where
  locked : Bool
  pid : ℤ
  deriving DecidableEq

inductive LockOp
  | acquiresleep (pid : ℤ)
  | releasesleep
  | holdingsleep (pid : ℤ)
  deriving DecidableEq

def sleeplock : Protocol Sleeplock Unit LockOp Unit where
  holds _ lk := !lk.locked
  chan _ := ()
  change
    | .acquiresleep pid, _ => ⟨true, pid⟩
    | .releasesleep, _ => ⟨false, 0⟩
    | .holdingsleep _, lk => lk
  wakes
    | .releasesleep => some ()
    | _ => none
  law f c lk hbefore hafter := by
    cases f with
    | acquiresleep pid => cases hafter
    | releasesleep => rfl
    | holdingsleep pid => cases hbefore.symm.trans hafter

/-- The calls as rounds. -/
def LockOp.round : LockOp → Round Unit LockOp
  | .acquiresleep pid => ⟨some (), .acquiresleep pid, false⟩
  | .releasesleep => ⟨none, .releasesleep, true⟩
  | .holdingsleep pid => ⟨none, .holdingsleep pid, false⟩

def initsleeplock : Sleeplock := ⟨false, 0⟩

def Sleeplock.after (rs : List (Round Unit LockOp)) : Sleeplock :=
  rs.foldr (fun r => sleeplock.change r.op) initsleeplock

theorem Sleeplock.locked_after {rs t : List (Round Unit LockOp)} (h : (after t).locked = true)
    (hne : ∀ r ∈ rs, r.op ≠ .releasesleep) : (after (rs ++ t)).locked = true := by
  induction rs with
  | nil => exact h
  | cons r rs ih =>
    have hlocked := ih fun r hr => hne r (List.mem_cons_of_mem _ hr)
    have hop := hne r List.mem_cons_self
    show (sleeplock.change r.op (after (rs ++ t))).locked = true
    cases hr : r.op with
    | acquiresleep pid => rfl
    | releasesleep => exact absurd hr hop
    | holdingsleep pid => exact hlocked

namespace Sleepers

abbrev Lockers (κ : Type*) (n : ℕ) := Sleepers Sleeplock Unit LockOp Unit κ n

variable [DecidableEq κ] {π : List (SleepEvent Unit LockOp κ n × Lockers κ n)}

/-- The invariant of a run. -/
structure Taken (π : List (SleepEvent Unit LockOp κ n × Lockers κ n)) : Prop where
  inv : Inv sleeplock (last (boot initsleeplock) π)
  ready : Ready sleeplock (last (boot initsleeplock) π)
  data : (last (boot initsleeplock) π).data = .after (changes (boot initsleeplock) π)
  free : ∀ rs pid rs',
    changes (boot initsleeplock) π = rs ++ (LockOp.acquiresleep pid).round :: rs' →
      (Sleeplock.after rs').locked = false

theorem Taken.step {e : SleepEvent Unit LockOp κ n} {s : Lockers κ n} (h : Taken π)
    (hs : Sleepers.step sleeplock (last (boot initsleeplock) π) e s) : Taken ((e, s) :: π) := by
  obtain ⟨hready, hcase⟩ := h.ready.step h.inv hs
  have hchanges : changes (boot initsleeplock) ((e, s) :: π) =
      ((last (boot initsleeplock) π).made e).toList ++ changes (boot initsleeplock) π := rfl
  rcases hcase with ⟨hmade, hdata⟩ | ⟨i, r, hi, hmade, hdata⟩ <;> rw [hmade] at hchanges
  · exact ⟨h.inv.step hs, hready, hchanges ▸ hdata.trans h.data, hchanges ▸ h.free⟩
  · refine ⟨h.inv.step hs, hready, ?_, fun rs pid rs' hrs => ?_⟩
    · rw [hchanges, last_cons, hdata, h.data]
      rfl
    · rw [hchanges] at hrs
      cases rs with
      | nil =>
        obtain ⟨rfl, rfl⟩ := List.cons.inj hrs
        have hholds := h.ready i _ () hi rfl
        rw [h.data] at hholds
        simpa [sleeplock] using hholds
      | cons r' rs => exact h.free rs pid rs' (List.cons.inj hrs).2

/-- In every run, from an unlocked lock: the lock is as the rounds leave it in the order of their
stores, so that `locked && pid == myproc()->pid` tells the process that has it, and in that order
there is a `releasesleep` between any two `acquiresleep`. -/
theorem acquiresleep_excludes (hrun : IsRun (step sleeplock) (boot initsleeplock) π) :
    (last (boot initsleeplock) π).data = .after (changes (boot initsleeplock) π) ∧
      ∀ rs pid rs' pid' rs'', changes (boot initsleeplock) π =
          rs ++ (LockOp.acquiresleep pid).round ::
            (rs' ++ (LockOp.acquiresleep pid').round :: rs'') →
        ∃ r ∈ rs', r.op = .releasesleep := by
  have h : Taken π := by
    refine (hrun.along (P := Taken) ⟨boot_inv _, nofun, rfl, fun rs pid rs' hrs => ?_⟩
      fun e s π _ h hs => h.step hs).here
    cases rs <;> cases hrs
  refine ⟨h.data, fun rs pid rs' pid' rs'' hrs => ?_⟩
  by_contra! hne
  have hlocked := Sleeplock.locked_after (t := (LockOp.acquiresleep pid').round :: rs'') rfl hne
  rw [h.free rs pid _ hrs] at hlocked
  cases hlocked

def handover : List (SleepEvent Unit LockOp Bool 2) :=
  [[.enter true, .dispatch true consumerSlot, .run true, .enter false, .dispatch false producerSlot,
    .run false, .start true (LockOp.acquiresleep 7).round], List.replicate 4 (.run true),
    [.start false (LockOp.acquiresleep 8).round], List.replicate 7 (.run false),
    [.leave false, .start true LockOp.releasesleep.round], List.replicate 9 (.run true),
    [.enter false, .dispatch false producerSlot], List.replicate 6 (.run false)].flatten

/-- The three rounds in their order, with the `releasesleep` between the others. -/
theorem acquiresleep_excludes_handover :
    ∃ π : List (SleepEvent Unit LockOp Bool 2 × Lockers Bool 2),
      IsRun (step sleeplock) (boot initsleeplock) π ∧
      (last (boot initsleeplock) π).data = ⟨true, 8⟩ ∧
      Sleeplock.after (changes (boot initsleeplock) π) = ⟨true, 8⟩ ∧
      ∃ rs, changes (boot initsleeplock) π =
        (LockOp.acquiresleep 8).round :: (rs ++ [(LockOp.acquiresleep 7).round]) ∧
        ∃ r ∈ rs, r.op = .releasesleep := by
  have heval : (history (tick (next sleeplock)) (boot initsleeplock) [] handover).map
      (fun π => ((last (boot initsleeplock) π).data, changes (boot initsleeplock) π)) =
      some (⟨true, 8⟩, [(LockOp.acquiresleep 8).round, LockOp.releasesleep.round,
        (LockOp.acquiresleep 7).round]) := by
    decide +kernel
  obtain ⟨π, hrun, heq⟩ := exists_run_tick heval
  obtain ⟨hdata, hchanges⟩ := Prod.mk.inj heq
  obtain ⟨hafter, hbetween⟩ := acquiresleep_excludes hrun
  refine ⟨π, hrun, hdata, hafter.symm.trans hdata, [LockOp.releasesleep.round], hchanges, ?_⟩
  exact hbetween [] 8 [LockOp.releasesleep.round] 7 [] hchanges

end Sleepers

end Xv6
