import Xv6.Lib.Run
import Xv6.Proc.Table
import Mathlib.Tactic.Common

/-!
# `sleep` and `wakeup`

Any number of threads on any number of CPUs run rounds: a thread acquires the lock `lk`, waits for a
condition in a loop around `sleep(chan, lk)` if it has one to wait for, changes the data that `lk`
guards, and calls `wakeup` before or after it releases `lk`. A consumer waits, a producer does not;
a reader of a pipe is both. Every `acquire` and `release`, every store of `sleep`, the switch in
`sched`, every iteration of the loop of `wakeup1`, and the loop of the scheduler are steps of their
own, and a thread may be preempted wherever it holds no lock. A spinlock is held by a CPU: `sched`
leaves `ptable.lock` to the scheduler of the CPU, and the scheduler leaves it to the thread that it
dispatches.

The text of the calls is a table, `Place.next`: from each place of a thread the next one, with the
effect of the step. What the proofs need of the text is stated about this table once.

No wakeup is lost: when a thread sleeps and the condition that it waits for holds, then another
thread has still to wake it.
-/

namespace Xv6

open Function (update update_of_ne update_self)

open Run

/-- Conditions `C` on data `σ` and the channels `χ` on which threads wait for them, and changes `F` of
the data. Who makes a condition true wakes its channel. -/
structure Protocol (σ C F χ : Type*) where
  holds : C → σ → Bool
  chan : C → χ
  change : F → σ → σ
  /-- The channel that is woken after the change. -/
  wakes : F → Option χ
  law : ∀ f c d, holds c d = false → holds c (change f d) = true → wakes f = some (chan c)

/-- A round of a thread: the condition that it waits for, the change that it makes, and whether it
calls `wakeup` before it releases `lk`. -/
structure Round (C F : Type*) where
  wait : Option C
  op : F
  early : Bool
  deriving DecidableEq

/-- The two spinlocks. -/
inductive Spinlock
  | lk | ptable
  deriving DecidableEq

/-- The steps of `sleep`; `off` is inside of `sched`, after the switch. -/
inductive SleepAt
  | acquire | release | chan | state | sched | off | tidy | unlock | reacquire
  deriving DecidableEq

/-- The steps of `wakeup`, with the iterations of the loop of `wakeup1`. -/
inductive WakeAt
  | acquire | loop (j : ℕ) | release
  deriving DecidableEq

/-- The steps of `yield`. -/
inductive YieldAt
  | acquire | state | sched | off | release
  deriving DecidableEq

/-- Where a thread may be preempted: it holds no lock there. -/
inductive Rest (C F χ : Type*)
  | idle
  | acquire (r : Round C F)
  | reacquire (r : Round C F) (c : C)
  /-- Before `wakeup`, after the release of `lk`. -/
  | wake (x : χ)

/-- Where a thread is: before the step that the name says. -/
inductive Place (C F χ : Type*)
  | idle
  | acquire (r : Round C F)
  | test (r : Round C F)
  | sleep (p : SleepAt) (r : Round C F) (c : C)
  | change (r : Round C F)
  | wake (p : WakeAt) (x : χ) (early : Bool)
  /-- `release(lk)`; the channel that is woken after it, if any. -/
  | release (x : Option χ)
  /-- Preempted, with the place to go back to. -/
  | yield (p : YieldAt) (ret : Rest C F χ)

/-- What a step does, beside the move to the next place. -/
inductive Effect (F χ : Type*)
  | skip
  | acquire (l : Spinlock)
  | release (l : Spinlock)
  | chan (x : Option χ)
  | state (st : ProcState)
  | sched
  | change (f : F)
  /-- An iteration of the loop of `wakeup1`. -/
  | wake (j : ℕ) (x : χ)

variable {σ C F χ : Type*}

def Rest.place : Rest C F χ → Place C F χ
  | .idle => .idle
  | .acquire r => .acquire r
  | .reacquire r c => .sleep .reacquire r c
  | .wake x => .wake .acquire x false

namespace Place

def next (P : Protocol σ C F χ) (n : ℕ) (d : σ) : Place C F χ → Option (Place C F χ × Effect F χ)
  | .idle => none
  | .acquire r => some (.test r, .acquire .lk)
  | .test r =>
    match r.wait with
    | none => some (.change r, .skip)
    | some c => if P.holds c d then some (.change r, .skip) else some (.sleep .acquire r c, .skip)
  | .sleep .acquire r c => some (.sleep .release r c, .acquire .ptable)
  | .sleep .release r c => some (.sleep .chan r c, .release .lk)
  | .sleep .chan r c => some (.sleep .state r c, .chan (some (P.chan c)))
  | .sleep .state r c => some (.sleep .sched r c, .state .SLEEPING)
  | .sleep .sched r c => some (.sleep .off r c, .sched)
  | .sleep .off _ _ => none
  | .sleep .tidy r c => some (.sleep .unlock r c, .chan none)
  | .sleep .unlock r c => some (.sleep .reacquire r c, .release .ptable)
  | .sleep .reacquire r _ => some (.test r, .acquire .lk)
  | .change r =>
    match P.wakes r.op with
    | none => some (.release none, .change r.op)
    | some x =>
      if r.early then some (.wake .acquire x true, .change r.op)
      else some (.release (some x), .change r.op)
  | .wake .acquire x early => some (.wake (.loop 0) x early, .acquire .ptable)
  | .wake (.loop j) x early =>
    if j < n then some (.wake (.loop (j + 1)) x early, .wake j x)
    else some (.wake .release x early, .skip)
  | .wake .release _ true => some (.release none, .release .ptable)
  | .wake .release _ false => some (.idle, .release .ptable)
  | .release none => some (.idle, .release .lk)
  | .release (some x) => some (.wake .acquire x false, .release .lk)
  | .yield .acquire p => some (.yield .state p, .acquire .ptable)
  | .yield .state p => some (.yield .sched p, .state .RUNNABLE)
  | .yield .sched p => some (.yield .off p, .sched)
  | .yield .off _ => none
  | .yield .release p => some (p.place, .release .ptable)

def dispatched : Place C F χ → Option (Place C F χ)
  | .sleep .off r c => some (.sleep .tidy r c)
  | .yield .off p => some (.yield .release p)
  | _ => none

def holdsLk : Place C F χ → Bool
  | .test _ | .change _ | .release _ | .sleep .acquire _ _ | .sleep .release _ _ => true
  | .wake _ _ early => early
  | _ => false

def holdsPtable : Place C F χ → Bool
  | .sleep .release _ _ | .sleep .chan _ _ | .sleep .state _ _ | .sleep .sched _ _ => true
  | .sleep .tidy _ _ | .sleep .unlock _ _ | .wake (.loop _) _ _ | .wake .release _ _ => true
  | .yield .state _ | .yield .sched _ | .yield .release _ => true
  | _ => false

def holdsLock (p : Place C F χ) : Spinlock → Bool
  | .lk => p.holdsLk
  | .ptable => p.holdsPtable

def off : Place C F χ → Bool
  | .sleep .off _ _ | .yield .off _ => true
  | _ => false

def rest : Place C F χ → Option (Rest C F χ)
  | .idle => some .idle
  | .acquire r => some (.acquire r)
  | .sleep .reacquire r c => some (.reacquire r c)
  | .wake .acquire x false => some (.wake x)
  | _ => none

def tested : Place C F χ → Option C
  | .sleep .acquire _ c | .sleep .release _ c => some c
  | _ => none

def committed : Place C F χ → Option C
  | .sleep .chan _ c | .sleep .state _ c | .sleep .sched _ c | .sleep .off _ c => some c
  | _ => none

def onChan : Place C F χ → Option C
  | .sleep .state _ c | .sleep .sched _ c | .sleep .off _ c => some c
  | _ => none

def asleep : Place C F χ → Option C
  | .sleep .sched _ c | .sleep .off _ c => some c
  | _ => none

def Owes (x : χ) (i : ℕ) : Place C F χ → Prop
  | .wake .acquire y _ => y = x
  | .wake (.loop j) y _ => y = x ∧ j ≤ i
  | .release y => y = some x
  | .yield _ (.wake y) => y = x
  | _ => False

end Place

/-- What a CPU runs: its scheduler without `ptable.lock`, its scheduler with it, or a thread. -/
inductive Running (n : ℕ)
  | idle
  | scheduler
  | thread (i : Fin n)
  deriving DecidableEq

/-- The threads, the CPUs, and the locks, each with the CPU that holds it. -/
structure Sleepers (σ C F χ κ : Type*) (n : ℕ) where
  data : σ
  lock : Spinlock → Option κ
  cpu : κ → Running n
  place : Fin n → Place C F χ
  state : Fin n → ProcState
  chan : Fin n → Option χ

/-- A step of a CPU. -/
inductive SleepEvent (C F κ : Type*) (n : ℕ)
  /-- The next step of the thread that runs. -/
  | run (k : κ)
  /-- The thread that runs begins a round. -/
  | start (k : κ) (r : Round C F)
  /-- A timer interrupt. -/
  | preempt (k : κ)
  /-- The scheduler acquires `ptable.lock`. -/
  | enter (k : κ)
  /-- The scheduler releases `ptable.lock`. -/
  | leave (k : κ)
  | dispatch (k : κ) (i : Fin n)

namespace Sleepers

variable {κ : Type*} {n : ℕ} [DecidableEq χ] [DecidableEq κ]

def move (P : Protocol σ C F χ) (s : Sleepers σ C F χ κ n) (k : κ) (m : Fin n) (p : Place C F χ) :
    Effect F χ → Option (Sleepers σ C F χ κ n)
  | .skip => some { s with place := update s.place m p }
  | .acquire l =>
    if s.lock l = none then
      some { s with lock := update s.lock l (some k), place := update s.place m p }
    else none
  | .release l =>
    if s.lock l = some k then
      some { s with lock := update s.lock l none, place := update s.place m p }
    else none
  | .chan x =>
    some { s with chan := update s.chan m x, place := update s.place m p }
  | .state st =>
    some { s with state := update s.state m st, place := update s.place m p }
  | .sched =>
    some { s with cpu := update s.cpu k .scheduler, place := update s.place m p }
  | .change f =>
    some { s with data := P.change f s.data, place := update s.place m p }
  | .wake j x =>
    some { s with
      state := fun i =>
        if i = j ∧ s.state i = .SLEEPING ∧ s.chan i = some x then .RUNNABLE else s.state i
      place := update s.place m p }

def next (P : Protocol σ C F χ) (s : Sleepers σ C F χ κ n) :
    SleepEvent C F κ n → Option (Sleepers σ C F χ κ n)
  | .run k =>
    match s.cpu k with
    | .thread m =>
      match (s.place m).next P n s.data with
      | some (p, eff) => s.move P k m p eff
      | none => none
    | _ => none
  | .start k r =>
    match s.cpu k with
    | .thread m =>
      match s.place m with
      | .idle => some { s with place := update s.place m (.acquire r) }
      | _ => none
    | _ => none
  | .preempt k =>
    match s.cpu k with
    | .thread m =>
      match (s.place m).rest with
      | some q => some { s with place := update s.place m (.yield .acquire q) }
      | none => none
    | _ => none
  | .enter k =>
    if s.cpu k = .idle ∧ s.lock .ptable = none then
      some { s with
        lock := update s.lock .ptable (some k)
        cpu := update s.cpu k .scheduler }
    else none
  | .leave k =>
    if s.cpu k = .scheduler then
      some { s with
        lock := update s.lock .ptable none
        cpu := update s.cpu k .idle }
    else none
  | .dispatch k i =>
    if s.cpu k = .scheduler ∧ s.state i = .RUNNABLE then
      match (s.place i).dispatched with
      | some p => some { s with
          cpu := update s.cpu k (.thread i)
          state := update s.state i .RUNNING
          place := update s.place i p }
      | none => none
    else none

/-- One step. -/
def step (P : Protocol σ C F χ) (s : Sleepers σ C F χ κ n) (e : SleepEvent C F κ n)
    (s' : Sleepers σ C F χ κ n) : Prop := s.next P e = some s'

def boot (d : σ) : Sleepers σ C F χ κ n where
  data := d
  lock := fun _ => none
  cpu := fun _ => .idle
  place := fun _ => .yield .off .idle
  state := fun _ => .RUNNABLE
  chan := fun _ => none

end Sleepers

/-! ## The text of the calls -/

def Effect.locks (held : Spinlock → Bool) : Effect F χ → Spinlock → Bool
  | .acquire l => update held l true
  | .release l => update held l false
  | .sched => update held .ptable false
  | _ => held

namespace Place

variable {P : Protocol σ C F χ} {n : ℕ} {d : σ} {p p' : Place C F χ} {eff : Effect F χ}

theorem of_rest (q : Rest C F χ) : q.place.off = false ∧ (∀ l, q.place.holdsLock l = false) ∧
    q.place.tested = none ∧ q.place.committed = none ∧ q.place.onChan = none := by
  cases q <;> exact ⟨rfl, fun l => by cases l <;> rfl, rfl, rfl, rfl⟩

theorem owes_yield {x : χ} {i : ℕ} {q : YieldAt} {r : Rest C F χ} :
    (Place.yield q r).Owes x i ↔ r.place.Owes x i := by
  cases r <;> exact Iff.rfl

/-- The steps of `next`, as a relation. -/
inductive Steps (P : Protocol σ C F χ) (n : ℕ) (d : σ) :
    Place C F χ → Place C F χ → Effect F χ → Prop
  | acquire (r : Round C F) : Steps P n d (.acquire r) (.test r) (.acquire .lk)
  | pass (r : Round C F) : Steps P n d (.test r) (.change r) .skip
  | fail (r : Round C F) (c : C) (hfails : P.holds c d = false) :
    Steps P n d (.test r) (.sleep .acquire r c) .skip
  | lockTable (r : Round C F) (c : C) :
    Steps P n d (.sleep .acquire r c) (.sleep .release r c) (.acquire .ptable)
  | unlock (r : Round C F) (c : C) :
    Steps P n d (.sleep .release r c) (.sleep .chan r c) (.release .lk)
  | chan (r : Round C F) (c : C) :
    Steps P n d (.sleep .chan r c) (.sleep .state r c) (.chan (some (P.chan c)))
  | state (r : Round C F) (c : C) :
    Steps P n d (.sleep .state r c) (.sleep .sched r c) (.state .SLEEPING)
  | sched (r : Round C F) (c : C) : Steps P n d (.sleep .sched r c) (.sleep .off r c) .sched
  | tidy (r : Round C F) (c : C) :
    Steps P n d (.sleep .tidy r c) (.sleep .unlock r c) (.chan none)
  | unlockTable (r : Round C F) (c : C) :
    Steps P n d (.sleep .unlock r c) (.sleep .reacquire r c) (.release .ptable)
  | reacquire (r : Round C F) (c : C) :
    Steps P n d (.sleep .reacquire r c) (.test r) (.acquire .lk)
  | change (r : Round C F) (hwakes : P.wakes r.op = none) :
    Steps P n d (.change r) (.release none) (.change r.op)
  | changeEarly (r : Round C F) (x : χ) (hwakes : P.wakes r.op = some x) :
    Steps P n d (.change r) (.wake .acquire x true) (.change r.op)
  | changeLate (r : Round C F) (x : χ) (hwakes : P.wakes r.op = some x) :
    Steps P n d (.change r) (.release (some x)) (.change r.op)
  | wakeLock (x : χ) (early : Bool) :
    Steps P n d (.wake .acquire x early) (.wake (.loop 0) x early) (.acquire .ptable)
  | wakeOne (j : ℕ) (x : χ) (early : Bool) (hj : j < n) :
    Steps P n d (.wake (.loop j) x early) (.wake (.loop (j + 1)) x early) (.wake j x)
  | wakeEnd (j : ℕ) (x : χ) (early : Bool) (hj : ¬ j < n) :
    Steps P n d (.wake (.loop j) x early) (.wake .release x early) .skip
  | wakeUnlockEarly (x : χ) : Steps P n d (.wake .release x true) (.release none) (.release .ptable)
  | wakeUnlockLate (x : χ) : Steps P n d (.wake .release x false) .idle (.release .ptable)
  | release : Steps P n d (.release none) .idle (.release .lk)
  | releaseWake (x : χ) : Steps P n d (.release (some x)) (.wake .acquire x false) (.release .lk)
  | yieldLock (q : Rest C F χ) :
    Steps P n d (.yield .acquire q) (.yield .state q) (.acquire .ptable)
  | yieldState (q : Rest C F χ) :
    Steps P n d (.yield .state q) (.yield .sched q) (.state .RUNNABLE)
  | yieldSched (q : Rest C F χ) : Steps P n d (.yield .sched q) (.yield .off q) .sched
  | yieldUnlock (q : Rest C F χ) : Steps P n d (.yield .release q) q.place (.release .ptable)

theorem steps_of_next (h : p.next P n d = some (p', eff)) : Steps P n d p p' eff := by
  revert h
  fun_cases next P n d p <;> intro h <;> cases h
  all_goals first
    | (constructor; done)
    | (constructor; assumption)
    | exact .fail _ _ (Bool.eq_false_iff.2 ‹_›)

theorem next_off (h : p.next P n d = some (p', eff)) :
    p.off = false ∧ (p'.off = true ↔ eff = .sched) := by
  cases steps_of_next h <;> refine ⟨rfl, ?_⟩
  all_goals first
    | (simp [of_rest]; done)
    | simp [off]

theorem next_locks (h : p.next P n d = some (p', eff)) :
    p'.holdsLock = eff.locks p.holdsLock := by
  cases steps_of_next h <;> funext l
  all_goals first
    | (cases l <;> rfl)
    | (rw [(of_rest _).2.1]; cases l <;> rfl)

theorem next_sched (h : p.next P n d = some (p', .sched)) : p.holdsLock .ptable = true := by
  cases steps_of_next h <;> rfl

theorem next_owes {x : χ} {i : ℕ} (hi : i < n) (h : p.next P n d = some (p', eff))
    (howes : p.Owes x i) : p'.Owes x i ∨ eff = .wake i x := by
  cases steps_of_next h with
  | wakeLock => exact .inl ⟨howes, Nat.zero_le i⟩
  | wakeOne j =>
    obtain ⟨rfl, hj⟩ := howes
    rcases Nat.eq_or_lt_of_le hj with rfl | hlt
    · exact .inr rfl
    · exact .inl ⟨rfl, hlt⟩
  | wakeEnd j _ _ hend => exact absurd (lt_of_le_of_lt howes.2 hi) hend
  | releaseWake => exact .inl (Option.some.inj howes)
  | release => cases howes
  | yieldLock | yieldState | yieldSched => exact .inl (owes_yield.2 (owes_yield.1 howes))
  | yieldUnlock => exact .inl (owes_yield.1 howes)
  | _ => exact howes.elim

theorem next_change {f : F} {x : χ} (i : ℕ) (h : p.next P n d = some (p', .change f))
    (hx : P.wakes f = some x) : p'.Owes x i := by
  cases steps_of_next h with
  | change _ hnone =>
    rw [hnone] at hx
    cases hx
  | changeEarly _ _ hsome => exact Option.some.inj (hsome.symm.trans hx)
  | changeLate _ _ hsome => exact hsome.symm.trans hx

theorem next_tested {c : C} (h : p.next P n d = some (p', eff)) (hc : p'.tested = some c) :
    (p.tested = some c ∨ P.holds c d = false) ∧ ∀ f, eff ≠ .change f := by
  cases steps_of_next h <;> first | cases hc | (rw [(of_rest _).2.2.1] at hc; cases hc)
  · rename_i hfails
    exact ⟨.inr hfails, by simp⟩
  · exact ⟨.inl rfl, by simp⟩

theorem next_committed {c : C} (h : p.next P n d = some (p', eff)) (hc : p'.committed = some c) :
    (p.tested = some c ∨ p.committed = some c) ∧ ∀ f, eff ≠ .change f := by
  cases steps_of_next h <;> first | cases hc | (rw [(of_rest _).2.2.2.1] at hc; cases hc)
  · exact ⟨.inl rfl, by simp⟩
  all_goals exact ⟨.inr rfl, by simp⟩

theorem next_onChan {c : C} (h : p.next P n d = some (p', eff)) (hc : p'.onChan = some c) :
    eff = .chan (some (P.chan c)) ∨ p.onChan = some c ∧ ∀ x, eff ≠ .chan x := by
  cases steps_of_next h <;> first | cases hc | (rw [(of_rest _).2.2.2.2] at hc; cases hc)
  · exact .inl rfl
  all_goals exact .inr ⟨rfl, by simp⟩

theorem next_asleep {c : C} (h : p.next P n d = some (p', eff)) (hc : p.asleep = some c) :
    p'.asleep = some c := by
  cases steps_of_next h <;> first | exact hc | cases hc

theorem next_sleeping (h : p.next P n d = some (p', .state .SLEEPING)) :
    ∃ c, p'.asleep = some c := by
  cases steps_of_next h
  exact ⟨_, rfl⟩

theorem next_change_lk {f : F} (h : p.next P n d = some (p', .change f)) :
    p.holdsLock .lk = true := by
  cases steps_of_next h <;> rfl

theorem next_wake_ptable {j : ℕ} {x : χ} (h : p.next P n d = some (p', .wake j x)) :
    p.holdsLock .ptable = true := by
  cases steps_of_next h
  rfl

theorem holdsLock_of_off (h : p.off = true) (l : Spinlock) : p.holdsLock l = false := by
  revert h
  fun_cases off p <;> intro h
  · cases l <;> rfl
  · cases l <;> rfl
  · cases h

theorem holdsLk_of_tested {c : C} (h : p.tested = some c) : p.holdsLock .lk = true := by
  revert h
  fun_cases tested p <;> intro h <;> first | rfl | cases h

theorem of_committed {c : C} (h : p.committed = some c) :
    (p.off = false → p.holdsLock .ptable = true) ∧ (p.off = true → p.onChan = some c) ∧
      ∀ x i, ¬p.Owes x i := by
  revert h
  fun_cases committed p <;> intro h <;> cases h
  · exact ⟨fun _ => rfl, nofun, fun _ _ => id⟩
  · exact ⟨fun _ => rfl, nofun, fun _ _ => id⟩
  · exact ⟨fun _ => rfl, nofun, fun _ _ => id⟩
  · exact ⟨nofun, fun _ => rfl, fun _ _ => id⟩

theorem of_asleep {c : C} (h : p.asleep = some c) : p.committed = some c ∧ p.onChan = some c := by
  revert h
  fun_cases asleep p <;> intro h <;> cases h <;> exact ⟨rfl, rfl⟩

theorem dispatched_spec (h : p.dispatched = some p') : p.off = true ∧ p'.off = false ∧
    p'.holdsLock .lk = false ∧ p'.holdsLock .ptable = true ∧ p'.tested = none ∧
    p'.committed = none ∧ p'.onChan = none ∧ ∀ x i, p.Owes x i → p'.Owes x i := by
  revert h
  fun_cases dispatched p <;> intro h <;> cases h
  · exact ⟨rfl, rfl, rfl, rfl, rfl, rfl, rfl, fun _ _ => id⟩
  · refine ⟨rfl, rfl, rfl, rfl, rfl, rfl, rfl, fun x i howes => ?_⟩
    rw [owes_yield] at howes ⊢
    exact howes

theorem rest_spec {q : Rest C F χ} (h : p.rest = some q) : p = q.place := by
  revert h
  fun_cases rest p <;> intro h <;> cases h <;> rfl

end Place

/-! ## The invariant -/

namespace Sleepers

variable {κ : Type*} {n : ℕ} {P : Protocol σ C F χ} {s s' : Sleepers σ C F χ κ n}

/-- The invariant. A lock is held by the CPU of the thread or scheduler that is at a place where it
holds it. A thread that sleeps has stored its channel. A thread that is about to sleep has found that
its condition does not hold while it holds `lk`, and after that the condition holds only if someone
has still to wake it. -/
structure Inv (P : Protocol σ C F χ) (s : Sleepers σ C F χ κ n) : Prop where
  locks : ∀ i l, (s.place i).holdsLock l = true → ∃ k, s.cpu k = .thread i ∧ s.lock l = some k
  scheduler : ∀ k, s.cpu k = .scheduler → s.lock .ptable = some k
  on : ∀ k i, s.cpu k = .thread i → (s.place i).off = false
  single : ∀ k k' i, s.cpu k = .thread i → s.cpu k' = .thread i → k = k'
  asleep : ∀ i, s.state i = .SLEEPING → ∃ c, (s.place i).asleep = some c
  chan : ∀ i c, (s.place i).onChan = some c → s.chan i = some (P.chan c)
  tested : ∀ i c, (s.place i).tested = some c → P.holds c s.data = false
  owed : ∀ i c, (s.place i).committed = some c →
    ((s.place i).off = true → s.state i = .SLEEPING) → P.holds c s.data = true →
    ∃ m, (s.place m).Owes (P.chan c) i

theorem boot_inv (d : σ) : Inv P (boot d : Sleepers σ C F χ κ n) := by
  refine ⟨fun i l h => ?_, ?_, ?_, ?_, ?_, ?_, ?_, ?_⟩
  · cases l <;> cases h
  · rintro k ⟨⟩
  · rintro k i ⟨⟩
  · rintro k k' i ⟨⟩
  · rintro i ⟨⟩
  · rintro i c ⟨⟩
  · rintro i c ⟨⟩
  · rintro i c ⟨⟩

theorem Inv.exclusive (h : Inv P s) {i j : Fin n} {l : Spinlock}
    (hi : (s.place i).holdsLock l = true) (hj : (s.place j).holdsLock l = true) : i = j := by
  obtain ⟨k, hk, hlk⟩ := h.locks i l hi
  obtain ⟨k', hk', hlk'⟩ := h.locks j l hj
  cases hlk.symm.trans hlk'
  exact Running.thread.inj (hk.symm.trans hk')

/-- What a step of the thread `m` on CPU `k` to the place `p` does. -/
structure Moved [DecidableEq κ] (P : Protocol σ C F χ) (s : Sleepers σ C F χ κ n) (k : κ) (m : Fin n)
    (p : Place C F χ) (eff : Effect F χ) (s' : Sleepers σ C F χ κ n) : Prop where
  place : s'.place = update s.place m p
  data : s'.data = s.data ∨ ∃ f, eff = .change f ∧ s'.data = P.change f s.data
  cpu : s'.cpu = s.cpu ∧ eff ≠ .sched ∨
    s'.cpu = update s.cpu k .scheduler ∧ eff = .sched
  lock : s'.lock = s.lock ∧ (∀ l, eff ≠ .acquire l) ∧ (∀ l, eff ≠ .release l) ∨
    (∃ l, eff = .acquire l ∧ s.lock l = none ∧ s'.lock = update s.lock l (some k)) ∨
    ∃ l, eff = .release l ∧ s.lock l = some k ∧ s'.lock = update s.lock l none
  state : ∀ i, s'.state i = .SLEEPING → s.state i = .SLEEPING ∨ i = m ∧ eff = .state .SLEEPING
  wakes : ∀ (i : Fin n) x, eff = .wake i x → s.chan i = some x → s'.state i ≠ .SLEEPING
  chan : s'.chan = s.chan ∧ (∀ x, eff ≠ .chan x) ∨
    ∃ x, eff = .chan x ∧ s'.chan = update s.chan m x

theorem moved_of_move [DecidableEq χ] [DecidableEq κ] {k : κ} {m : Fin n} {p : Place C F χ}
    {eff : Effect F χ} (h : s.move P k m p eff = some s') : Moved P s k m p eff s' := by
  cases eff with
  | skip =>
    cases h
    exact ⟨rfl, .inl rfl, .inl ⟨rfl, by simp⟩, .inl ⟨rfl, by simp, by simp⟩, fun i => .inl,
      by simp, .inl ⟨rfl, by simp⟩⟩
  | acquire l =>
    simp only [move, Option.ite_none_right_eq_some] at h
    obtain ⟨hfree, h⟩ := h
    cases h
    exact ⟨rfl, .inl rfl, .inl ⟨rfl, by simp⟩, .inr (.inl ⟨l, rfl, hfree, rfl⟩), fun i => .inl,
      by simp, .inl ⟨rfl, by simp⟩⟩
  | release l =>
    simp only [move, Option.ite_none_right_eq_some] at h
    obtain ⟨hheld, h⟩ := h
    cases h
    exact ⟨rfl, .inl rfl, .inl ⟨rfl, by simp⟩, .inr (.inr ⟨l, rfl, hheld, rfl⟩), fun i => .inl,
      by simp, .inl ⟨rfl, by simp⟩⟩
  | chan x =>
    cases h
    exact ⟨rfl, .inl rfl, .inl ⟨rfl, by simp⟩, .inl ⟨rfl, by simp, by simp⟩, fun i => .inl,
      by simp, .inr ⟨x, rfl, rfl⟩⟩
  | state st =>
    cases h
    refine ⟨rfl, .inl rfl, .inl ⟨rfl, by simp⟩, .inl ⟨rfl, by simp, by simp⟩, fun i hi => ?_,
      by simp, .inl ⟨rfl, by simp⟩⟩
    by_cases him : i = m
    · rw [him] at hi
      simp only [update_self] at hi
      exact .inr ⟨him, by rw [hi]⟩
    · simp only [update_of_ne him] at hi
      exact .inl hi
  | sched =>
    cases h
    exact ⟨rfl, .inl rfl, .inr ⟨rfl, rfl⟩, .inl ⟨rfl, by simp, by simp⟩, fun i => .inl,
      by simp, .inl ⟨rfl, by simp⟩⟩
  | change f =>
    cases h
    exact ⟨rfl, .inr ⟨f, rfl, rfl⟩, .inl ⟨rfl, by simp⟩, .inl ⟨rfl, by simp, by simp⟩,
      fun i => .inl, by simp, .inl ⟨rfl, by simp⟩⟩
  | wake j x =>
    cases h
    refine ⟨rfl, .inl rfl, .inl ⟨rfl, by simp⟩, .inl ⟨rfl, by simp, by simp⟩, fun i hi => ?_,
      fun i y heq hchan => ?_, .inl ⟨rfl, by simp⟩⟩
    · simp only at hi
      split at hi
      · cases hi
      · exact .inl hi
    · cases heq
      simp only [hchan, true_and, and_true]
      split
      · simp
      · rename_i hs
        exact hs

theorem Inv.of_place {m : Fin n} {p : Place C F χ} (h : Inv P s)
    (hasleep : (s.place m).asleep = none) (hoff : p.off = false)
    (hlocks : ∀ l, p.holdsLock l = false) (htested : p.tested = none)
    (hcommitted : p.committed = none) (honChan : p.onChan = none)
    (howes : ∀ x i, (s.place m).Owes x i → p.Owes x i) :
    Inv P { s with place := update s.place m p } := by
  have hself : update s.place m p m = p := update_self ..
  have hother : ∀ i, i ≠ m → update s.place m p i = s.place i :=
    fun i hi => update_of_ne hi ..
  refine ⟨fun i l hl => ?_, h.scheduler, fun k' i hi => ?_, h.single, fun i hi => ?_,
    fun i c hc => ?_, fun i c hc => ?_, fun i c hc hsleep hholds => ?_⟩ <;>
    by_cases him : i = m
  · simp only [him, hself, hlocks] at hl
    cases hl
  · simp only [hother i him] at hl
    exact h.locks i l hl
  · simp only [him, hself, hoff]
  · simp only [hother i him]
    exact h.on k' i hi
  · obtain ⟨c, hc⟩ := h.asleep i hi
    rw [him, hasleep] at hc
    cases hc
  · simp only [hother i him]
    exact h.asleep i hi
  · simp only [him, hself, honChan] at hc
    cases hc
  · simp only [hother i him] at hc
    exact h.chan i c hc
  · simp only [him, hself, htested] at hc
    cases hc
  · simp only [hother i him] at hc
    exact h.tested i c hc
  · simp only [him, hself, hcommitted] at hc
    cases hc
  · simp only [hother i him] at hc hsleep
    obtain ⟨j, hj⟩ := h.owed i c hc hsleep hholds
    refine ⟨j, ?_⟩
    by_cases hjm : j = m
    · subst hjm
      simp only [hself]
      exact howes _ _ hj
    · simp only [hother j hjm]
      exact hj

section

variable [DecidableEq κ] {k : κ} {m : Fin n} {p : Place C F χ} {eff : Effect F χ}

theorem Moved.cpu_thread (hm : Moved P s k m p eff s') {k' : κ} {i : Fin n}
    (h : s'.cpu k' = .thread i) : s.cpu k' = .thread i ∧ (eff = .sched → k' ≠ k) := by
  rcases hm.cpu with ⟨hcpu, hne⟩ | ⟨hcpu, heq⟩
  · rw [hcpu] at h
    exact ⟨h, fun heq => absurd heq hne⟩
  · rw [hcpu] at h
    by_cases hk : k' = k
    · rw [hk, update_self] at h
      cases h
    · rw [update_of_ne hk] at h
      exact ⟨h, fun _ => hk⟩

theorem Moved.cpu_of_ne (hm : Moved P s k m p eff s') {k' : κ} (h : k' ≠ k) :
    s'.cpu k' = s.cpu k' := by
  rcases hm.cpu with ⟨hcpu, -⟩ | ⟨hcpu, -⟩
  · rw [hcpu]
  · rw [hcpu, update_of_ne h]

theorem Moved.lock_of_ne (hm : Moved P s k m p eff s') {k' : κ} {l : Spinlock} (hk : k' ≠ k)
    (h : s.lock l = some k') : s'.lock l = some k' := by
  rcases hm.lock with ⟨hlock, -⟩ | ⟨l', -, hfree, hlock⟩ | ⟨l', -, hheld, hlock⟩
  · rw [hlock, h]
  · rw [hlock, update_of_ne, h]
    rintro rfl
    rw [h] at hfree
    cases hfree
  · rw [hlock, update_of_ne, h]
    rintro rfl
    exact hk (Option.some.inj (h.symm.trans hheld))

theorem Moved.place_self (hm : Moved P s k m p eff s') : s'.place m = p := by
  rw [hm.place, update_self]

theorem Moved.place_of_ne (hm : Moved P s k m p eff s') {i : Fin n} (h : i ≠ m) :
    s'.place i = s.place i := by
  rw [hm.place, update_of_ne h]

theorem Moved.owes (hm : Moved P s k m p eff s')
    (hnext : (s.place m).next P n s.data = some (p, eff)) {j i : Fin n} {x : χ}
    (h : (s.place j).Owes x i) : (s'.place j).Owes x i ∨ eff = .wake i x := by
  by_cases hj : j = m
  · subst hj
    rw [hm.place_self]
    exact Place.next_owes i.isLt hnext h
  · rw [hm.place_of_ne hj]
    exact .inl h

theorem Inv.run_locks (h : Inv P s) (hcpu : s.cpu k = .thread m)
    (hnext : (s.place m).next P n s.data = some (p, eff)) (hm : Moved P s k m p eff s')
    (i : Fin n) (l : Spinlock) (hl : (s'.place i).holdsLock l = true) :
    ∃ k, s'.cpu k = .thread i ∧ s'.lock l = some k := by
  by_cases him : i = m
  · subst him
    rw [hm.place_self] at hl
    have hold : (s.place i).holdsLock l = true → s.lock l = some k := by
      intro hl
      obtain ⟨k', hk', hlk⟩ := h.locks i l hl
      rw [hlk, h.single k' k i hk' hcpu]
    have hoff : eff ≠ .sched := by
      rintro rfl
      rw [Place.holdsLock_of_off ((Place.next_off hnext).2.2 rfl)] at hl
      cases hl
    refine ⟨k, ?_, ?_⟩
    · rcases hm.cpu with ⟨heq, -⟩ | ⟨-, heq⟩
      · rw [heq, hcpu]
      · exact absurd heq hoff
    · have hlocks := congrFun (Place.next_locks hnext) l
      rw [hl] at hlocks
      rcases hm.lock with ⟨heq, hacq, hrel⟩ | ⟨l', rfl, -, heq⟩ | ⟨l', rfl, -, heq⟩
      · rw [heq]
        refine hold ?_
        cases eff with
        | acquire l' => exact absurd rfl (hacq l')
        | release l' => exact absurd rfl (hrel l')
        | sched => exact absurd rfl hoff
        | _ => exact hlocks.symm
      · by_cases hll : l = l'
        · rw [heq, hll, update_self]
        · rw [heq, update_of_ne hll]
          simp only [Effect.locks, update_of_ne hll] at hlocks
          exact hold hlocks.symm
      · by_cases hll : l = l'
        · simp only [Effect.locks, hll, update_self] at hlocks
          cases hlocks
        · rw [heq, update_of_ne hll]
          simp only [Effect.locks, update_of_ne hll] at hlocks
          exact hold hlocks.symm
  · rw [hm.place_of_ne him] at hl
    obtain ⟨k', hk', hlk⟩ := h.locks i l hl
    have hne : k' ≠ k := by
      rintro rfl
      exact him (Running.thread.inj (hk'.symm.trans hcpu))
    exact ⟨k', (hm.cpu_of_ne hne).trans hk', hm.lock_of_ne hne hlk⟩

theorem Inv.run_scheduler (h : Inv P s) (hcpu : s.cpu k = .thread m)
    (hnext : (s.place m).next P n s.data = some (p, eff)) (hm : Moved P s k m p eff s')
    (k' : κ) (hk' : s'.cpu k' = .scheduler) : s'.lock .ptable = some k' := by
  by_cases hne : k' = k
  · subst hne
    rcases hm.cpu with ⟨heq, -⟩ | ⟨-, rfl⟩
    · rw [heq, hcpu] at hk'
      cases hk'
    · -- `sched` leaves the lock to the scheduler.
      obtain ⟨k₀, hk₀, hlk⟩ := h.locks m .ptable (Place.next_sched hnext)
      rw [h.single k₀ k' m hk₀ hcpu] at hlk
      rcases hm.lock with ⟨heq, -⟩ | ⟨l, hl, -⟩ | ⟨l, hl, -⟩
      · rw [heq, hlk]
      · cases hl
      · cases hl
  · rw [hm.cpu_of_ne hne] at hk'
    exact hm.lock_of_ne hne (h.scheduler k' hk')

theorem Inv.run_owed (h : Inv P s) (hcpu : s.cpu k = .thread m)
    (hnext : (s.place m).next P n s.data = some (p, eff)) (hm : Moved P s k m p eff s')
    (i : Fin n) (c : C) (hc : (s'.place i).committed = some c)
    (hsleep : (s'.place i).off = true → s'.state i = .SLEEPING)
    (hholds : P.holds c s'.data = true) : ∃ j, (s'.place j).Owes (P.chan c) i := by
  by_cases him : i = m
  · subst him
    rw [hm.place_self] at hc
    obtain ⟨hc, hchange⟩ := Place.next_committed hnext hc
    have hdata : s'.data = s.data := by
      rcases hm.data with heq | ⟨f, rfl, -⟩
      · exact heq
      · exact absurd rfl (hchange f)
    rw [hdata] at hholds
    rcases hc with hc | hc
    · -- It has just released `lk`, and the condition still fails.
      exact absurd (hholds.symm.trans (h.tested i c hc)) (by decide)
    · have hoff := (Place.next_off hnext).1
      obtain ⟨j, hj⟩ := h.owed i c hc (fun ht => absurd (hoff.symm.trans ht) (by decide)) hholds
      have hji : j ≠ i := by
        rintro rfl
        exact (Place.of_committed hc).2.2 _ _ hj
      exact ⟨j, by rwa [hm.place_of_ne hji]⟩
  · rw [hm.place_of_ne him] at hc hsleep
    have hsleep' : (s.place i).off = true → s.state i = .SLEEPING := by
      intro hoff
      rcases hm.state i (hsleep hoff) with hs | ⟨hs, -⟩
      · exact hs
      · exact absurd hs him
    obtain ⟨hpt, hchan, -⟩ := Place.of_committed hc
    -- The step does not come to the slot in `wakeup1` unless it wakes the thread.
    have hpaid : eff ≠ .wake i (P.chan c) := by
      rintro rfl
      cases hoff : (s.place i).off with
      | true => exact hm.wakes i _ rfl (h.chan i c (hchan hoff)) (hsleep hoff)
      | false => exact him (h.exclusive (hpt hoff) (Place.next_wake_ptable hnext))
    by_cases hbefore : P.holds c s.data = true
    · obtain ⟨j, hj⟩ := h.owed i c hc hsleep' hbefore
      rcases hm.owes hnext hj with hj | heq
      · exact ⟨j, hj⟩
      · exact absurd heq hpaid
    · rcases hm.data with heq | ⟨f, rfl, heq⟩
      · rw [heq] at hholds
        exact absurd hholds hbefore
      · -- The step has made the condition true.
        rw [heq] at hholds
        have hlaw := P.law f c s.data (by simpa using hbefore) hholds
        exact ⟨m, by rw [hm.place_self]; exact Place.next_change i hnext hlaw⟩

theorem Inv.run (h : Inv P s) (hcpu : s.cpu k = .thread m)
    (hnext : (s.place m).next P n s.data = some (p, eff)) (hm : Moved P s k m p eff s') :
    Inv P s' := by
  refine ⟨h.run_locks hcpu hnext hm, h.run_scheduler hcpu hnext hm, fun k' i hi => ?_,
    fun k₁ k₂ i h₁ h₂ => ?_, fun i hi => ?_, fun i c hc => ?_, fun i c hc => ?_,
    h.run_owed hcpu hnext hm⟩
  · obtain ⟨hi, hsched⟩ := hm.cpu_thread hi
    by_cases him : i = m
    · rw [him, hm.place_self, ← Bool.not_eq_true, (Place.next_off hnext).2]
      exact fun heq => hsched heq (h.single k' k m (him ▸ hi) hcpu)
    · rw [hm.place_of_ne him]
      exact h.on k' i hi
  · exact h.single k₁ k₂ i (hm.cpu_thread h₁).1 (hm.cpu_thread h₂).1
  · rcases hm.state i hi with hs | ⟨rfl, rfl⟩
    · obtain ⟨c, hc⟩ := h.asleep i hs
      by_cases him : i = m
      · rw [him] at hc
        rw [him, hm.place_self]
        exact ⟨c, Place.next_asleep hnext hc⟩
      · rw [hm.place_of_ne him]
        exact ⟨c, hc⟩
    · rw [hm.place_self]
      exact Place.next_sleeping hnext
  · by_cases him : i = m
    · rw [him] at hc ⊢
      rw [hm.place_self] at hc
      rcases Place.next_onChan hnext hc with rfl | ⟨hc, hne⟩
      · rcases hm.chan with ⟨-, hne⟩ | ⟨x, heq, hchan⟩
        · exact absurd rfl (hne _)
        · cases heq
          rw [hchan, update_self]
      · rcases hm.chan with ⟨heq, -⟩ | ⟨x, heq, -⟩
        · rw [heq]
          exact h.chan m c hc
        · exact absurd heq (hne x)
    · rw [hm.place_of_ne him] at hc
      rcases hm.chan with ⟨heq, -⟩ | ⟨x, -, heq⟩
      · rw [heq]
        exact h.chan i c hc
      · rw [heq, update_of_ne him]
        exact h.chan i c hc
  · by_cases him : i = m
    · rw [him, hm.place_self] at hc
      obtain ⟨hc, hchange⟩ := Place.next_tested hnext hc
      rcases hm.data with heq | ⟨f, rfl, -⟩
      · rw [heq]
        exact hc.elim (h.tested m c) id
      · exact absurd rfl (hchange f)
    · rw [hm.place_of_ne him] at hc
      rcases hm.data with heq | ⟨f, rfl, -⟩
      · rw [heq]
        exact h.tested i c hc
      · -- The data change under `lk`, which the thread holds.
        exact absurd (h.exclusive (Place.holdsLk_of_tested hc) (Place.next_change_lk hnext)) him

theorem Inv.of_scheduler (h : Inv P s) {c : Running n} {lk : Option κ} (hc : ∀ i, c ≠ .thread i)
    (hcpu : ∀ i, s.cpu k ≠ .thread i) (hlk : s.lock .ptable = none ∨ s.lock .ptable = some k)
    (hsched : c = .scheduler → lk = some k) :
    Inv P { s with
      lock := update s.lock .ptable lk, cpu := update s.cpu k c } := by
  -- No thread and no other scheduler holds the lock.
  have hptable : ∀ k', s.lock .ptable = some k' → k' = k := by
    intro k' hk'
    rcases hlk with hfree | hheld
    · rw [hfree] at hk'
      cases hk'
    · exact Option.some.inj (hk'.symm.trans hheld)
  have hthread : ∀ k' i, update s.cpu k c k' = .thread i → s.cpu k' = .thread i := by
    intro k' i hi
    by_cases hk : k' = k
    · rw [hk, update_self] at hi
      exact absurd hi (hc i)
    · rwa [update_of_ne hk] at hi
  refine ⟨fun i l hl => ?_, fun k' hk' => ?_, fun k' i hi => h.on k' i (hthread k' i hi),
    fun k₁ k₂ i h₁ h₂ => h.single k₁ k₂ i (hthread k₁ i h₁) (hthread k₂ i h₂), h.asleep, h.chan,
    h.tested, h.owed⟩
  · obtain ⟨k', hk', hlk'⟩ := h.locks i l hl
    have hne : k' ≠ k := by
      rintro rfl
      exact hcpu i hk'
    have hl' : l ≠ .ptable := by
      rintro rfl
      exact hne (hptable k' hlk')
    exact ⟨k', (update_of_ne hne ..).trans hk', (update_of_ne hl' ..).trans hlk'⟩
  · by_cases hne : k' = k
    · simp only [hne, update_self] at hk' ⊢
      exact hsched hk'
    · simp only [update_of_ne hne] at hk'
      exact absurd (hptable k' (h.scheduler k' hk')) hne

theorem Inv.dispatch (h : Inv P s) (hcpu : s.cpu k = .scheduler)
    (hp : (s.place m).dispatched = some p) :
    Inv P { s with
      cpu := update s.cpu k (.thread m)
      state := update s.state m .RUNNING
      place := update s.place m p } := by
  obtain ⟨hoff, hoff', hlk, hpt, htested, hcommitted, honChan, howes⟩ := Place.dispatched_spec hp
  have hself : update s.place m p m = p := update_self ..
  have hother : ∀ i, i ≠ m → update s.place m p i = s.place i :=
    fun i hi => update_of_ne hi ..
  have hthread : ∀ k' i, update s.cpu k (.thread m) k' = .thread i →
      k' = k ∧ i = m ∨ k' ≠ k ∧ s.cpu k' = .thread i := by
    intro k' i hi
    by_cases hk : k' = k
    · rw [hk, update_self] at hi
      exact .inl ⟨hk, (Running.thread.inj hi).symm⟩
    · rw [update_of_ne hk] at hi
      exact .inr ⟨hk, hi⟩
  -- No CPU ran it, since it was switched out.
  have hnot : ∀ k', s.cpu k' ≠ .thread m := by
    intro k' hk'
    exact absurd (hoff.symm.trans (h.on k' m hk')) (by decide)
  refine ⟨fun i l hl => ?_, fun k' hk' => ?_, fun k' i hi => ?_, fun k₁ k₂ i h₁ h₂ => ?_,
    fun i hi => ?_, fun i c hc => ?_, fun i c hc => ?_, fun i c hc hsleep hholds => ?_⟩
  · by_cases him : i = m
    · refine ⟨k, by simp only [him, update_self], ?_⟩
      cases l with
      | lk =>
        simp only [him, hself, hlk] at hl
        cases hl
      | ptable => exact h.scheduler k hcpu
    · simp only [hother i him] at hl
      obtain ⟨k', hk', hlk'⟩ := h.locks i l hl
      have hne : k' ≠ k := by
        rintro rfl
        rw [hcpu] at hk'
        cases hk'
      exact ⟨k', (update_of_ne hne ..).trans hk', hlk'⟩
  · by_cases hne : k' = k
    · simp only [hne, update_self] at hk'
      cases hk'
    · simp only [update_of_ne hne] at hk'
      exact h.scheduler k' hk'
  · rcases hthread k' i hi with ⟨-, rfl⟩ | ⟨-, hold⟩
    · simp only [hself, hoff']
    · have him : i ≠ m := by
        rintro rfl
        exact hnot k' hold
      simp only [hother i him]
      exact h.on k' i hold
  · rcases hthread k₁ i h₁ with ⟨rfl, rfl⟩ | ⟨-, hold₁⟩ <;>
      rcases hthread k₂ i h₂ with ⟨rfl, heq⟩ | ⟨-, hold₂⟩
    · rfl
    · exact absurd hold₂ (hnot k₂)
    · exact absurd (heq ▸ hold₁) (hnot k₁)
    · exact h.single k₁ k₂ i hold₁ hold₂
  · by_cases him : i = m
    · simp only [him, update_self] at hi
      cases hi
    · simp only [update_of_ne him] at hi ⊢
      exact h.asleep i hi
  · by_cases him : i = m
    · simp only [him, hself, honChan] at hc
      cases hc
    · simp only [hother i him] at hc
      exact h.chan i c hc
  · by_cases him : i = m
    · simp only [him, hself, htested] at hc
      cases hc
    · simp only [hother i him] at hc
      exact h.tested i c hc
  · by_cases him : i = m
    · simp only [him, hself, hcommitted] at hc
      cases hc
    · simp only [hother i him, update_of_ne him] at hc hsleep
      obtain ⟨j, hj⟩ := h.owed i c hc hsleep hholds
      refine ⟨j, ?_⟩
      by_cases hjm : j = m
      · subst hjm
        simp only [hself]
        exact howes _ _ hj
      · simp only [hother j hjm]
        exact hj

theorem Inv.step [DecidableEq χ] {e : SleepEvent C F κ n} (h : Inv P s) (hs : s.step P e s') :
    Inv P s' := by
  cases e with
  | run k =>
    simp only [Sleepers.step, next] at hs
    split at hs
    · rename_i m hcpu
      split at hs
      · rename_i p eff hnext
        exact h.run hcpu hnext (moved_of_move hs)
      · cases hs
    · cases hs
  | start k r =>
    simp only [Sleepers.step, next] at hs
    split at hs
    · rename_i m hcpu
      split at hs
      · rename_i hidle
        cases hs
        refine h.of_place (by rw [hidle]; rfl) rfl (fun l => by cases l <;> rfl) rfl rfl rfl ?_
        rw [hidle]
        exact fun _ _ => id
      · cases hs
    · cases hs
  | preempt k =>
    simp only [Sleepers.step, next] at hs
    split at hs
    · rename_i m hcpu
      split at hs
      · rename_i q hrest
        cases hs
        have hplace := Place.rest_spec hrest
        refine h.of_place ?_ rfl (fun l => by cases l <;> rfl) rfl rfl rfl fun x i howes => ?_
        · rw [hplace]
          cases q <;> rfl
        · rw [hplace] at howes
          exact Place.owes_yield.2 howes
      · cases hs
    · cases hs
  | enter k =>
    simp only [Sleepers.step, next, Option.ite_none_right_eq_some] at hs
    obtain ⟨⟨hcpu, hlk⟩, hs⟩ := hs
    cases hs
    exact h.of_scheduler nofun (fun i hi => by rw [hcpu] at hi; cases hi) (.inl hlk) fun _ => rfl
  | leave k =>
    simp only [Sleepers.step, next, Option.ite_none_right_eq_some] at hs
    obtain ⟨hcpu, hs⟩ := hs
    cases hs
    exact h.of_scheduler nofun (fun i hi => by rw [hcpu] at hi; cases hi)
      (.inr (h.scheduler k hcpu)) nofun
  | dispatch k i =>
    simp only [Sleepers.step, next, Option.ite_none_right_eq_some] at hs
    obtain ⟨⟨hcpu, hst⟩, hs⟩ := hs
    split at hs
    · rename_i p hp
      cases hs
      exact h.dispatch hcpu hp
    · cases hs

/-- In every state of every run: if a thread sleeps, then it does so on the channel of a condition,
and if the condition holds, then another thread has changed the data and has still to come to the
slot in its `wakeup` of that channel. -/
theorem no_lost_wakeup [DecidableEq χ] {d : σ} {π : List (SleepEvent C F κ n × Sleepers σ C F χ κ n)}
    (h : IsRun (step P) (boot d) π) (i : Fin n) (hsleep : (last (boot d) π).state i = .SLEEPING) :
    ∃ c, ((last (boot d) π).place i).asleep = some c ∧
      (last (boot d) π).chan i = some (P.chan c) ∧
      (P.holds c (last (boot d) π).data = true →
        ∃ m, m ≠ i ∧ ((last (boot d) π).place m).Owes (P.chan c) i) := by
  have hinv : Inv P (last (boot d) π) :=
    h.invariant (boot_inv d) fun _ _ _ hs hstep => hs.step hstep
  obtain ⟨c, hc⟩ := hinv.asleep i hsleep
  obtain ⟨hcommitted, honChan⟩ := Place.of_asleep hc
  refine ⟨c, hc, hinv.chan i c honChan, fun hholds => ?_⟩
  obtain ⟨m, hm⟩ := hinv.owed i c hcommitted (fun _ => hsleep) hholds
  refine ⟨m, ?_, hm⟩
  rintro rfl
  exact (Place.of_committed hcommitted).2.2 _ _ hm

end

/-! ## A producer and a consumer -/

def counter : Protocol ℕ Unit Bool Unit where
  holds := fun _ d => 0 < d
  chan := fun _ => ()
  change := fun f d => if f then d + 1 else d - 1
  wakes := fun f => if f then some () else none
  law := by
    intro f c d hbefore hafter
    cases f with
    | true => rfl
    | false =>
      simp only [decide_eq_false_iff_not, decide_eq_true_eq, Bool.false_eq_true, if_false] at *
      omega

/-- The consumer's round. -/
def consumer : Round Unit Bool := ⟨some (), false, false⟩

def producer : Round Unit Bool := ⟨none, true, false⟩

def consumerSlot : Fin 2 := ⟨0, Nat.zero_lt_two⟩

def producerSlot : Fin 2 := ⟨1, Nat.one_lt_two⟩

def handoffEvents : List (SleepEvent Unit Bool Unit 2) :=
  [.enter (), .dispatch () consumerSlot, .run (), .start () consumer] ++
    List.replicate 7 (.run ()) ++ [.dispatch () producerSlot, .run (), .start () producer] ++
    List.replicate 4 (.run ())

/-- The consumer sleeps, its condition holds, and the producer has still to wake it. -/
theorem no_lost_wakeup_handoff :
    ∃ π : List (SleepEvent Unit Bool Unit 2 × Sleepers ℕ Unit Bool Unit Unit 2),
      IsRun (step counter) (boot 0) π ∧ (last (boot 0) π).state consumerSlot = .SLEEPING ∧
      (last (boot 0) π).data = 1 ∧
      ∃ m, m ≠ consumerSlot ∧ ((last (boot 0) π).place m).Owes () consumerSlot := by
  have heval : (history (tick (next counter)) (boot 0) [] handoffEvents).map
      (fun π => ((last (boot 0) π).state consumerSlot, (last (boot 0) π).data)) =
      some (.SLEEPING, 1) := by
    decide +kernel
  obtain ⟨π, hrun, heq⟩ := exists_run_tick heval
  obtain ⟨hsleep, hdata⟩ := Prod.mk.inj heq
  obtain ⟨c, -, -, howes⟩ := no_lost_wakeup hrun consumerSlot hsleep
  refine ⟨π, hrun, hsleep, hdata, howes ?_⟩
  rw [hdata]
  rfl

end Sleepers

end Xv6
