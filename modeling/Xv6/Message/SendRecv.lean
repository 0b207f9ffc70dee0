import Xv6.Message.Queue
import Xv6.Proc.Spec
import Mathlib.Data.Fintype.Basic

/-!
# `send` and `recv`

Any number of senders and one receiver, in slot `me` of the process table. The steps are the
stretches of the source that nothing else can interrupt: in `recv` the test of `size`, which takes
no lock, the section under `ptable.lock` that puts the receiver to sleep, its return from `sleep`,
and the section under the lock of the queue; in `send` the test of the receiver's state, which takes
no lock either, the `wakeup`, and the section under the lock of the queue. Between them any process
may make other calls, some of which wake the receiver as well: an `exit` of a child, a `kill`, any
other `wakeup`.

The receiver sleeps at most once and does not look at the queue again, and it sleeps without looking
whether a sender is already past its test. `Timely` is what the other processes would have to see to
for `recv` to work all the same.

The queue is `msg_queue[pid-1]` of the receiver's pid, which does not change while it runs; the loop
of `send` is one whose search ends at the receiver's slot.
-/

namespace Xv6

open Function Run

/-- An entry of `msg_queue`: the queue, and whether its lock is held. -/
structure Mailbox where
  queue : Queue
  locked : Bool

namespace Mailbox

def post (m : Msg) (b : Mailbox) : ℤ × Mailbox :=
  let (r, q) := b.queue.enqueue m
  if r < 0 then (-1, ⟨q, true⟩) else (0, ⟨q, false⟩)

def strncpy (m : Msg) : Msg := fun i => if ∃ j < i, m j = 0 then 0 else m i

def fetch (b : Mailbox) : ℤ × Option Msg × Mailbox :=
  let m := b.queue.frontItem
  let (r, q) := b.queue.dequeue
  if r < 0 then (-1, none, ⟨q, true⟩) else (0, m.map strncpy, ⟨q, false⟩)

theorem post_size_ne {m : Msg} {b : Mailbox} (h : b.queue.size ≠ 0) :
    (b.post m).2.queue.size ≠ 0 := by
  by_cases hfull : b.queue.size = MSGBUFFSIZE
  · simpa [post, Queue.enqueue, hfull] using h
  · simp [post, Queue.enqueue, hfull]

theorem fetch_of_size_ne {b : Mailbox} (h : b.queue.size ≠ 0) :
    b.fetch.1 = 0 ∧ b.fetch.2.2.queue.size + 1 = b.queue.size := by
  have hdeq : b.queue.dequeue = (0, { b.queue with
      front := (b.queue.front + 1) % MSGBUFFSIZE, size := b.queue.size - 1 }) := by
    simp [Queue.dequeue, Queue.isEmpty, h]
  unfold fetch
  rw [hdeq]
  refine ⟨rfl, ?_⟩
  show b.queue.size - 1 + 1 = b.queue.size
  omega

end Mailbox

/-! ## The steps -/

/-- Where the receiver is: outside `recv`; past the test of an empty queue; in `sleep`; past
`sleep`, or past the test of a queue with a message. -/
inductive RecvPc
  | outside | tested | asleep | ready
  deriving DecidableEq

/-- Where a sender is: outside `send`; before `wakeup`; before `acquire`. -/
inductive SendPc
  | idle
  | waking (m : Msg)
  | putting (m : Msg)
  deriving DecidableEq

def SendPc.isPutting : SendPc → Bool
  | .putting _ => true
  | _ => false

/-- A call of a process that is in neither `send` nor `recv`. -/
inductive ProcCall
  | fork (kalloc copyuvm : Bool)
  | exit
  | wait
  | kill (pid : ℤ)
  | wakeup (chan : Chan)
  | sleep (chan : Chan)
  deriving DecidableEq

def ProcCall.exec (cur : Fin NPROC) (t : Ptable) : ProcCall → Option Ptable
  | .fork kalloc copyuvm => some (t.fork kalloc copyuvm cur).2
  | .exit => t.exit cur
  | .wait => some (t.wait cur).2
  | .kill pid => some (t.kill pid).2
  | .wakeup chan => some (t.wakeup1 chan)
  | .sleep chan => some (t.sleep chan cur)

theorem ProcCall.exec_spec {cur j : Fin NPROC} {t t' : Ptable} {c : ProcCall}
    (hlive : (t.proc j).Live) (hexit : cur = j → c ≠ .exit) (h : c.exec cur t = some t') :
    (t.proc j).Woken (t'.proc j) ∨ cur = j ∧ (t'.proc j).Live := by
  cases c with
  | fork kalloc copyuvm =>
    cases h
    rcases t.fork_spec kalloc copyuvm cur j with heq | ⟨hun, -⟩
    · rw [heq]
      exact .inl (.refl _)
    · exact absurd hun hlive.1
  | exit =>
    have hne : j ≠ cur := fun hj => hexit hj.symm rfl
    exact .inl ((Ptable.exit_spec h).1 j hne)
  | wait =>
    cases h
    rcases t.wait_spec cur j with heq | ⟨hz, -⟩ | ⟨rfl, heq⟩
    · rw [heq]
      exact .inl (.refl _)
    · exact absurd hz hlive.2
    · rw [heq]
      exact .inr ⟨rfl, by simp [Proc.Live]⟩
  | kill pid =>
    cases h
    exact .inl (t.kill_woken pid j)
  | wakeup chan =>
    cases h
    exact .inl (t.wakeup1_woken chan j)
  | sleep chan =>
    cases h
    by_cases hj : j = cur
    · subst hj
      refine .inr ⟨rfl, ?_⟩
      simp [Ptable.sleep, Proc.Live]
    · rw [Ptable.sleep, Ptable.setProc_of_ne _ _ hj]
      exact .inl (.refl _)

/-- The receiver, its queue, and its senders. -/
structure Mail (ι : Type*) where
  ptable : Ptable
  box : Mailbox
  recv : RecvPc
  /-- What the last `recv` that returned has copied. -/
  msg : Option Msg
  send : ι → SendPc

/-- A step of the receiver, of a sender, of another process, or of the scheduler. -/
inductive MailAct (ι : Type*)
  /-- `recv` tests the size of the queue. -/
  | test
  /-- `recv` goes to sleep. -/
  | sleep
  /-- `recv` returns from `sleep`. -/
  | resume
  /-- `recv` dequeues and returns. -/
  | take
  /-- `send` of `m` tests the state of the receiver. -/
  | look (i : ι) (m : Msg)
  /-- `send` calls `wakeup`. -/
  | wake (i : ι)
  /-- `send` enqueues and returns. -/
  | put (i : ι)
  /-- The process in slot `cur` makes another call. -/
  | call (cur : Fin NPROC) (c : ProcCall)
  /-- The process in slot `i` gives up the CPU. -/
  | yield (i : Fin NPROC)
  /-- The scheduler runs the process in slot `i`, which returns from `sleep` if it was there. -/
  | dispatch (i : Fin NPROC)
  deriving DecidableEq

namespace Mail

variable {ι : Type*} [DecidableEq ι] {me : Fin NPROC}

def Running (s : Mail ι) (i : Fin NPROC) : Prop := (s.ptable.proc i).state = .RUNNING

instance (s : Mail ι) (i : Fin NPROC) : Decidable (s.Running i) :=
  inferInstanceAs (Decidable (_ = _))

def resumed (t : Ptable) (i : Fin NPROC) : Ptable :=
  t.setProc i { t.proc i with state := .RUNNING, chan := none }

def exec (me : Fin NPROC) (s : Mail ι) : MailAct ι → Option (Option ℤ × Mail ι)
  | .test =>
    if s.recv = .outside ∧ s.Running me then
      some (none, { s with recv := if s.box.queue.size = 0 then .tested else .ready })
    else none
  | .sleep =>
    if s.recv = .tested ∧ s.Running me then
      some (none, { s with ptable := s.ptable.sleep (.proc me) me, recv := .asleep })
    else none
  | .resume =>
    if s.recv = .asleep ∧ (s.ptable.proc me).state = .RUNNABLE then
      some (none, { s with ptable := resumed s.ptable me, recv := .ready })
    else none
  | .take =>
    if s.recv = .ready ∧ s.Running me ∧ s.box.locked = false then
      let (r, m, b) := s.box.fetch
      some (some r, { s with box := b, msg := m, recv := .outside })
    else none
  | .look i m =>
    if s.send i = .idle ∧ s.ptable.find (fun p => p.pid = (s.ptable.proc me).pid) = some me then
      let pc := if (s.ptable.proc me).state = .SLEEPING then .waking m else .putting m
      some (none, { s with send := update s.send i pc })
    else none
  | .wake i =>
    match s.send i with
    | .waking m => some (none, { s with
        ptable := s.ptable.wakeup1 (.proc me)
        send := update s.send i (.putting m) })
    | _ => none
  | .put i =>
    match s.send i with
    | .putting m =>
      if s.box.locked = false then
        let (r, b) := s.box.post m
        some (some r, { s with box := b, send := update s.send i .idle })
      else none
    | _ => none
  | .call cur c =>
    if s.Running cur ∧ (cur = me → s.recv = .outside ∧ c ≠ .exit) then
      (c.exec cur s.ptable).map fun t => (none, { s with ptable := t })
    else none
  | .yield i =>
    if s.Running i then
      some (none, { s with
        ptable := s.ptable.setProc i { s.ptable.proc i with state := .RUNNABLE } })
    else none
  | .dispatch i =>
    if (s.ptable.proc i).state = .RUNNABLE ∧ (i = me → s.recv ≠ .asleep) then
      some (none, { s with ptable := resumed s.ptable i })
    else none

def step (me : Fin NPROC) (s : Mail ι) (e : MailAct ι × Option ℤ) (s' : Mail ι) : Prop :=
  s.exec me e.1 = some (e.2, s')

/-- No call is in progress, and the receiver is alive. -/
structure Idle (me : Fin NPROC) (s : Mail ι) : Prop where
  recv : s.recv = .outside
  send : ∀ i, s.send i = .idle
  live : (s.ptable.proc me).Live

/-! ## What `send` and `recv` are for -/

def Stuck (me : Fin NPROC) (s : Mail ι) : Prop :=
  (∀ i, s.send i = .idle) ∧ s.box.queue.size ≠ 0 ∧ s.recv = .asleep ∧
    (s.ptable.proc me).state = .SLEEPING

instance [Fintype ι] (s : Mail ι) : Decidable (s.Stuck me) :=
  inferInstanceAs (Decidable ((∀ i, s.send i = .idle) ∧ s.box.queue.size ≠ 0 ∧ s.recv = .asleep ∧
    (s.ptable.proc me).state = .SLEEPING))

def Delivers (me : Fin NPROC) (s₀ : Mail ι) (π : List ((MailAct ι × Option ℤ) × Mail ι)) : Prop :=
  ¬ (last s₀ π).Stuck me ∧
    ∀ r s' π', π = ((.take, r), s') :: π' →
      r = some 0 ∧ s'.box.queue.size + 1 = (last s₀ π').box.queue.size

def Timely (s : Mail ι) : MailAct ι × Option ℤ → Prop
  | (.sleep, _) => s.box.queue.size = 0 ∧ ∀ i, (s.send i).isPutting = false
  | (.resume, _) => s.box.queue.size ≠ 0
  | _ => True

instance decidableTimely [Fintype ι] (s : Mail ι) : ∀ e, Decidable (s.Timely e)
  | (.sleep, _) =>
    inferInstanceAs (Decidable (s.box.queue.size = 0 ∧ ∀ i, (s.send i).isPutting = false))
  | (.resume, _) => inferInstanceAs (Decidable (s.box.queue.size ≠ 0))
  | (.test, _) | (.take, _) | (.look _ _, _) | (.wake _, _) | (.put _, _) => isTrue trivial
  | (.call _ _, _) | (.yield _, _) | (.dispatch _, _) => isTrue trivial

/-! ## What a step does -/

/-- Everything that a step can do. -/
inductive Stepped (me : Fin NPROC) (s : Mail ι) : MailAct ι × Option ℤ → Mail ι → Prop
  | test (pc : RecvPc) (hpc : pc = .tested ∨ pc = .ready ∧ s.box.queue.size ≠ 0) :
    Stepped me s (.test, none) { s with recv := pc }
  | sleep :
    Stepped me s (.sleep, none) { s with ptable := s.ptable.sleep (.proc me) me, recv := .asleep }
  | resume : Stepped me s (.resume, none) { s with ptable := resumed s.ptable me, recv := .ready }
  | take (hpc : s.recv = .ready) :
    Stepped me s (.take, some s.box.fetch.1)
      { s with box := s.box.fetch.2.2, msg := s.box.fetch.2.1, recv := .outside }
  | look (i : ι) (m : Msg) (pc : SendPc)
    (hpc : (s.ptable.proc me).state = .SLEEPING → pc.isPutting = false) :
    Stepped me s (.look i m, none) { s with send := update s.send i pc }
  | wake (i : ι) (m : Msg) :
    Stepped me s (.wake i, none)
      { s with
        ptable := s.ptable.wakeup1 (.proc me)
        send := update s.send i (.putting m) }
  | put (i : ι) (m : Msg) (hpc : s.send i = .putting m) :
    Stepped me s (.put i, some (s.box.post m).1)
      { s with box := (s.box.post m).2, send := update s.send i .idle }
  /-- Any other step changes the table only. It may wake the receiver; what else becomes of the
  receiver's slot, it is not inside `sleep` of `recv` then. -/
  | other (a : MailAct ι) (t : Ptable) (ha : a ≠ .take)
    (hslot : (s.ptable.proc me).Woken (t.proc me) ∨
      (s.recv = .asleep → (t.proc me).state ≠ .SLEEPING) ∧ (t.proc me).Live) :
    Stepped me s (a, none) { s with ptable := t }

omit [DecidableEq ι] in
theorem of_guard {c : Prop} [Decidable c] {r r' : Option ℤ} {s s' : Mail ι}
    (h : (if c then some (r, s) else none) = some (r', s')) : c ∧ r' = r ∧ s' = s := by
  split at h
  · cases h
    exact ⟨‹c›, rfl, rfl⟩
  · cases h

theorem stepped_of_step {s s' : Mail ι} {e : MailAct ι × Option ℤ}
    (hlive : (s.ptable.proc me).Live) (hs : s.step me e s') : Stepped me s e s' := by
  obtain ⟨a, r⟩ := e
  cases a with
  | test =>
    obtain ⟨-, rfl, rfl⟩ := of_guard hs
    apply Stepped.test
    split
    · exact .inl rfl
    · rename_i hsize
      exact .inr ⟨rfl, hsize⟩
  | sleep =>
    obtain ⟨-, rfl, rfl⟩ := of_guard hs
    exact .sleep
  | resume =>
    obtain ⟨-, rfl, rfl⟩ := of_guard hs
    exact .resume
  | take =>
    obtain ⟨⟨hpc, -⟩, rfl, rfl⟩ := of_guard hs
    exact .take hpc
  | look i m =>
    obtain ⟨-, rfl, rfl⟩ := of_guard hs
    refine .look i m _ fun hsleep => ?_
    rw [if_pos hsleep]
    rfl
  | wake i =>
    simp only [step, exec] at hs
    split at hs
    · cases hs
      exact .wake i _
    · cases hs
  | put i =>
    simp only [step, exec] at hs
    split at hs
    · rename_i m hpc
      obtain ⟨-, rfl, rfl⟩ := of_guard hs
      exact .put i m hpc
    · cases hs
  | call cur c =>
    simp only [step, exec, Option.ite_none_right_eq_some, Option.map_eq_some_iff,
      Prod.mk.injEq] at hs
    obtain ⟨⟨-, hme⟩, t, ht, rfl, rfl⟩ := hs
    apply Stepped.other _ t (by simp)
    rcases ProcCall.exec_spec hlive (fun hcur => (hme hcur).2) ht with hwoken | ⟨hcur, hlive'⟩
    · exact .inl hwoken
    · refine .inr ⟨fun hasleep => ?_, hlive'⟩
      exact absurd ((hme hcur).1.symm.trans hasleep) (by decide)
  | yield i =>
    obtain ⟨-, rfl, rfl⟩ := of_guard hs
    apply Stepped.other _ _ (by simp)
    by_cases hi : me = i
    · subst hi
      simp [Proc.Live]
    · rw [Ptable.setProc_of_ne _ _ hi]
      exact .inl (.refl _)
  | dispatch i =>
    obtain ⟨-, rfl, rfl⟩ := of_guard hs
    apply Stepped.other _ _ (by simp)
    by_cases hi : me = i
    · subst hi
      simp [resumed, Proc.Live]
    · rw [resumed, Ptable.setProc_of_ne _ _ hi]
      exact .inl (.refl _)

/-! ## Runs -/

/-- What holds in every state of a run whose steps are timely. -/
structure Inv (me : Fin NPROC) (s : Mail ι) : Prop where
  live : (s.ptable.proc me).Live
  ready : s.recv = .ready → s.box.queue.size ≠ 0
  /-- Until a sender wakes it, nobody gives the sleeping receiver a message. -/
  asleep : s.recv = .asleep → (s.ptable.proc me).state = .SLEEPING →
    (s.ptable.proc me).chan = some (.proc me) ∧ s.box.queue.size = 0 ∧
      ∀ i, (s.send i).isPutting = false

omit [DecidableEq ι] in
theorem Idle.inv {s : Mail ι} (h : s.Idle me) : s.Inv me where
  live := h.live
  ready hpc := absurd (h.recv.symm.trans hpc) (by decide)
  asleep hpc := absurd (h.recv.symm.trans hpc) (by decide)

omit [DecidableEq ι] in
theorem Inv.not_stuck {s : Mail ι} (h : s.Inv me) : ¬ s.Stuck me := by
  rintro ⟨-, hsize, hpc, hsleep⟩
  exact hsize (h.asleep hpc hsleep).2.1

theorem not_putting_update {send : ι → SendPc} {i : ι} {pc : SendPc}
    (h : ∀ i, (send i).isPutting = false) (hpc : pc.isPutting = false) (j : ι) :
    (update send i pc j).isPutting = false := by
  by_cases hj : j = i
  · rw [hj, update_self]
    exact hpc
  · rw [update_of_ne hj]
    exact h j

theorem Inv.step {s s' : Mail ι} {e : MailAct ι × Option ℤ} (h : s.Inv me) (htime : s.Timely e)
    (hs : Stepped me s e s') : s'.Inv me := by
  obtain ⟨hlive, hready, hasleep⟩ := h
  cases hs with
  | test pc hpc =>
    refine ⟨hlive, fun hr => ?_, fun hr => ?_⟩
    · rcases hpc with rfl | ⟨-, hsize⟩
      · cases hr
      · exact hsize
    · rcases hpc with rfl | ⟨rfl, -⟩ <;> cases hr
  | sleep =>
    refine ⟨?_, fun hr => (by cases hr), fun _ _ => ⟨?_, htime⟩⟩
    · simp [Ptable.sleep, Proc.Live]
    · simp [Ptable.sleep]
  | resume =>
    refine ⟨?_, fun _ => htime, fun hr => (by cases hr)⟩
    simp [resumed, Proc.Live]
  | take hpc => exact ⟨hlive, fun hr => (by cases hr), fun hr => (by cases hr)⟩
  | look i m pc hpc =>
    refine ⟨hlive, hready, fun hr hsleep => ?_⟩
    obtain ⟨hchan, hsize, hput⟩ := hasleep hr hsleep
    exact ⟨hchan, hsize, not_putting_update hput (hpc hsleep)⟩
  | wake i m =>
    have hwoken := s.ptable.wakeup1_woken (.proc me) me
    refine ⟨hwoken.same.live.2 hlive, hready, fun hr hsleep => ?_⟩
    -- The receiver slept on the channel that `send` wakes.
    have hchan := (hasleep hr (hwoken.sleeping hsleep)).1
    exact absurd hsleep (Ptable.wakeup1_not_sleeping hchan)
  | put i m hpc =>
    refine ⟨hlive, fun hr => Mailbox.post_size_ne (hready hr), fun hr hsleep => ?_⟩
    -- No sender gets here while the receiver sleeps.
    have hput := (hasleep hr hsleep).2.2 i
    rw [hpc] at hput
    cases hput
  | other a t ha hslot =>
    rcases hslot with hwoken | ⟨hawake, hlive'⟩
    · refine ⟨hwoken.same.live.2 hlive, hready, fun hr hsleep => ?_⟩
      rw [hwoken.chan]
      exact hasleep hr (hwoken.sleeping hsleep)
    · exact ⟨hlive', hready, fun hr hsleep => absurd hsleep (hawake hr)⟩

theorem Inv.take {s s' : Mail ι} {r : Option ℤ} (h : s.Inv me) (hs : Stepped me s (.take, r) s') :
    r = some 0 ∧ s'.box.queue.size + 1 = s.box.queue.size := by
  cases hs with
  | take hpc =>
    obtain ⟨hret, hsize⟩ := Mailbox.fetch_of_size_ne (h.ready hpc)
    rw [hret]
    exact ⟨rfl, hsize⟩
  | other _ _ ha => exact absurd rfl ha

/-- For any number of senders and any interleaving with other calls: in a run whose steps are all
timely, every `recv` that returns has taken a message, and in no state all sends are completed with
a message in the queue and the receiver asleep in `recv`. -/
theorem delivers_of_timely {s₀ : Mail ι} (h0 : s₀.Idle me)
    {π : List ((MailAct ι × Option ℤ) × Mail ι)} (h : IsRun (step me) s₀ π)
    (htime : Meets Timely s₀ π) : Along (Delivers me s₀) π := by
  refine (h.along_of_meets (P := fun π => (last s₀ π).Inv me ∧ Delivers me s₀ π) ?_ ?_ htime).mono
    fun _ hP => hP.2
  · exact ⟨h0.inv, h0.inv.not_stuck, fun _ _ _ hπ => (by cases hπ)⟩
  · rintro e s π ⟨hinv, -⟩ hC hs
    have hstep := stepped_of_step hinv.live hs
    have hinv' := hinv.step hC hstep
    refine ⟨hinv', hinv'.not_stuck, fun r s' π' hπ => ?_⟩
    obtain ⟨hx, rfl⟩ := List.cons.inj hπ
    cases hx
    exact hinv.take hstep

/-- The slot of init. -/
def init : Fin NPROC := ⟨0, NPROC_pos⟩

def child : Fin NPROC := ⟨1, one_lt_NPROC⟩

def initAndChild : Mail Unit where
  ptable := resumed ((resumed Ptable.userinit init).fork true true init).2 child
  box := ⟨Queue.zero, false⟩
  recv := .outside
  msg := none
  send := fun _ => .idle

theorem initAndChild_idle : initAndChild.Idle init :=
  ⟨rfl, fun _ => rfl, by decide⟩

/-- The receiver sleeps, a sender wakes it, and it continues when the sender has enqueued. -/
theorem delivers_of_timely_handoff :
    ∃ π, π.map Prod.fst = [(.take, some 0), (.resume, none), (.put (), some 0), (.wake (), none),
        (.look () fun _ => 1, none), (.sleep, none), (.test, none)] ∧
      IsRun (step init) initAndChild π ∧ Meets Timely initAndChild π ∧
      Along (Delivers init initAndChild) π := by
  have heval : (history (tickOut (exec init)) initAndChild []
      [.test, .sleep, .look () fun _ => 1, .wake (), .put (), .resume, .take]).map
        (fun π => (π.map Prod.fst, decide (Meets Timely initAndChild π))) =
      some ([(.take, some 0), (.resume, none), (.put (), some 0), (.wake (), none),
        (.look () fun _ => 1, none), (.sleep, none), (.test, none)], true) := by decide
  obtain ⟨π, hrun, heq⟩ := exists_run_tickOut heval
  obtain ⟨hevents, hmeets⟩ := Prod.mk.inj heq
  have htime := of_decide_eq_true hmeets
  exact ⟨π, hevents, hrun, htime, delivers_of_timely initAndChild_idle hrun htime⟩

theorem not_delivers_of_schedule {s₀ : Mail ι} (xs : List (MailAct ι))
    {l : List (MailAct ι × Option ℤ)}
    (h : (history (tickOut (exec me)) s₀ [] xs).map (List.map Prod.fst) = some ((.take, some (-1)) :: l)) :
    ∃ π, π.map Prod.fst = (.take, some (-1)) :: l ∧ IsRun (step me) s₀ π ∧ ¬ Delivers me s₀ π := by
  obtain ⟨π, hrun, hevents⟩ := exists_run_tickOut h
  refine ⟨π, hevents, hrun, ?_⟩
  rintro ⟨-, htook⟩
  obtain ⟨⟨e, s⟩, π', rfl, rfl, -⟩ := List.map_eq_cons_iff.1 hevents
  exact absurd (htook _ _ _ rfl).1 (by decide)

/-- A sender wakes the receiver, which runs before the sender has enqueued: `recv` returns `-1`. So
it does when a child of the receiver exits while it sleeps. And a message that comes between the
test of the queue and the `sleep` leaves the receiver asleep. -/
theorem recv_fails_or_sleeps :
    (∃ π, π.map Prod.fst = [(.take, some (-1)), (.resume, none), (.wake (), none),
        (.look () fun _ => 1, none), (.sleep, none), (.test, none)] ∧
      IsRun (step init) initAndChild π ∧ ¬ Delivers init initAndChild π) ∧
    (∃ π, π.map Prod.fst = [(.take, some (-1)), (.resume, none), (.call child .exit, none),
        (.sleep, none), (.test, none)] ∧
      IsRun (step init) initAndChild π ∧ ¬ Delivers init initAndChild π) ∧
    ∃ π, π.map Prod.fst = [(.sleep, none), (.put (), some 0), (.look () fun _ => 1, none),
        (.test, none)] ∧
      IsRun (step init) initAndChild π ∧ (last initAndChild π).Stuck init := by
  refine ⟨?_, ?_, ?_⟩
  · exact not_delivers_of_schedule [.test, .sleep, .look () fun _ => 1, .wake (), .resume, .take]
      (by decide)
  · exact not_delivers_of_schedule [.test, .sleep, .call child .exit, .resume, .take]
      (by decide +kernel)
  · have heval : (history (tickOut (exec init)) initAndChild []
        [.test, .look () fun _ => 1, .put (), .sleep]).map
          (fun π => (π.map Prod.fst, decide ((last initAndChild π).Stuck init))) =
        some ([(.sleep, none), (.put (), some 0), (.look () fun _ => 1, none), (.test, none)],
          true) := by decide
    obtain ⟨π, hrun, heq⟩ := exists_run_tickOut heval
    obtain ⟨hevents, hstuck⟩ := Prod.mk.inj heq
    exact ⟨π, hevents, hrun, of_decide_eq_true hstuck⟩

end Mail

end Xv6
