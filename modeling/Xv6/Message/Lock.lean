import Xv6.Message.SendRecv

/-!
# The lock of a message queue

`send` and `recv` return early when `enqueue` or `dequeue` fails, and then keep the lock of the
queue; `sys_send` throws the value of `send` away and returns `0` all the same. `Orderly` is what
they should do: the lock is free after every step, and `sys_send` tells whether the message was
appended. It holds along a run exactly if no `send` finds the queue full and no `recv` dequeues from
an empty one.
-/

namespace Xv6

open Function Run

def Mailbox.sysSend (args : Bool) (m : Msg) (b : Mailbox) : ℤ × Mailbox :=
  if args then (0, (b.post m).2) else (-1, b)

def Queue.Appended (m : Msg) (q q' : Queue) : Prop :=
  q'.size = q.size + 1 ∧ q'.array (Queue.slot q'.rear) = m

/-- `sys_send` returns `0` exactly if the message was appended, and leaves a full queue as it was and
returns `-1`. -/
structure Mailbox.Tells (m : Msg) (b : Mailbox) (r : ℤ) (b' : Mailbox) : Prop where
  appended : r = 0 ↔ b.queue.Appended m b'.queue
  full : b.queue.size = MSGBUFFSIZE → r = -1 ∧ b' = b

namespace Mailbox

theorem post_of_ne {m : Msg} {b : Mailbox} (h : b.queue.size ≠ MSGBUFFSIZE) :
    b.post m = (0, ⟨(b.queue.enqueue m).2, false⟩) := by
  have hret : (b.queue.enqueue m).1 = 0 := by simp [Queue.enqueue, h]
  simp [post, hret]

theorem fetch_of_empty {b : Mailbox} (h : b.queue.size = 0) :
    b.fetch = (-1, none, ⟨b.queue, true⟩) := by
  simp [fetch, Queue.dequeue, Queue.isEmpty, h]

theorem fetch_unlocked_iff {b : Mailbox} : b.fetch.2.2.locked = false ↔ b.queue.size ≠ 0 := by
  by_cases h : b.queue.size = 0
  · simp [fetch_of_empty h, h]
  · simp [fetch, Queue.dequeue, Queue.isEmpty, h]

theorem tells_of_refused (m : Msg) (b : Mailbox) :
    b.Tells m (b.sysSend false m).1 (b.sysSend false m).2 ∧ (b.sysSend false m).2 = b := by
  refine ⟨⟨iff_of_false (show (-1 : ℤ) ≠ 0 by decide) fun happ => ?_, fun _ => ⟨rfl, rfl⟩⟩, rfl⟩
  exact absurd happ.1 (Nat.ne_add_one _)

theorem post_orderly_iff {m : Msg} {b : Mailbox} :
    (b.post m).2.locked = false ∧ b.Tells m (b.sysSend true m).1 (b.post m).2 ↔
      b.queue.size ≠ MSGBUFFSIZE := by
  constructor
  · rintro ⟨-, htells⟩ hfull
    have hret : (0 : ℤ) ≠ -1 := by decide
    exact hret (htells.full hfull).1
  · intro h
    rw [post_of_ne h]
    refine ⟨rfl, ⟨fun _ => ?_, fun _ => rfl⟩, fun hfull => absurd hfull h⟩
    have hmod : Queue.slot ((b.queue.rear + 1) % MSGBUFFSIZE) = Queue.slot (b.queue.rear + 1) :=
      Fin.ext (Nat.mod_mod ..)
    simp only [Queue.Appended, Queue.enqueue, h, if_false, hmod, update_self, and_self]

end Mailbox

namespace Mail

variable {ι : Type*} [DecidableEq ι] {me : Fin NPROC} {s₀ s s' : Mail ι}
  {π : List ((MailAct ι × Option ℤ) × Mail ι)}

def Orderly (s₀ : Mail ι) : List ((MailAct ι × Option ℤ) × Mail ι) → Prop
  | [] => s₀.box.locked = false
  | ((.put i, _), s') :: π => s'.box.locked = false ∧
      ∀ m, (last s₀ π).send i = .putting m →
        (last s₀ π).box.Tells m ((last s₀ π).box.sysSend true m).1 s'.box
  | (_, s') :: _ => s'.box.locked = false

def Room (s : Mail ι) : MailAct ι × Option ℤ → Prop
  | (.put _, _) => s.box.queue.size ≠ MSGBUFFSIZE
  | (.take, _) => s.box.queue.size ≠ 0
  | _ => True

instance decidableRoom (s : Mail ι) : ∀ e, Decidable (s.Room e)
  | (.put _, _) => inferInstanceAs (Decidable (s.box.queue.size ≠ MSGBUFFSIZE))
  | (.take, _) => inferInstanceAs (Decidable (s.box.queue.size ≠ 0))
  | (.test, _) | (.sleep, _) | (.resume, _) | (.look _ _, _) | (.wake _, _) => isTrue trivial
  | (.call _ _, _) | (.yield _, _) | (.dispatch _, _) => isTrue trivial

omit [DecidableEq ι] in
theorem Orderly.unlocked (h : Orderly s₀ π) : (last s₀ π).box.locked = false := by
  cases π with
  | nil => exact h
  | cons x π =>
    obtain ⟨⟨a, r⟩, s⟩ := x
    cases a with
    | put i => exact h.1
    | _ => exact h

theorem effect_of_step {e : MailAct ι × Option ℤ} (h : s.step me e s') :
    match e with
    | (.take, r) => r = some s.box.fetch.1 ∧ s'.msg = s.box.fetch.2.1 ∧
        s'.box = s.box.fetch.2.2 ∧ s'.send = s.send
    | (.put i, r) => ∃ m, s.send i = .putting m ∧ r = some (s.box.post m).1 ∧
        s'.box = (s.box.post m).2 ∧ s'.send = update s.send i .idle
    | (.look i m, _) => s'.box = s.box ∧
        ∃ pc, (pc = .waking m ∨ pc = .putting m) ∧ s'.send = update s.send i pc
    | (.wake i, _) => s'.box = s.box ∧
        ∃ m, s.send i = .waking m ∧ s'.send = update s.send i (.putting m)
    | _ => s'.box = s.box ∧ s'.send = s.send := by
  obtain ⟨a, r⟩ := e
  cases a with
  | take =>
    obtain ⟨-, rfl, rfl⟩ := of_guard h
    exact ⟨rfl, rfl, rfl, rfl⟩
  | put i =>
    simp only [step, exec] at h
    split at h
    · rename_i m hpc
      obtain ⟨-, rfl, rfl⟩ := of_guard h
      exact ⟨m, hpc, rfl, rfl, rfl⟩
    · cases h
  | look i m =>
    obtain ⟨-, rfl, rfl⟩ := of_guard h
    refine ⟨rfl, _, ?_, rfl⟩
    split
    · exact .inl rfl
    · exact .inr rfl
  | wake i =>
    simp only [step, exec] at h
    split at h
    · rename_i m hpc
      cases h
      exact ⟨rfl, m, hpc, rfl⟩
    · cases h
  | call cur c =>
    simp only [step, exec, Option.ite_none_right_eq_some, Option.map_eq_some_iff,
      Prod.mk.injEq] at h
    obtain ⟨-, t, -, -, rfl⟩ := h
    exact ⟨rfl, rfl⟩
  | test | sleep | resume | yield i | dispatch i =>
    obtain ⟨-, rfl, rfl⟩ := of_guard h
    exact ⟨rfl, rfl⟩

theorem box_of_step {e : MailAct ι × Option ℤ} (h : s.step me e s') :
    match e.1 with
    | .take => s'.box = s.box.fetch.2.2
    | .put i => ∃ m, s.send i = .putting m ∧ s'.box = (s.box.post m).2
    | _ => s'.box = s.box := by
  have heffect := effect_of_step h
  obtain ⟨a, r⟩ := e
  cases a with
  | take => exact heffect.2.2.1
  | put i =>
    obtain ⟨m, hpc, -, hbox, -⟩ := heffect
    exact ⟨m, hpc, hbox⟩
  | test | sleep | resume | look i m | wake i | call cur c | yield i | dispatch i =>
    exact heffect.1

theorem orderly_step_iff {e : MailAct ι × Option ℤ} (hs : (last s₀ π).step me e s')
    (hπ : Orderly s₀ π) : Orderly s₀ ((e, s') :: π) ↔ (last s₀ π).Room e := by
  have hbox := box_of_step hs
  have hfree := hπ.unlocked
  obtain ⟨a, r⟩ := e
  cases a with
  | take =>
    show s'.box.locked = false ↔ _
    rw [show s'.box = _ from hbox]
    exact Mailbox.fetch_unlocked_iff
  | put i =>
    obtain ⟨m, hpc, hbox⟩ := hbox
    refine Iff.trans ?_ (Mailbox.post_orderly_iff (m := m))
    rw [← hbox]
    refine and_congr_right fun _ => ⟨fun h => h m hpc, fun h m' hpc' => ?_⟩
    obtain rfl : m = m' := SendPc.putting.inj (hpc.symm.trans hpc')
    exact h
  | test | sleep | resume | look i m | wake i | call cur c | yield i | dispatch i =>
    refine iff_of_true ?_ trivial
    show s'.box.locked = false
    rw [show s'.box = _ from hbox]
    exact hfree

/-- For any number of senders and any interleaving with other calls: `send` and `recv` give the lock
back on every return and `sys_send` tells what became of the message, all along a run, exactly if no
`send` of the run finds the queue full and no `recv` dequeues from an empty one. -/
theorem orderly_iff_room (h0 : s₀.box.locked = false) (h : IsRun (step me) s₀ π) :
    Along (Orderly s₀) π ↔ Meets Room s₀ π :=
  h.along_iff (I := fun _ => True) trivial (fun _ _ _ _ _ => trivial) h0
    fun _ _ _ _ hs hπ => orderly_step_iff hs hπ

/-- A message is sent and received. -/
theorem orderly_iff_room_sendRecv :
    ∃ π, π.map Prod.fst = [(.take, some 0), (.test, none), (.put (), some 0),
        (.look () fun _ => 1, none)] ∧
      IsRun (step init) initAndChild π ∧ (Along (Orderly initAndChild) π ↔
        Meets Room initAndChild π) ∧ Meets Room initAndChild π := by
  have heval : (history (tickOut (exec init)) initAndChild [] [.look () fun _ => 1, .put (), .test, .take]).map
        (fun π => (π.map Prod.fst, decide (Meets Room initAndChild π))) =
      some ([(.take, some 0), (.test, none), (.put (), some 0), (.look () fun _ => 1, none)],
        true) := by decide
  obtain ⟨π, hrun, heq⟩ := exists_run_tickOut heval
  obtain ⟨hevents, hroom⟩ := Prod.mk.inj heq
  exact ⟨π, hevents, hrun, orderly_iff_room rfl hrun, of_decide_eq_true hroom⟩

def fill : List (MailAct Unit) := (List.replicate MSGBUFFSIZE [.look () fun _ => 1, .put ()]).flatten

/-- After 200 sends the next one keeps the lock, and `sys_send` returns `0`. And a `recv` that is
woken by the exit of a child keeps the lock. -/
theorem send_and_recv_keep_lock :
    (∃ π, IsRun (step init) initAndChild π ∧ (last initAndChild π).box.locked = true ∧
      (last initAndChild π).box.queue.size = MSGBUFFSIZE ∧ ¬ Orderly initAndChild π) ∧
    ∃ π, IsRun (step init) initAndChild π ∧ (last initAndChild π).box.locked = true ∧
      (last initAndChild π).box.queue.size = 0 ∧ ¬ Orderly initAndChild π := by
  have hlocked : ∀ π, (last initAndChild π).box.locked = true → ¬ Orderly initAndChild π := by
    intro π hπ h
    exact absurd (hπ.symm.trans h.unlocked) (by decide)
  refine ⟨?_, ?_⟩
  · have heval : (history (tickOut (exec init)) initAndChild [] (fill ++ [.look () fun _ => 1, .put ()])).map
          (fun π => ((last initAndChild π).box.locked, (last initAndChild π).box.queue.size)) =
        some (true, MSGBUFFSIZE) := by decide +kernel
    obtain ⟨π, hrun, heq⟩ := exists_run_tickOut heval
    obtain ⟨hlock, hsize⟩ := Prod.mk.inj heq
    exact ⟨π, hrun, hlock, hsize, hlocked π hlock⟩
  · have heval : (history (tickOut (exec init)) initAndChild []
          [.test, .sleep, .call child .exit, .resume, .take]).map
          (fun π => ((last initAndChild π).box.locked, (last initAndChild π).box.queue.size)) =
        some (true, 0) := by decide +kernel
    obtain ⟨π, hrun, heq⟩ := exists_run_tickOut heval
    obtain ⟨hlock, hsize⟩ := Prod.mk.inj heq
    exact ⟨π, hrun, hlock, hsize, hlocked π hlock⟩

end Mail

end Xv6
