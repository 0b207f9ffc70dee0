import Xv6.Message.Lock
import Xv6.Strings

/-!
# What `recv` delivers

The bytes of a message on their way from the buffer of the sender to that of the receiver. `send`
copies them into a local array and `enqueue` copies that into the queue, both with a loop over the
eight bytes. `recv` copies the oldest message of the queue with `strncpy`, which stops at a zero
byte and writes zeros from there on. So a message arrives as it was sent if it has no byte other
than zero behind a zero byte.

The index of `front()` is not the subject here: `NotWrapped` asks that it is in the array.
-/

namespace Xv6

open Function Run

/-! ## The copies -/

def Msg.bytes (m : Msg) (after : ℕ → UInt8) (k : ℕ) : UInt8 :=
  if h : k < 8 then m ⟨k, h⟩ else after k

theorem strncpy_bytes (buf after : ℕ → UInt8) (m : Msg) (i : Fin 8) :
    strncpy buf (m.bytes after) 8 i = Mailbox.strncpy m i := by
  rw [strncpy_apply, if_pos i.isLt, text, Mailbox.strncpy]
  have hbyte : ∀ j : Fin 8, m.bytes after j = m j := fun j => dif_pos j.isLt
  have hzero : (∃ j < (i : ℕ), m.bytes after j = 0) ↔ ∃ j < i, m j = 0 := by
    constructor
    · rintro ⟨j, hj, h0⟩
      have hlt : j < 8 := hj.trans i.isLt
      exact ⟨⟨j, hlt⟩, hj, (hbyte ⟨j, hlt⟩).symm.trans h0⟩
    · rintro ⟨j, hj, h0⟩
      exact ⟨j, hj, (hbyte j).trans h0⟩
  rw [hbyte]
  exact if_congr hzero rfl rfl

def Msg.Padded (m : Msg) : Prop := ∀ i j, i < j → m i = 0 → m j = 0

instance (m : Msg) : Decidable m.Padded := inferInstanceAs (Decidable (∀ i j, i < j → m i = 0 → m j = 0))

theorem Mailbox.strncpy_eq_iff (m : Msg) : Mailbox.strncpy m = m ↔ m.Padded := by
  constructor
  · intro h i j hij h0
    rw [← h]
    exact if_pos ⟨i, hij, h0⟩
  · intro h
    funext j
    unfold Mailbox.strncpy
    split
    · rename_i hzero
      obtain ⟨i, hij, h0⟩ := hzero
      exact (h i j hij h0).symm
    · rfl

theorem Mailbox.step_post (b : Mailbox) (m : Msg) :
    b.queue.step (.enqueue m, (b.post m).1) (b.post m).2.queue := by
  unfold Queue.step Queue.Op.exec Mailbox.post Queue.enqueue
  by_cases hfull : b.queue.size = MSGBUFFSIZE
  · simp [hfull]
  · simp [hfull]

theorem Mailbox.step_fetch (b : Mailbox) :
    b.queue.step (.dequeue, b.fetch.1) b.fetch.2.2.queue := by
  unfold Queue.step Queue.Op.exec Mailbox.fetch Queue.dequeue
  by_cases hempty : b.queue.isEmpty
  · simp [hempty]
  · simp [hempty]

theorem Mailbox.fetch_msg {b : Mailbox} (h : b.queue.size ≠ 0) :
    b.fetch.2.1 = b.queue.frontItem.map strncpy := by
  simp [fetch, Queue.dequeue, Queue.isEmpty, h]

namespace Mail

variable {ι : Type*} [DecidableEq ι] {me : Fin NPROC} {s₀ s s' : Mail ι}
  {π : List ((MailAct ι × Option ℤ) × Mail ι)}

/-! ## What arrives -/

def queueCalls (s₀ : Mail ι) :
    List ((MailAct ι × Option ℤ) × Mail ι) → List ((Queue.Op × ℤ) × Queue)
  | [] => []
  | ((.put i, some r), s') :: π =>
    match (last s₀ π).send i with
    | .putting m => ((.enqueue m, r), s'.box.queue) :: queueCalls s₀ π
    | _ => queueCalls s₀ π
  | ((.take, some r), s') :: π => ((.dequeue, r), s'.box.queue) :: queueCalls s₀ π
  | _ :: π => queueCalls s₀ π

def Arrives (s₀ : Mail ι) : List ((MailAct ι × Option ℤ) × Mail ι) → Prop
  | ((.take, r), s') :: π => r = some 0 →
      ∃ m, (Queue.accepted (queueCalls s₀ π))[Queue.dropped (queueCalls s₀ π)]? = some m ∧
        s'.msg = some m
  | _ => True

def NotWrapped (s : Mail ι) : MailAct ι × Option ℤ → Prop
  | (.take, _) => s.box.queue.size ≠ 0 → s.box.queue.front + 1 < MSGBUFFSIZE
  | _ => True

def SendsPadded (_ : Mail ι) : MailAct ι × Option ℤ → Prop
  | (.look _ m, _) => m.Padded
  | _ => True

instance decidableNotWrapped (s : Mail ι) : ∀ e, Decidable (s.NotWrapped e)
  | (.take, _) =>
    inferInstanceAs (Decidable (s.box.queue.size ≠ 0 → s.box.queue.front + 1 < MSGBUFFSIZE))
  | (.test, _) | (.sleep, _) | (.resume, _) | (.look _ _, _) | (.wake _, _) => isTrue trivial
  | (.put _, _) | (.call _ _, _) | (.yield _, _) | (.dispatch _, _) => isTrue trivial

instance decidableSendsPadded (s : Mail ι) : ∀ e, Decidable (s.SendsPadded e)
  | (.look _ m, _) => inferInstanceAs (Decidable m.Padded)
  | (.test, _) | (.sleep, _) | (.resume, _) | (.take, _) | (.wake _, _) => isTrue trivial
  | (.put _, _) | (.call _ _, _) | (.yield _, _) | (.dispatch _, _) => isTrue trivial

/-! ## The runs -/

omit [DecidableEq ι] in
/-- What holds after a run in which the messages sent are padded: the queue holds what was accepted,
and the messages in it and in the senders are padded. -/
structure Carries (s₀ : Mail ι) (π : List ((MailAct ι × Option ℤ) × Mail ι)) : Prop where
  stores : (last s₀ π).box.queue.Stores (queueCalls s₀ π)
  senders : ∀ i m, (last s₀ π).send i = .waking m ∨ (last s₀ π).send i = .putting m → m.Padded
  accepted : ∀ m ∈ Queue.accepted (queueCalls s₀ π), m.Padded

omit [DecidableEq ι] in
theorem Idle.carries (h : s₀.Idle me) (hqueue : s₀.box.queue = Queue.zero) : Carries s₀ [] where
  stores := hqueue ▸ Queue.zero_stores
  senders i m hpc := by
    rw [last_nil, h.send i] at hpc
    rcases hpc with hpc | hpc <;> cases hpc
  accepted m hm := nomatch hm

theorem senders_update {send : ι → SendPc} {i : ι} {pc : SendPc}
    (h : ∀ j m, send j = .waking m ∨ send j = .putting m → m.Padded)
    (hpc : ∀ m, pc = .waking m ∨ pc = .putting m → m.Padded) (j : ι) (m : Msg)
    (hj : update send i pc j = .waking m ∨ update send i pc j = .putting m) :
    m.Padded := by
  by_cases hji : j = i
  · subst hji
    rw [update_self] at hj
    exact hpc m hj
  · rw [update_of_ne hji] at hj
    exact h j m hj

omit [DecidableEq ι] in
theorem Carries.of_box {e : MailAct ι × Option ℤ} (h : Carries s₀ π)
    (hcalls : queueCalls s₀ ((e, s') :: π) = queueCalls s₀ π) (hbox : s'.box = (last s₀ π).box)
    (hsend : ∀ i m, s'.send i = .waking m ∨ s'.send i = .putting m → m.Padded) :
    Carries s₀ ((e, s') :: π) := by
  refine ⟨?_, hsend, ?_⟩
  · rw [hcalls, last_cons, hbox]
    exact h.stores
  · rw [hcalls]
    exact h.accepted

theorem Carries.step {e : MailAct ι × Option ℤ} (h : Carries s₀ π)
    (hpad : (last s₀ π).SendsPadded e) (hs : (last s₀ π).step me e s') :
    Carries s₀ ((e, s') :: π) := by
  have heffect := effect_of_step hs
  obtain ⟨a, r⟩ := e
  cases a with
  | take =>
    obtain ⟨rfl, -, hbox, hsend⟩ := heffect
    have hq := (last s₀ π).box.step_fetch
    refine ⟨?_, ?_, h.accepted⟩
    · rw [last_cons, hbox]
      show Queue.Stores _ (((.dequeue, _), s'.box.queue) :: queueCalls s₀ π)
      rw [hbox]
      exact h.stores.step hq
    · rw [last_cons, hsend]
      exact h.senders
  | put i =>
    obtain ⟨m, hpc, rfl, hbox, hsend⟩ := heffect
    have hq := (last s₀ π).box.step_post m
    have hcalls : queueCalls s₀ (((.put i, some ((last s₀ π).box.post m).1), s') :: π) =
        ((.enqueue m, ((last s₀ π).box.post m).1), s'.box.queue) :: queueCalls s₀ π := by
      simp only [queueCalls, hpc]
    refine ⟨?_, ?_, ?_⟩
    · rw [last_cons, hcalls, hbox]
      exact h.stores.step hq
    · rw [last_cons, hsend]
      exact senders_update h.senders fun m h => by rcases h with h | h <;> cases h
    · rw [hcalls]
      intro m' hm'
      unfold Queue.accepted at hm'
      split at hm'
      · rcases List.mem_append.1 hm' with hm' | hm'
        · exact h.accepted m' hm'
        · obtain rfl := List.mem_singleton.1 hm'
          exact h.senders i m' (.inr hpc)
      · exact h.accepted m' hm'
  | look i m =>
    obtain ⟨hbox, pc, hpc, hsend⟩ := heffect
    refine h.of_box rfl hbox ?_
    rw [hsend]
    refine senders_update h.senders fun m' hm' => ?_
    -- The message is the one that the sender came with.
    have hm : m = m' := by
      rcases hpc with rfl | rfl <;> rcases hm' with hm' | hm' <;> cases hm'
      · rfl
      · rfl
    subst hm
    exact hpad
  | wake i =>
    obtain ⟨hbox, m, hpc, hsend⟩ := heffect
    refine h.of_box rfl hbox ?_
    rw [hsend]
    refine senders_update h.senders fun m' hm' => ?_
    have hm : m = m' := by
      rcases hm' with hm' | hm' <;> cases hm'
      rfl
    subst hm
    exact h.senders i m (.inl hpc)
  | test | sleep | resume | call cur c | yield i | dispatch i =>
    obtain ⟨hbox, hsend⟩ := heffect
    refine h.of_box rfl hbox ?_
    rw [hsend]
    exact h.senders

theorem Carries.arrives (h : Carries s₀ π) {r : Option ℤ}
    (hwrap : (last s₀ π).NotWrapped (.take, r)) (hs : (last s₀ π).step me (.take, r) s') :
    Arrives s₀ (((.take, r), s') :: π) := by
  obtain ⟨rfl, hmsg, -, -⟩ := effect_of_step hs
  intro hret
  have hsize : (last s₀ π).box.queue.size ≠ 0 := by
    intro hempty
    rw [Mailbox.fetch_of_empty hempty] at hret
    have hne : (-1 : ℤ) ≠ 0 := by decide
    exact hne (Option.some.inj hret)
  -- The message that `front()` points to is the oldest one stored.
  have hfront := Queue.frontItem_of_lt (hwrap hsize)
  have holdest := h.stores.oldest hsize
  generalize (last s₀ π).box.queue.array _ = m at hfront holdest
  refine ⟨m, holdest, ?_⟩
  have hpadded := h.accepted m (List.mem_of_getElem? holdest)
  rw [hmsg, Mailbox.fetch_msg hsize, hfront, Option.map_some,
    (Mailbox.strncpy_eq_iff m).2 hpadded]

/-- For any number of senders and any interleaving with other calls, from an empty queue: if every
message that is sent has no byte other than zero behind a zero byte, and `front()` is in the array
whenever a message is taken, then every message that `recv` takes arrives as it was sent. -/
theorem arrives_of_sendsPadded (h0 : s₀.Idle me) (hqueue : s₀.box.queue = Queue.zero)
    (hrun : IsRun (step me) s₀ π) (hwrap : Meets NotWrapped s₀ π) (hpad : Meets SendsPadded s₀ π) :
    Along (Arrives s₀) π := by
  have hboth : Along (fun π => Carries s₀ π ∧ Arrives s₀ π) π := by
    refine hrun.along_of_meets ⟨h0.carries hqueue, trivial⟩ ?_ (hwrap.and hpad)
    rintro ⟨a, r⟩ s' π ⟨hπ, -⟩ ⟨hwrap, hpad⟩ hs
    refine ⟨hπ.step hpad hs, ?_⟩
    cases a with
    | take => exact hπ.arrives hwrap hs
    | _ => trivial
  exact hboth.mono fun _ h => h.2

def hi : Msg := fun i => if i.val = 0 then 104 else if i.val = 1 then 105 else 0

/-- A message that ends in zeros is sent and received. -/
theorem arrives_of_sendsPadded_hi :
    ∃ π, π.map Prod.fst = [(.take, some 0), (.test, none), (.put (), some 0),
        (.look () hi, none)] ∧
      IsRun (step init) initAndChild π ∧ Meets NotWrapped initAndChild π ∧
      Meets SendsPadded initAndChild π ∧ Along (Arrives initAndChild) π := by
  have heval : (history (tickOut (exec init)) initAndChild [] [.look () hi, .put (), .test, .take]).map
        (fun π => (π.map Prod.fst, decide (Meets NotWrapped initAndChild π),
          decide (Meets SendsPadded initAndChild π))) =
      some ([(.take, some 0), (.test, none), (.put (), some 0), (.look () hi, none)],
        true, true) := by decide +kernel
  obtain ⟨π, hrun, heq⟩ := exists_run_tickOut heval
  obtain ⟨hevents, heq⟩ := Prod.mk.inj heq
  obtain ⟨hwrap, hpad⟩ := Prod.mk.inj heq
  have hwrap := of_decide_eq_true hwrap
  have hpad := of_decide_eq_true hpad
  exact ⟨π, hevents, hrun, hwrap, hpad,
    arrives_of_sendsPadded initAndChild_idle rfl hrun hwrap hpad⟩

def gap : Msg := fun i => if i.val = 0 ∨ i.val = 2 then 1 else 0

def head : Msg := fun i => if i.val = 0 then 1 else 0

/-- Of the message `1, 0, 1, 0, 0, 0, 0, 0` only the first byte arrives. -/
theorem recv_stops_at_zero :
    ∃ π, π.map Prod.fst = [(.take, some 0), (.test, none), (.put (), some 0),
        (.look () gap, none)] ∧
      IsRun (step init) initAndChild π ∧ Meets NotWrapped initAndChild π ∧
      (last initAndChild π).msg = some head ∧ ¬ Arrives initAndChild π := by
  have heval : (history (tickOut (exec init)) initAndChild [] [.look () gap, .put (), .test, .take]).map
        (fun π => (π.map Prod.fst, decide (Meets NotWrapped initAndChild π),
          decide ((last initAndChild π).msg = some head ∧
            Queue.accepted (queueCalls initAndChild π) = [gap]))) =
      some ([(.take, some 0), (.test, none), (.put (), some 0), (.look () gap, none)], true,
        true) := by decide +kernel
  obtain ⟨π, hrun, heq⟩ := exists_run_tickOut heval
  obtain ⟨hevents, heq⟩ := Prod.mk.inj heq
  obtain ⟨hwrap, heq⟩ := Prod.mk.inj heq
  obtain ⟨hmsg, hsent⟩ := of_decide_eq_true heq
  refine ⟨π, hevents, hrun, of_decide_eq_true hwrap, hmsg, ?_⟩
  -- What was sent is `gap`, and what was written is not.
  obtain ⟨⟨e, s⟩, π', rfl, rfl, -⟩ := List.map_eq_cons_iff.1 hevents
  intro harrives
  obtain ⟨m, hm, hmsg'⟩ := harrives rfl
  have hgap : m ∈ [gap] := hsent ▸ List.mem_of_getElem? hm
  obtain rfl := List.mem_singleton.1 hgap
  exact absurd (Option.some.inj (hmsg.symm.trans hmsg')) (by decide)

end Mail

end Xv6
