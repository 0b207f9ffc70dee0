import Xv6.Message.Queue
import Mathlib.Data.Fintype.Basic

/-!
# `send_multi` and its listeners

`send_multi` copies the message into the one `mean_buffer`, byte by byte and without a lock, and then
wakes, for each recipient, the first listener that `store` has registered for it. A listener loops:
it sleeps in `sleepcustom`, and once woken copies the buffer in `read_mean`. Any number of senders
and listeners interleave; a step is the copy of one byte, one wakeup, or going to sleep.

`reg` is the array `map`: which listener is registered for which recipient, in order. `sent` and
`got` are not in the source: the messages that a listener should have read, and those that it has.
-/

namespace Xv6

open Function Run

/-- Where a sender is: outside `send_multi`; before the copy of byte `k`; in the loop over the
recipients, with `rs` of them left. -/
inductive CastPc
  | idle
  | copying (m : Msg) (recs : List ℤ) (k : ℕ)
  | waking (m : Msg) (rs : List ℤ)
  deriving DecidableEq

/-- Where a listener is: before `sleepcustom`; asleep in it; woken, or in `read_mean`, with `k` bytes
copied. -/
inductive ListenPc
  | awake
  | asleep
  | reading (k : ℕ) (part : Msg)
  deriving DecidableEq

def ListenPc.IsReading : ListenPc → Prop
  | .reading _ _ => True
  | _ => False

instance (pc : ListenPc) : Decidable pc.IsReading :=
  match pc with
  | .reading _ _ => isTrue trivial
  | .awake | .asleep => isFalse id

/-- The buffer, the senders in `ι`, and the listeners in `κ`. -/
structure Cast (ι κ : Type*) where
  mean_buffer : Msg
  send : ι → CastPc
  listen : κ → ListenPc
  /-- The messages that were sent to a recipient that the listener is registered for. -/
  sent : κ → List Msg
  /-- The messages that the listener has read. -/
  got : κ → List Msg

/-- A step. -/
inductive CastAct (ι κ : Type*)
  /-- `send_multi` is called. -/
  | call (i : ι) (m : Msg) (recs : List ℤ)
  /-- It copies a byte. -/
  | copy (i : ι)
  /-- It wakes the listener of the next recipient, or returns. -/
  | wake (i : ι)
  /-- A listener goes to sleep. -/
  | sleep (l : κ)
  /-- It copies a byte. -/
  | read (l : κ)
  deriving DecidableEq

namespace Cast

variable {ι κ : Type*} [DecidableEq ι] [DecidableEq κ] {reg : List (ℤ × κ)}

def target (reg : List (ℤ × κ)) (r : ℤ) : Option κ :=
  (reg.find? fun x => x.1 = r).map Prod.snd

def Registered (reg : List (ℤ × κ)) (recs : List ℤ) (l : κ) : Prop := ∃ r ∈ recs, (r, l) ∈ reg

instance (recs : List ℤ) (l : κ) : Decidable (Registered reg recs l) :=
  inferInstanceAs (Decidable (∃ r ∈ recs, _))

def wakeupcustom (s : Cast ι κ) (l : κ) : Cast ι κ :=
  match s.listen l with
  | .asleep => { s with listen := update s.listen l (.reading 0 fun _ => 0) }
  | _ => s

/-- One step. -/
def exec (reg : List (ℤ × κ)) (s : Cast ι κ) : CastAct ι κ → Option (Cast ι κ)
  | .call i m recs =>
    match s.send i with
    | .idle => some { s with
        send := update s.send i (.copying m recs 0)
        sent := fun l => if Registered reg recs l then s.sent l ++ [m] else s.sent l }
    | _ => none
  | .copy i =>
    match s.send i with
    | .copying m recs k =>
      if h : k < 8 then some { s with
        mean_buffer := update s.mean_buffer ⟨k, h⟩ (m ⟨k, h⟩)
        send := update s.send i (.copying m recs (k + 1)) }
      else some { s with send := update s.send i (.waking m recs) }
    | _ => none
  | .wake i =>
    match s.send i with
    | .waking m (r :: rs) =>
      let s := match target reg r with
        | some l => s.wakeupcustom l
        | none => s
      some { s with send := update s.send i (.waking m rs) }
    | .waking _ [] => some { s with send := update s.send i .idle }
    | _ => none
  | .sleep l =>
    match s.listen l with
    | .awake => some { s with listen := update s.listen l .asleep }
    | _ => none
  | .read l =>
    match s.listen l with
    | .reading k part =>
      if h : k < 8 then some { s with
        listen := update s.listen l
          (.reading (k + 1) (update part ⟨k, h⟩ (s.mean_buffer ⟨k, h⟩))) }
      else some { s with
        listen := update s.listen l .awake
        got := update s.got l (s.got l ++ [part]) }
    | _ => none

def step (reg : List (ℤ × κ)) (s : Cast ι κ) (a : CastAct ι κ) (s' : Cast ι κ) : Prop :=
  s.exec reg a = some s'

/-- Nothing has been sent, and no listener has been woken. -/
structure Idle (s : Cast ι κ) : Prop where
  send : ∀ i, s.send i = .idle
  listen : ∀ l, ¬ (s.listen l).IsReading
  sent : ∀ l, s.sent l = []

def Delivered (s : Cast ι κ) : Prop :=
  (∀ i, s.send i = .idle) → ∀ l, ¬ (s.listen l).IsReading → (s.sent l).Sublist (s.got l)

def Alone (reg : List (ℤ × κ)) (s : Cast ι κ) : CastAct ι κ → Prop
  | .call _ _ recs => (∀ i, s.send i = .idle) ∧ (∀ l, ¬ (s.listen l).IsReading) ∧
      (∀ l, Registered reg recs l → s.listen l = .asleep) ∧
      ∀ r ∈ recs, ∀ x ∈ reg, ∀ y ∈ reg, x.1 = r → y.1 = r → x.2 = y.2
  | _ => True

instance decidableAlone [Fintype ι] [Fintype κ] (s : Cast ι κ) : ∀ a, Decidable (s.Alone reg a)
  | .call _ _ recs => inferInstanceAs (Decidable ((∀ i, s.send i = .idle) ∧
      (∀ l, ¬ (s.listen l).IsReading) ∧ (∀ l, Registered reg recs l → s.listen l = .asleep) ∧
      ∀ r ∈ recs, ∀ x ∈ reg, ∀ y ∈ reg, x.1 = r → y.1 = r → x.2 = y.2))
  | .copy _ | .wake _ | .sleep _ | .read _ => isTrue trivial

/-! ## What holds while calls are alone -/

def Due (reg : List (ℤ × κ)) (s : Cast ι κ) (l : κ) (m : Msg) (rs : List ℤ) : Prop :=
  (∃ r ∈ rs, target reg r = some l) ∧ s.listen l = .asleep ∧
    (s.sent l).Sublist (s.got l ++ [m])

def Reads (s : Cast ι κ) (l : κ) (k : ℕ) (part : Msg) : Prop :=
  (∀ j : Fin 8, (j : ℕ) < k → part j = s.mean_buffer j) ∧
    (s.sent l).Sublist (s.got l ++ [s.mean_buffer])

/-- What holds in every state of a run whose calls are alone. -/
structure Inv (reg : List (ℤ × κ)) (s : Cast ι κ) : Prop where
  one : ∀ i j, s.send i ≠ .idle → s.send j ≠ .idle → i = j
  copying : ∀ i m recs k, s.send i = .copying m recs k →
    (∀ j : Fin 8, (j : ℕ) < k → s.mean_buffer j = m j) ∧ (∀ l, ¬ (s.listen l).IsReading) ∧
      ∀ l, (s.sent l).Sublist (s.got l) ∨ s.Due reg l m recs
  waking : ∀ i m rs, s.send i = .waking m rs → s.mean_buffer = m ∧
    ∀ l, (s.sent l).Sublist (s.got l) ∨ (s.listen l).IsReading ∨ s.Due reg l m rs
  reading : ∀ l k part, s.listen l = .reading k part → s.Reads l k part
  idle : (∀ i, s.send i = .idle) → ∀ l, (s.sent l).Sublist (s.got l) ∨ (s.listen l).IsReading

omit [DecidableEq ι] [DecidableEq κ] in
theorem Idle.inv {s : Cast ι κ} (h : s.Idle) : s.Inv reg where
  one i _ hi := absurd (h.send i) hi
  copying i m recs k hi := by
    rw [h.send i] at hi
    cases hi
  waking i m rs hi := by
    rw [h.send i] at hi
    cases hi
  reading l k part hl := by
    refine absurd ?_ (h.listen l)
    rw [hl]
    trivial
  idle _ l := .inl (by rw [h.sent l]; exact List.nil_sublist _)

omit [DecidableEq ι] [DecidableEq κ] in
theorem Inv.delivered {s : Cast ι κ} (h : s.Inv reg) : s.Delivered :=
  fun hidle l hl => (h.idle hidle l).resolve_right hl

omit [DecidableEq ι] [DecidableEq κ] in
theorem target_of_registered {recs : List ℤ} {l : κ}
    (hone : ∀ r ∈ recs, ∀ x ∈ reg, ∀ y ∈ reg, x.1 = r → y.1 = r → x.2 = y.2)
    (h : Registered reg recs l) : ∃ r ∈ recs, target reg r = some l := by
  obtain ⟨r, hr, hmem⟩ := h
  refine ⟨r, hr, ?_⟩
  cases hfind : reg.find? fun x => x.1 = r with
  | none =>
    have := List.find?_eq_none.1 hfind _ hmem
    simp at this
  | some x =>
    have hx : x.1 = r := by simpa using List.find?_some hfind
    rw [target, hfind, Option.map_some, hone r hr x (List.mem_of_find?_eq_some hfind) _ hmem hx rfl]

omit [DecidableEq κ] in
theorem one_update {s : Cast ι κ} {i : ι} {pc : CastPc} (hone : ∀ j, s.send j ≠ .idle → j = i)
    (j : ι) (hj : update s.send i pc j ≠ .idle) : j = i := by
  by_contra hne
  rw [update_of_ne hne] at hj
  exact hne (hone j hj)

omit [DecidableEq ι] [DecidableEq κ] in
theorem Inv.of_copying {s : Cast ι κ} {i : ι} {m : Msg} {recs : List ℤ} {k : ℕ}
    (hi : s.send i = .copying m recs k) (hone : ∀ j, s.send j ≠ .idle → j = i)
    (hbuf : ∀ j : Fin 8, (j : ℕ) < k → s.mean_buffer j = m j)
    (hread : ∀ l, ¬ (s.listen l).IsReading)
    (hall : ∀ l, (s.sent l).Sublist (s.got l) ∨ s.Due reg l m recs) : s.Inv reg := by
  refine ⟨fun j j' hj hj' => (hone j hj).trans (hone j' hj').symm, fun j m' recs' k' hj => ?_,
    fun j m' rs hj => ?_, fun l k part hl => ?_, fun hidle => ?_⟩
  · obtain rfl := hone j (by rw [hj]; nofun)
    obtain ⟨rfl, rfl, rfl⟩ := CastPc.copying.inj (hi.symm.trans hj)
    exact ⟨hbuf, hread, hall⟩
  · obtain rfl := hone j (by rw [hj]; nofun)
    cases hi.symm.trans hj
  · refine absurd ?_ (hread l)
    rw [hl]
    trivial
  · cases hi.symm.trans (hidle i)

omit [DecidableEq ι] [DecidableEq κ] in
theorem Inv.of_waking {s : Cast ι κ} {i : ι} {rs : List ℤ}
    (hi : s.send i = .waking s.mean_buffer rs) (hone : ∀ j, s.send j ≠ .idle → j = i)
    (hreading : ∀ l k part, s.listen l = .reading k part → s.Reads l k part)
    (hall : ∀ l, (s.sent l).Sublist (s.got l) ∨ (s.listen l).IsReading ∨
      s.Due reg l s.mean_buffer rs) : s.Inv reg := by
  refine ⟨fun j j' hj hj' => (hone j hj).trans (hone j' hj').symm, fun j m' recs' k' hj => ?_,
    fun j m' rs hj => ?_, hreading, fun hidle => ?_⟩
  · obtain rfl := hone j (by rw [hj]; nofun)
    cases hi.symm.trans hj
  · obtain rfl := hone j (by rw [hj]; nofun)
    obtain ⟨rfl, rfl⟩ := CastPc.waking.inj (hi.symm.trans hj)
    exact ⟨rfl, hall⟩
  · cases hi.symm.trans (hidle i)

omit [DecidableEq ι] [DecidableEq κ] in
theorem Inv.of_idle {s : Cast ι κ} (hidle : ∀ i, s.send i = .idle)
    (hreading : ∀ l k part, s.listen l = .reading k part → s.Reads l k part)
    (hall : ∀ l, (s.sent l).Sublist (s.got l) ∨ (s.listen l).IsReading) : s.Inv reg := by
  refine ⟨fun j _ hj => absurd (hidle j) hj, fun j m recs k hj => ?_, fun j m rs hj => ?_, hreading,
    fun _ => hall⟩
  · cases (hidle j).symm.trans hj
  · cases (hidle j).symm.trans hj

theorem Inv.call {s : Cast ι κ} {i : ι} {m : Msg} {recs : List ℤ} (h : s.Inv reg)
    (hC : s.Alone reg (.call i m recs)) :
    Inv reg { s with
      send := update s.send i (.copying m recs 0)
      sent := fun l => if Registered reg recs l then s.sent l ++ [m] else s.sent l } := by
  obtain ⟨hidle, hread, hasleep, hone⟩ := hC
  have hall : ∀ l, (s.sent l).Sublist (s.got l) := fun l => (h.idle hidle l).resolve_right (hread l)
  refine .of_copying (update_self ..) (one_update fun j hj => absurd (hidle j) hj)
    (fun _ hk => absurd hk (Nat.not_lt_zero _)) hread fun l => ?_
  by_cases hreg : Registered reg recs l
  · refine .inr ⟨target_of_registered hone hreg, hasleep l hreg, ?_⟩
    show (if Registered reg recs l then s.sent l ++ [m] else s.sent l).Sublist _
    rw [if_pos hreg]
    exact (hall l).append_right [m]
  · refine .inl ?_
    show (if Registered reg recs l then s.sent l ++ [m] else s.sent l).Sublist _
    rw [if_neg hreg]
    exact hall l

theorem Inv.copy {s s' : Cast ι κ} {i : ι} (h : s.Inv reg) (hs : s.step reg (.copy i) s') :
    s'.Inv reg := by
  simp only [step, exec] at hs
  split at hs
  · rename_i m recs k hi
    obtain ⟨hbuf, hread, hall⟩ := h.copying i m recs k hi
    have hone : ∀ j, s.send j ≠ .idle → j = i := fun j hj => h.one j i hj (by rw [hi]; nofun)
    split at hs
    · rename_i hk
      cases hs
      refine .of_copying (update_self ..) (one_update hone) (fun j hjk => ?_) hread hall
      show update s.mean_buffer ⟨k, hk⟩ (m ⟨k, hk⟩) j = m j
      by_cases hjeq : j = ⟨k, hk⟩
      · rw [hjeq, update_self]
      · rw [update_of_ne hjeq]
        exact hbuf j (lt_of_le_of_ne (Nat.lt_succ_iff.1 hjk) fun heq => hjeq (Fin.ext heq))
    · rename_i hk
      cases hs
      obtain rfl : s.mean_buffer = m := funext fun j => hbuf j (by omega)
      refine .of_waking (update_self ..) (one_update hone) (fun l k' part hl => ?_)
        fun l => (hall l).imp_right .inr
      refine absurd ?_ (hread l)
      rw [show s.listen l = .reading k' part from hl]
      trivial
  · cases hs

omit [DecidableEq ι] in
theorem wakeupcustom_spec (s : Cast ι κ) (l : κ) :
    ∃ f, s.wakeupcustom l = { s with listen := f } ∧ (∀ l', l' ≠ l → f l' = s.listen l') ∧
      (s.listen l = .asleep ∧ f l = .reading 0 (fun _ => 0) ∨
        s.listen l ≠ .asleep ∧ f l = s.listen l) := by
  unfold wakeupcustom
  split
  · rename_i hl
    exact ⟨_, rfl, fun l' hne => update_of_ne hne .., .inl ⟨hl, update_self ..⟩⟩
  · rename_i hl
    exact ⟨s.listen, rfl, fun _ _ => rfl, .inr ⟨hl, rfl⟩⟩

theorem Inv.wakeup {s : Cast ι κ} {i : ι} {m : Msg} {r : ℤ} {rs : List ℤ} {l₀ : κ} (h : s.Inv reg)
    (hi : s.send i = .waking m (r :: rs)) (htarget : target reg r = some l₀) :
    Inv reg { s.wakeupcustom l₀ with send := update s.send i (.waking m rs) } := by
  obtain ⟨rfl, hall⟩ := h.waking i m _ hi
  have hone : ∀ j, s.send j ≠ .idle → j = i := fun j hj => h.one j i hj (by rw [hi]; nofun)
  obtain ⟨f, hf, hne, hself⟩ := s.wakeupcustom_spec l₀
  rw [hf]
  -- What is due to another listener is due to it in the rest of the loop.
  have hrest : ∀ l, l ≠ l₀ → s.Due reg l s.mean_buffer (r :: rs) →
      ∃ r' ∈ rs, target reg r' = some l := by
    rintro l hl ⟨⟨r', hr', ht⟩, -⟩
    rcases List.mem_cons.1 hr' with rfl | hr'
    · exact absurd (Option.some.inj (ht.symm.trans htarget)) hl
    · exact ⟨r', hr', ht⟩
  refine .of_waking (update_self ..) (one_update hone) (fun l k part hl => ?_) fun l => ?_
  · have hl : f l = .reading k part := hl
    by_cases hll : l = l₀
    · subst hll
      rcases hself with ⟨hasleep, hnew⟩ | ⟨-, hold⟩
      · obtain ⟨rfl, rfl⟩ := ListenPc.reading.inj (hnew.symm.trans hl)
        refine ⟨fun _ hk => absurd hk (Nat.not_lt_zero _), ?_⟩
        rcases hall l with hsub | hreading | hdue
        · exact hsub.trans (List.sublist_append_left ..)
        · rw [hasleep] at hreading
          exact hreading.elim
        · exact hdue.2.2
      · exact h.reading l k part (hold.symm.trans hl)
    · exact h.reading l k part ((hne l hll).symm.trans hl)
  · show _ ∨ (f l).IsReading ∨ _
    by_cases hll : l = l₀
    · subst hll
      rcases hself with ⟨-, hnew⟩ | ⟨hawake, hold⟩
      · rw [hnew]
        exact .inr (.inl trivial)
      · rcases hall l with hsub | hreading | hdue
        · exact .inl hsub
        · rw [hold]
          exact .inr (.inl hreading)
        · exact absurd hdue.2.1 hawake
    · rw [hne l hll]
      refine (hall l).imp_right fun hl => hl.imp_right fun hdue => ?_
      exact ⟨hrest l hll hdue, (hne l hll).trans hdue.2.1, hdue.2.2⟩

theorem Inv.wake {s s' : Cast ι κ} {i : ι} (h : s.Inv reg) (hs : s.step reg (.wake i) s') :
    s'.Inv reg := by
  simp only [step, exec] at hs
  split at hs
  · rename_i m r rs hi
    cases hs
    cases htarget : target reg r with
    | some l =>
      have hsend : (s.wakeupcustom l).send = s.send := by
        obtain ⟨f, hf, -⟩ := s.wakeupcustom_spec l
        rw [hf]
      simp only [hsend]
      exact h.wakeup hi htarget
    | none =>
      obtain ⟨rfl, hall⟩ := h.waking i m _ hi
      refine .of_waking (update_self ..)
        (one_update fun j hj => h.one j i hj (by rw [hi]; nofun)) h.reading fun l => ?_
      refine (hall l).imp_right fun hl => hl.imp_right fun hdue => ⟨?_, hdue.2⟩
      obtain ⟨r', hr', ht⟩ := hdue.1
      rcases List.mem_cons.1 hr' with rfl | hr'
      · rw [htarget] at ht
        cases ht
      · exact ⟨r', hr', ht⟩
  · rename_i m hi
    cases hs
    obtain ⟨rfl, hall⟩ := h.waking i m _ hi
    refine .of_idle (fun j => ?_) h.reading fun l => ?_
    · by_contra hj
      have hji := one_update (fun j hj => h.one j i hj (by rw [hi]; nofun)) j hj
      rw [hji] at hj
      exact hj (update_self ..)
    · refine (hall l).imp_right fun hl => hl.resolve_right ?_
      rintro ⟨⟨r, hr, -⟩, -⟩
      cases hr
  · cases hs

omit [DecidableEq ι] in
theorem Inv.listener {s : Cast ι κ} (h : s.Inv reg) (l₀ : κ) (pc : ListenPc) (got : List Msg)
    (hpc : pc.IsReading → (s.listen l₀).IsReading)
    (hreads : ∀ k part, pc = .reading k part →
      (∀ j : Fin 8, (j : ℕ) < k → part j = s.mean_buffer j) ∧
        (s.sent l₀).Sublist (got ++ [s.mean_buffer]))
    (hgot : (s.sent l₀).Sublist got ∨ pc.IsReading) :
    Inv reg { s with
      listen := update s.listen l₀ pc, got := update s.got l₀ got } := by
  have hreading : ∀ l k part, update s.listen l₀ pc l = .reading k part →
      (∀ j : Fin 8, (j : ℕ) < k → part j = s.mean_buffer j) ∧
        (s.sent l).Sublist (update s.got l₀ got l ++ [s.mean_buffer]) := by
    intro l k part hl
    by_cases hll : l = l₀
    · subst hll
      rw [update_self] at hl ⊢
      exact hreads k part hl
    · rw [update_of_ne hll] at hl ⊢
      exact h.reading l k part hl
  -- What another listener has read and is due is as before, and nothing is due to this one.
  have hall : ∀ l m rs, (s.sent l).Sublist (s.got l) ∨ (s.listen l).IsReading ∨ s.Due reg l m rs →
      (s.sent l).Sublist (update s.got l₀ got l) ∨
        (update s.listen l₀ pc l).IsReading ∨
        Due reg { s with
          listen := update s.listen l₀ pc
          got := update s.got l₀ got } l m rs := by
    intro l m rs hl
    by_cases hll : l = l₀
    · subst hll
      rw [update_self, update_self]
      exact hgot.imp_right .inl
    · simp only [Due, update_of_ne hll]
      exact hl
  by_cases hidle : ∀ i, s.send i = .idle
  · refine .of_idle hidle hreading fun l => ?_
    by_cases hll : l = l₀
    · subst hll
      simp only [update_self]
      exact hgot
    · simp only [update_of_ne hll]
      exact h.idle hidle l
  · obtain ⟨i, hi⟩ := not_forall.1 hidle
    have hone : ∀ j, s.send j ≠ .idle → j = i := fun j hj => h.one j i hj hi
    cases hsend : s.send i with
    | idle => exact absurd hsend hi
    | copying m recs k =>
      obtain ⟨hbuf, hread, hdue⟩ := h.copying i m recs k hsend
      have hread' : ∀ l, ¬ (update s.listen l₀ pc l).IsReading := by
        intro l hl
        by_cases hll : l = l₀
        · subst hll
          rw [update_self] at hl
          exact hread l (hpc hl)
        · rw [update_of_ne hll] at hl
          exact hread l hl
      refine .of_copying hsend hone hbuf hread' fun l => ?_
      exact (hall l m recs ((hdue l).imp_right .inr)).imp_right fun hl => hl.resolve_left (hread' l)
    | waking m rs =>
      obtain ⟨rfl, hdue⟩ := h.waking i m rs hsend
      exact .of_waking hsend hone hreading fun l => hall l _ rs (hdue l)

omit [DecidableEq ι] [DecidableEq κ] in
theorem Inv.settled {s : Cast ι κ} {l : κ} (h : s.Inv reg) (hl : s.listen l = .awake) :
    (s.sent l).Sublist (s.got l) := by
  have hread : ¬ (s.listen l).IsReading := by
    rw [hl]
    exact id
  have hdue : ∀ m rs, ¬ s.Due reg l m rs := by
    rintro m rs ⟨-, hasleep, -⟩
    rw [hl] at hasleep
    cases hasleep
  by_cases hidle : ∀ i, s.send i = .idle
  · exact (h.idle hidle l).resolve_right hread
  · obtain ⟨i, hi⟩ := not_forall.1 hidle
    cases hsend : s.send i with
    | idle => exact absurd hsend hi
    | copying m recs k => exact ((h.copying i m recs k hsend).2.2 l).resolve_right (hdue m recs)
    | waking m rs =>
      exact (((h.waking i m rs hsend).2 l).resolve_right fun hl =>
        (hl.resolve_left hread).elim fun ht hrest => hdue m rs ⟨ht, hrest⟩)

theorem Inv.step {s s' : Cast ι κ} {a : CastAct ι κ} (h : s.Inv reg) (hC : s.Alone reg a)
    (hs : s.step reg a s') : s'.Inv reg := by
  cases a with
  | call i m recs =>
    simp only [Cast.step, exec] at hs
    split at hs
    · cases hs
      exact h.call hC
    · cases hs
  | copy i => exact h.copy hs
  | wake i => exact h.wake hs
  | sleep l =>
    simp only [Cast.step, exec] at hs
    split at hs
    · rename_i hl
      cases hs
      have hinv := h.listener l .asleep (s.got l)
        (fun hr => hr.elim) (fun k part hpc => by cases hpc) (.inl (h.settled hl))
      rwa [update_eq_self] at hinv
    · cases hs
  | read l =>
    simp only [Cast.step, exec] at hs
    split at hs
    · rename_i k part hl
      have hreading : (s.listen l).IsReading := by
        rw [hl]
        trivial
      obtain ⟨hpart, hsent⟩ := h.reading l k part hl
      split at hs
      · rename_i hk
        cases hs
        have hinv := h.listener l
          (.reading (k + 1) (update part ⟨k, hk⟩ (s.mean_buffer ⟨k, hk⟩))) (s.got l)
          (fun _ => hreading) (fun k' part' hpc => ?_) (.inr trivial)
        · rwa [update_eq_self] at hinv
        · obtain ⟨rfl, rfl⟩ := ListenPc.reading.inj hpc
          refine ⟨fun j hj => ?_, hsent⟩
          by_cases hjeq : j = ⟨k, hk⟩
          · rw [hjeq, update_self]
          · rw [update_of_ne hjeq]
            exact hpart j (lt_of_le_of_ne (Nat.lt_succ_iff.1 hj) fun heq => hjeq (Fin.ext heq))
      · rename_i hk
        cases hs
        obtain rfl : part = s.mean_buffer := funext fun j => hpart j (by omega)
        exact h.listener l _ _ (fun hr => hr.elim) (fun k part hpc => by cases hpc) (.inl hsent)
    · cases hs

/-- For any number of senders and listeners and any interleaving: if every call of `send_multi` is
made alone, then in every state in which the calls have returned, every listener that has nothing
left to read has read all messages that were sent to its recipients. -/
theorem delivered_of_alone {s₀ : Cast ι κ} (h0 : s₀.Idle) {π : List (CastAct ι κ × Cast ι κ)}
    (h : IsRun (step reg) s₀ π) (hC : Meets (Alone reg) s₀ π) :
    Along (fun π => (last s₀ π).Delivered) π :=
  (h.along_of_meets (P := fun π => (last s₀ π).Inv reg) h0.inv
    (fun _ _ _ hinv hCe hs => hinv.step hCe hs) hC).mono fun _ hinv => hinv.delivered

def start : Cast Bool Unit := ⟨fun _ => 0, fun _ => .idle, fun _ => .awake, fun _ => [], fun _ => []⟩

theorem start_idle : start.Idle := ⟨fun _ => rfl, fun _ => id, fun _ => rfl⟩

def oneListener : List (ℤ × Unit) := [(1, ())]

def nine (a : CastAct Bool Unit) : List (CastAct Bool Unit) := List.replicate 9 a

def sendTo (i : Bool) (m : Msg) (r : ℤ) : List (CastAct Bool Unit) :=
  [.call i m [r]] ++ nine (.copy i) ++ [.wake i, .wake i]

/-- A message is sent to a listener that sleeps. -/
theorem delivered_of_alone_once :
    ∃ π, (last start π).got () = [fun _ => 7] ∧ IsRun (step oneListener) start π ∧
      Meets (Alone oneListener) start π ∧ Along (fun π => (last start π).Delivered) π := by
  have heval : (history (tick (exec oneListener)) start []
      ([.sleep ()] ++ sendTo true (fun _ => 7) 1 ++ nine (.read ()))).map
        (fun π => ((last start π).got (), decide (Meets (Alone oneListener) start π))) =
      some ([fun _ => 7], true) := by decide +kernel
  obtain ⟨π, hrun, heq⟩ := exists_run_tick heval
  obtain ⟨hgot, halone⟩ := Prod.mk.inj heq
  have hmeets := of_decide_eq_true halone
  exact ⟨π, hgot, hrun, hmeets, delivered_of_alone start_idle hrun hmeets⟩

/-- A message that comes before the listener sleeps is not read by it. And a second message, to
another recipient, that comes before the listener has run is read in place of the first. -/
theorem messages_lost :
    (∃ π, IsRun (step oneListener) start π ∧ (last start π).sent () = [fun _ => 7] ∧
      (last start π).got () = [] ∧ ¬ (last start π).Delivered) ∧
    ∃ π, IsRun (step oneListener) start π ∧ (last start π).sent () = [fun _ => 7] ∧
      (last start π).got () = [fun _ => 8] ∧ ¬ (last start π).Delivered := by
  have hlost : ∀ s : Cast Bool Unit, (∀ i, s.send i = .idle) ∧ ¬ (s.listen ()).IsReading →
      ¬ (s.sent ()).Sublist (s.got ()) → ¬ s.Delivered :=
    fun s hs hsub h => hsub (h hs.1 () hs.2)
  refine ⟨?_, ?_⟩
  · have heval : (history (tick (exec oneListener)) start []
        (sendTo true (fun _ => 7) 1 ++ [.sleep ()])).map (fun π =>
          ((last start π).sent (), (last start π).got (),
            decide ((∀ i, (last start π).send i = .idle) ∧
              ¬ ((last start π).listen ()).IsReading))) =
        some ([fun _ => 7], [], true) := by decide +kernel
    obtain ⟨π, hrun, heq⟩ := exists_run_tick heval
    obtain ⟨hsent, hrest⟩ := Prod.mk.inj heq
    obtain ⟨hgot, hquiet⟩ := Prod.mk.inj hrest
    refine ⟨π, hrun, hsent, hgot, hlost _ (of_decide_eq_true hquiet) ?_⟩
    rw [hsent, hgot]
    decide
  · have heval : (history (tick (exec oneListener)) start []
        ([.sleep ()] ++ sendTo true (fun _ => 7) 1 ++ sendTo false (fun _ => 8) 2 ++
          nine (.read ()))).map (fun π =>
          ((last start π).sent (), (last start π).got (),
            decide ((∀ i, (last start π).send i = .idle) ∧
              ¬ ((last start π).listen ()).IsReading))) =
        some ([fun _ => 7], [fun _ => 8], true) := by decide +kernel
    obtain ⟨π, hrun, heq⟩ := exists_run_tick heval
    obtain ⟨hsent, hrest⟩ := Prod.mk.inj heq
    obtain ⟨hgot, hquiet⟩ := Prod.mk.inj hrest
    refine ⟨π, hrun, hsent, hgot, hlost _ (of_decide_eq_true hquiet) ?_⟩
    rw [hsent, hgot]
    decide

end Cast

end Xv6
