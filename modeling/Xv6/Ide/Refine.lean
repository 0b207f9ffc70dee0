import Xv6.Ide.Machine
import Mathlib.Data.Fintype.Card

/-!
# The queueing driver refines the synchronous one

What `ide.c` still has to do is in its queue. `drained` does it: it carries out all queued requests,
in order, as `memide.c` would. A step of `ide.c` that adds a request to the queue is `iderw` of
`memide.c` on the drained state, and a step of the drive or an interrupt leaves that state alone, so
that the drained state is at all times that of `memide.c`.

The drive is at work for the first buffer in the queue whenever there is one, so each request is
started once, after the one before it is done; the buffers in the queue are distinct because each is
locked by a process that waits for it.
-/

namespace Xv6

open Function Run

namespace Memide

variable {n : ℕ} {ι δ : Type} {m : Memide n ι δ} {b c : Fin n} {q : List (Fin n)}

def setBuf (m : Memide n ι δ) (b : Fin n) (x : DiskBuf δ) : Memide n ι δ :=
  { m with buf := update m.buf b x }

def setLock (m : Memide n ι δ) (b : Fin n) (x : Option ι) : Memide n ι δ :=
  { m with lock := update m.lock b x }

/-! ## Requests carried out in memory -/

theorem iderw_eq [DecidableEq ι] {i : ι} (hlock : m.lock b = some i) (hdone : (m.buf b).done = false)
    (hdev : (m.buf b).dev = 1) (hblock : (m.buf b).blockno < m.disksize) :
    m.iderw i b = .ok (m.perform b) := by
  rw [iderw, if_neg (not_not.2 hlock), hdone, if_neg Bool.false_ne_true, if_neg (not_not.2 hdev),
    if_neg (Nat.not_le.2 hblock)]

theorem perform_setLock (m : Memide n ι δ) (b c : Fin n) (x : Option ι) :
    (m.setLock c x).perform b = (m.perform b).setLock c x := by
  unfold perform setLock
  split
  · rfl
  · rfl

theorem perform_setBuf (h : b ≠ c) (x : DiskBuf δ) :
    (m.setBuf c x).perform b = (m.perform b).setBuf c x := by
  have hb : (m.setBuf c x).buf b = m.buf b := update_of_ne h _ _
  unfold perform
  rw [hb]
  split
  all_goals
    unfold setBuf
    dsimp only
    rw [update_comm h]

theorem perform_buf_of_ne (h : c ≠ b) : (m.perform b).buf c = m.buf c := by
  unfold perform
  split
  all_goals exact update_of_ne h _ _

theorem perform_lock : (m.perform b).lock = m.lock ∧ (m.perform b).disksize = m.disksize := by
  unfold perform
  split
  all_goals exact ⟨rfl, rfl⟩

theorem foldl_setLock (q : List (Fin n)) (m : Memide n ι δ) (c : Fin n) (x : Option ι) :
    q.foldl perform (m.setLock c x) = (q.foldl perform m).setLock c x := by
  induction q generalizing m with
  | nil => rfl
  | cons b q ih => rw [List.foldl_cons, perform_setLock, ih, List.foldl_cons]

theorem foldl_setBuf (hc : c ∉ q) (m : Memide n ι δ) (x : DiskBuf δ) :
    q.foldl perform (m.setBuf c x) = (q.foldl perform m).setBuf c x := by
  induction q generalizing m with
  | nil => rfl
  | cons b q ih =>
    rw [List.mem_cons, not_or] at hc
    rw [List.foldl_cons, perform_setBuf (Ne.symm hc.1), ih hc.2, List.foldl_cons]

theorem foldl_same (hc : c ∉ q) (m : Memide n ι δ) :
    (q.foldl perform m).buf c = m.buf c ∧ (q.foldl perform m).lock = m.lock ∧
      (q.foldl perform m).disksize = m.disksize := by
  induction q generalizing m with
  | nil => exact ⟨rfl, rfl, rfl⟩
  | cons b q ih =>
    rw [List.mem_cons, not_or] at hc
    obtain ⟨hbuf, hlock, hsize⟩ := ih hc.2 (m.perform b)
    rw [List.foldl_cons]
    exact ⟨hbuf.trans (perform_buf_of_ne hc.1), hlock.trans perform_lock.1,
      hsize.trans perform_lock.2⟩

end Memide

namespace Ide

variable {n : ℕ} {ι δ : Type} {D : ℕ} {s₀ s s' : Ide n ι δ} {q : List (Fin n)}

def memory (D : ℕ) (s : Ide n ι δ) : Memide n ι δ := ⟨D, s.disk 1, s.buf, s.lock⟩

def drained (D : ℕ) (s : Ide n ι δ) : Memide n ι δ := s.queued.foldl Memide.perform (s.memory D)

def Fits (D : ℕ) (x : DiskBuf δ) : Prop := x.dev = 1 ∧ x.blockno < FSSIZE ∧ x.blockno < D

def Valid (D : ℕ) (s : Ide n ι δ) (e : IdeEvent n ι δ × IdeSaw n ι δ) : Prop :=
  ∀ i b, e.1 = .call i b → s.lock b = some i ∧ (s.buf b).done = false ∧ Fits D (s.buf b)

/-- Nothing is queued, and nobody is in `iderw`. -/
structure Quiet (s : Ide n ι δ) : Prop where
  panicked : s.panicked = none
  havedisk1 : s.havedisk1 = true
  link : s.link none = none
  drive : s.drive = .idle
  place : ∀ i, s.place i = .user

def Working (s : Ide n ι δ) : List (Fin n) → Prop
  | [] => s.drive = .idle
  | b :: _ => s.drive = .busy (s.buf b).transfer ∨
      ∃ data, s.drive = .raised data ∧
        ((s.buf b).dirty = true → s.disk 1 (s.buf b).blockno = (s.buf b).data) ∧
        ((s.buf b).dirty = false → data = some (s.disk 1 (s.buf b).blockno))

/-- The driver with the queue `q`. -/
structure Ok (D : ℕ) (s : Ide n ι δ) (q : List (Fin n)) : Prop where
  panicked : s.panicked = none
  havedisk1 : s.havedisk1 = true
  chain : Chain.IsChain s.link none q
  nodup : q.Nodup
  working : s.Working q
  request : ∀ b ∈ q, Fits D (s.buf b) ∧ (s.buf b).done = false
  owner : ∀ b ∈ q, ∃ i, s.lock b = some i ∧ (s.place i).buf = some b
  locked : ∀ i b, (s.place i).buf = some b → s.lock b = some i
  enter : ∀ i b, s.place i = .enter b → b ∉ q ∧ Fits D (s.buf b) ∧ (s.buf b).done = false
  asleep : ∀ i b, s.place i = .asleep b → b ∈ q
  woken : ∀ i b, s.place i = .woken b → b ∈ q ∨ (s.buf b).done = true

theorem queued_eq (h : Chain.IsChain s.link none q) (hnodup : q.Nodup) : s.queued = q :=
  h.nodes_eq (hnodup.length_le_card.trans_eq (Fintype.card_fin n))

theorem Ok.queued (h : s.Ok D q) : s.queued = q := queued_eq h.chain h.nodup

theorem Quiet.ok (h : s.Quiet) : s.Ok D [] := by
  refine ⟨h.panicked, h.havedisk1, h.link, List.nodup_nil, h.drive, ?_, ?_, ?_, ?_, ?_, ?_⟩
  · intro b hb
    cases hb
  · intro b hb
    cases hb
  all_goals
    intro i b hi
    rw [h.place i] at hi
    cases hi

/-! ## Steps of the processes -/

theorem Ok.congr (h : s.Ok D q) (hp : s'.panicked = s.panicked) (hd : s'.havedisk1 = s.havedisk1)
    (hl : s'.link = s.link) (hdrive : s'.drive = s.drive) (hdisk : s'.disk = s.disk)
    (hbuf : ∀ b ∈ q, s'.buf b = s.buf b)
    (howner : ∀ b ∈ q, ∃ i, s'.lock b = some i ∧ (s'.place i).buf = some b)
    (hlocked : ∀ i b, (s'.place i).buf = some b → s'.lock b = some i)
    (henter : ∀ i b, s'.place i = .enter b → b ∉ q ∧ Fits D (s'.buf b) ∧ (s'.buf b).done = false)
    (hasleep : ∀ i b, s'.place i = .asleep b → b ∈ q)
    (hwoken : ∀ i b, s'.place i = .woken b → b ∈ q ∨ (s'.buf b).done = true) : s'.Ok D q := by
  refine ⟨hp.trans h.panicked, hd.trans h.havedisk1, by rw [hl]; exact h.chain, h.nodup, ?_, ?_,
    howner, hlocked, henter, hasleep, hwoken⟩
  · have hworking := h.working
    cases q with
    | nil => exact hdrive.trans hworking
    | cons b q =>
      rw [Working] at hworking ⊢
      rwa [hdrive, hdisk, hbuf b List.mem_cons_self]
  · intro b hb
    rw [hbuf b hb]
    exact h.request b hb

theorem Ok.lock (h : s.Ok D q) {i : ι} {b : Fin n} (hb : s.lock b = none) :
    ({ s with lock := update s.lock b (some i) } : Ide n ι δ).Ok D q := by
  have hne : ∀ {c j}, s.lock c = some j → update s.lock b (some i) c = some j := by
    intro c j hc
    rw [update_of_ne, hc]
    rintro rfl
    rw [hb] at hc
    cases hc
  refine h.congr rfl rfl rfl rfl rfl (fun _ _ => rfl) ?_ ?_ h.enter h.asleep h.woken
  · intro c hc
    obtain ⟨j, hj, hplace⟩ := h.owner c hc
    exact ⟨j, hne hj, hplace⟩
  · intro j c hc
    exact hne (h.locked j c hc)

theorem Ok.unlock (h : s.Ok D q) {i : ι} {b : Fin n} (hi : s.place i = .user)
    (hb : s.lock b = some i) :
    ({ s with lock := update s.lock b none } : Ide n ι δ).Ok D q := by
  have hne : ∀ {c j}, (s.place j).buf = some c → s.lock c = some j →
      update s.lock b none c = some j := by
    intro c j hj hc
    rw [update_of_ne, hc]
    rintro rfl
    cases hc.symm.trans hb
    rw [hi] at hj
    cases hj
  refine h.congr rfl rfl rfl rfl rfl (fun _ _ => rfl) ?_ ?_ h.enter h.asleep h.woken
  · intro c hc
    obtain ⟨j, hj, hplace⟩ := h.owner c hc
    exact ⟨j, hne hplace hj, hplace⟩
  · intro j c hc
    exact hne hc (h.locked j c hc)

theorem Ok.not_used (h : s.Ok D q) {b : Fin n} (hb : (s.lock b).all (fun i => s.place i = .user)) :
    b ∉ q ∧ ∀ i, (s.place i).buf ≠ some b := by
  have hused : ∀ i, (s.place i).buf ≠ some b := by
    intro i hi
    rw [h.locked i b hi] at hb
    have hplace : s.place i = .user := of_decide_eq_true hb
    rw [hplace] at hi
    cases hi
  refine ⟨fun hmem => ?_, hused⟩
  obtain ⟨i, -, hplace⟩ := h.owner b hmem
  exact hused i hplace

theorem Ok.fill (h : s.Ok D q) {b : Fin n} (hb : b ∉ q) (hplace : ∀ i, (s.place i).buf ≠ some b)
    (x : DiskBuf δ) : ({ s with buf := update s.buf b x } : Ide n ι δ).Ok D q := by
  have hne : ∀ {i c}, (s.place i).buf = some c → update s.buf b x c = s.buf c := by
    intro i c hc
    refine update_of_ne ?_ _ _
    rintro rfl
    exact hplace i hc
  refine h.congr rfl rfl rfl rfl rfl ?_ h.owner h.locked ?_ h.asleep ?_
  · intro c hc
    refine update_of_ne ?_ _ _
    rintro rfl
    exact hb hc
  · intro i c hi
    show c ∉ q ∧ Fits D (update s.buf b x c) ∧ (update s.buf b x c).done = false
    rw [hne (show (s.place i).buf = some c by rw [hi]; rfl)]
    exact h.enter i c hi
  · intro i c hi
    show c ∈ q ∨ (update s.buf b x c).done = true
    rw [hne (show (s.place i).buf = some c by rw [hi]; rfl)]
    exact h.woken i c hi

section Processes

variable [DecidableEq ι]

theorem Ok.move (h : s.Ok D q) {i : ι} {a : IdeAt n}
    (howner : ∀ b ∈ q, (s.place i).buf = some b → a.buf = some b)
    (hlocked : ∀ b, a.buf = some b → s.lock b = some i)
    (henter : ∀ b, a = .enter b → b ∉ q ∧ Fits D (s.buf b) ∧ (s.buf b).done = false)
    (hasleep : ∀ b, a = .asleep b → b ∈ q)
    (hwoken : ∀ b, a = .woken b → b ∈ q ∨ (s.buf b).done = true) :
    ({ s with place := update s.place i a } : Ide n ι δ).Ok D q := by
  refine h.congr rfl rfl rfl rfl rfl (fun _ _ => rfl) ?_ ?_ ?_ ?_ ?_
  · intro b hb
    obtain ⟨j, hj, hbuf⟩ := h.owner b hb
    refine ⟨j, hj, ?_⟩
    show (update s.place i a j).buf = some b
    by_cases hji : j = i
    · subst hji
      rw [update_self]
      exact howner b hb hbuf
    · rwa [update_of_ne hji]
  · exact (forall_update_iff s.place fun j x => ∀ b, x.buf = some b → s.lock b = some j).2
      ⟨hlocked, fun j _ => h.locked j⟩
  · exact (forall_update_iff s.place fun _ x => ∀ b, x = .enter b → b ∉ q ∧
      Fits D (s.buf b) ∧ (s.buf b).done = false).2 ⟨henter, fun j _ => h.enter j⟩
  · exact (forall_update_iff s.place fun _ x => ∀ b, x = .asleep b → b ∈ q).2
      ⟨hasleep, fun j _ => h.asleep j⟩
  · exact (forall_update_iff s.place fun _ x => ∀ b, x = .woken b → b ∈ q ∨
      (s.buf b).done = true).2 ⟨hwoken, fun j _ => h.woken j⟩

theorem Ok.kill (h : s.Ok D q) (i : ι) :
    ({ s with place := update s.place i (s.place i).rouse } : Ide n ι δ).Ok D q := by
  refine h.move ?_ ?_ ?_ ?_ ?_
  · intro b _ hb
    rwa [IdeAt.buf_rouse]
  · intro b hb
    rw [IdeAt.buf_rouse] at hb
    exact h.locked i b hb
  · intro b hb
    exact h.enter i b (IdeAt.eq_enter_of_rouse hb)
  · intro b hb
    exact absurd hb IdeAt.rouse_ne_asleep
  · intro b hb
    rcases IdeAt.of_rouse_eq_woken hb with hasleep | hwoken
    · exact .inl (h.asleep i b hasleep)
    · exact h.woken i b hwoken

theorem Ok.iderw (h : s.Ok D q) {i : ι} {b : Fin n} (hi : s.place i = .user)
    (hb : s.lock b = some i) (hdone : (s.buf b).done = false) (hfits : Fits D (s.buf b)) :
    s.iderw i b = { s with place := update s.place i (.enter b) } ∧
      (s.iderw i b).Ok D q := by
  have heq : s.iderw i b = { s with place := update s.place i (.enter b) } := by
    simp [Ide.iderw, hb, hdone, h.havedisk1]
  have hq : b ∉ q := by
    intro hmem
    obtain ⟨j, hj, hplace⟩ := h.owner b hmem
    cases hb.symm.trans hj
    rw [hi] at hplace
    cases hplace
  refine ⟨heq, ?_⟩
  rw [heq]
  refine h.move ?_ ?_ ?_ ?_ ?_
  · intro c _ hc
    rw [hi] at hc
    cases hc
  · rintro c ⟨⟩
    exact hb
  · rintro c ⟨⟩
    exact ⟨hq, hfits, hdone⟩
  · rintro c ⟨⟩
  · rintro c ⟨⟩

theorem Ok.wait (h : s.Ok D q) {i : ι} {b : Fin n} (hi : s.place i = .woken b) :
    (s.wait i b).Ok D q := by
  have hbuf : (s.place i).buf = some b := by
    rw [hi]
    rfl
  unfold Ide.wait
  split
  · rename_i hdone
    refine h.move ?_ ?_ ?_ ?_ ?_
    · intro c hc heq
      cases hbuf.symm.trans heq
      rw [(h.request b hc).2] at hdone
      cases hdone
    all_goals
      rintro c ⟨⟩
  · rename_i hdone
    refine h.move ?_ ?_ ?_ ?_ ?_
    · intro c _ heq
      exact hbuf.symm.trans heq
    · rintro c ⟨⟩
      exact h.locked i b hbuf
    · rintro c ⟨⟩
    · rintro c ⟨⟩
      exact (h.woken i b hi).resolve_right hdone
    · rintro c ⟨⟩

end Processes

/-! ## The queue -/

theorem idestart_eq {b : Fin n} (hb : (s.buf b).blockno < FSSIZE) (hdrive : s.drive = .idle) :
    s.idestart b = { s with drive := .busy (s.buf b).transfer } := by
  rw [idestart, if_neg (Nat.not_le.2 hb), hdrive]

theorem Ok.append (h : s.Ok D q) {b : Fin n} (hb : b ∉ q) :
    ∃ link, s.append b = { s with link := link } ∧ Chain.IsChain link none (q ++ [b]) := by
  have hfuel : q.length < n + 1 := by
    have hlen := h.nodup.length_le_card
    rw [Fintype.card_fin] at hlen
    omega
  have hchain : Chain.IsChain (update s.link (some b) none) none q := by
    refine h.chain.congr (update_of_ne (by simp) _ _) fun c hc => ?_
    refine update_of_ne ?_ _ _
    rintro ⟨⟩
    exact hb hc
  refine ⟨_, ?_, hchain.append ?_ (update_self ..) (by simp) hb⟩
  · rw [Ide.append, hchain.lastCell_eq hfuel]
  · refine List.nodup_cons.2 ⟨?_, h.nodup.map (Option.some_injective _)⟩
    simp

theorem Ok.queue (h : s.Ok D q) {b : Fin n} (hb : b ∉ q) (hfits : Fits D (s.buf b)) :
    ∃ link drive, s.queue b = { s with link := link, drive := drive } ∧
      Chain.IsChain link none (q ++ [b]) ∧
      (q = [] ∧ drive = .busy (s.buf b).transfer ∨ q ≠ [] ∧ drive = s.drive) := by
  obtain ⟨link, happend, hchain⟩ := h.append hb
  have hworking := h.working
  rw [Ide.queue, happend]
  cases q with
  | nil =>
    refine ⟨link, _, ?_, hchain, .inl ⟨rfl, rfl⟩⟩
    rw [if_pos hchain.1]
    exact idestart_eq hfits.2.1 hworking
  | cons c q =>
    refine ⟨link, s.drive, if_neg ?_, hchain, .inr ⟨List.cons_ne_nil c q, rfl⟩⟩
    intro heq
    have hc : some c = some b := hchain.1.symm.trans heq
    exact hb (by rw [Option.some.inj hc]; exact List.mem_cons_self)

theorem Ok.queue_wait [DecidableEq ι] (h : s.Ok D q) {i : ι} {b : Fin n}
    (hi : s.place i = .enter b) : ((s.queue b).wait i b).Ok D (q ++ [b]) := by
  obtain ⟨hb, hfits, hdone⟩ := h.enter i b hi
  have hlock : s.lock b = some i := h.locked i b (by rw [hi]; rfl)
  obtain ⟨link, drive, heq, hchain, hdrive⟩ := h.queue hb hfits
  rw [heq, Ide.wait, if_neg (by rw [hdone]; exact Bool.false_ne_true)]
  refine ⟨h.panicked, h.havedisk1, hchain, ?_, ?_, ?_, ?_, ?_, ?_, ?_, ?_⟩
  · exact List.nodup_append.2 ⟨h.nodup, List.nodup_singleton b,
      fun c hc d hd => fun hcd => hb (by rwa [← List.mem_singleton.1 hd, ← hcd])⟩
  · have hworking := h.working
    obtain ⟨rfl, rfl⟩ | ⟨hq, rfl⟩ := hdrive
    · exact .inl rfl
    · cases q with
      | nil => exact absurd rfl hq
      | cons c q => exact hworking
  · intro c hc
    rcases List.mem_append.1 hc with hc | hc
    · exact h.request c hc
    · rw [List.mem_singleton.1 hc]
      exact ⟨hfits, hdone⟩
  · intro c hc
    rcases List.mem_append.1 hc with hc | hc
    · obtain ⟨j, hj, hplace⟩ := h.owner c hc
      refine ⟨j, hj, ?_⟩
      show (update s.place i (.asleep b) j).buf = some c
      rw [update_of_ne, hplace]
      rintro rfl
      rw [hi] at hplace
      cases hplace
      exact hb hc
    · rw [List.mem_singleton.1 hc]
      refine ⟨i, hlock, ?_⟩
      show (update s.place i (.asleep b) i).buf = some b
      rw [update_self]
      rfl
  · refine (forall_update_iff s.place fun j x => ∀ c, x.buf = some c →
      s.lock c = some j).2 ⟨?_, fun j _ => h.locked j⟩
    rintro c ⟨⟩
    exact hlock
  · refine (forall_update_iff s.place fun _ x => ∀ c, x = .enter c → c ∉ q ++ [b] ∧
      Fits D (s.buf c) ∧ (s.buf c).done = false).2 ⟨fun c hc => (nomatch hc), fun j hj c hc => ?_⟩
    obtain ⟨hcq, hcfits, hcdone⟩ := h.enter j c hc
    refine ⟨fun hmem => ?_, hcfits, hcdone⟩
    rcases List.mem_append.1 hmem with hmem | hmem
    · exact hcq hmem
    · -- Two processes that wait for one buffer would both hold its lock.
      obtain rfl := List.mem_singleton.1 hmem
      have hlock' := h.locked j c (by rw [hc]; rfl)
      exact hj (Option.some.inj (hlock'.symm.trans hlock))
  · refine (forall_update_iff s.place fun _ x => ∀ c, x = .asleep c → c ∈ q ++ [b]).2
      ⟨?_, fun j _ c hc => List.mem_append_left _ (h.asleep j c hc)⟩
    rintro c ⟨⟩
    exact List.mem_append_right _ (List.mem_singleton_self b)
  · refine (forall_update_iff s.place fun _ x => ∀ c, x = .woken c → c ∈ q ++ [b] ∨
      (s.buf c).done = true).2 ⟨fun c hc => (nomatch hc), fun j _ c hc => ?_⟩
    exact (h.woken j c hc).imp_left (List.mem_append_left _)

/-! ## The drive -/

theorem Ok.drive (h : s.Ok D q) {drive : Drive δ} {disk : ℕ → ℕ → δ}
    (hworking : ({ s with drive := drive, disk := disk } : Ide n ι δ).Working q) :
    ({ s with drive := drive, disk := disk } : Ide n ι δ).Ok D q :=
  ⟨h.panicked, h.havedisk1, h.chain, h.nodup, hworking, h.request, h.owner, h.locked, h.enter,
    h.asleep, h.woken⟩

theorem Ok.complete (h : s.Ok D q) {t : Transfer δ} (ht : s.drive = .busy t) :
    (∃ b l data, q = b :: l ∧ t = (s.buf b).transfer ∧ (s.complete t).drive = .raised data) ∧
      (s.complete t).Ok D q ∧
      q.foldl Memide.perform ((s.complete t).memory D) = q.foldl Memide.perform (s.memory D) := by
  have hworking := h.working
  cases q with
  | nil =>
    rw [Working, ht] at hworking
    cases hworking
  | cons b l =>
    have hbt : t = (s.buf b).transfer := by
      rcases hworking with hbusy | ⟨data, hraised, -⟩
      · rw [ht] at hbusy
        exact Drive.busy.inj hbusy
      · rw [ht] at hraised
        cases hraised
    obtain ⟨hdev, -, -⟩ := (h.request b List.mem_cons_self).1
    have hdisk : t.disk = 1 := by
      rw [hbt, DiskBuf.transfer, hdev]
    have hsector : t.sector = (s.buf b).blockno := by
      rw [hbt, DiskBuf.transfer]
    cases hdirty : (s.buf b).dirty with
    | true =>
      have hwrite : t.write = some (s.buf b).data := by
        rw [hbt, DiskBuf.transfer, hdirty, if_pos rfl]
      have heq : s.complete t = { s with
          disk := update s.disk 1
            (update (s.disk 1) (s.buf b).blockno (s.buf b).data)
          drive := .raised none } := by
        rw [Ide.complete, hwrite, hdisk, hsector]
      rw [heq]
      refine ⟨⟨b, l, none, rfl, hbt, rfl⟩, h.drive (.inr ⟨none, rfl, fun _ => ?_, fun hclean => ?_⟩),
        ?_⟩
      · show update s.disk 1
          (update (s.disk 1) (s.buf b).blockno (s.buf b).data) 1 (s.buf b).blockno =
            (s.buf b).data
        rw [update_self, update_self]
      · rw [hdirty] at hclean
        cases hclean
      · -- The block is written twice, with the same contents.
        rw [List.foldl_cons, List.foldl_cons]
        congr 1
        simp [Memide.perform, memory, hdirty]
    | false =>
      have hwrite : t.write = none := by
        rw [hbt, DiskBuf.transfer, hdirty, if_neg Bool.false_ne_true]
      have heq : s.complete t =
          { s with drive := .raised (some (s.disk 1 (s.buf b).blockno)) } := by
        rw [Ide.complete, hwrite, hdisk, hsector]
      rw [heq]
      refine ⟨⟨b, l, _, rfl, hbt, rfl⟩, h.drive (.inr ⟨_, rfl, fun hclean => ?_, fun _ => rfl⟩), rfl⟩
      rw [hdirty] at hclean
      cases hclean

def finished (s : Ide n ι δ) (b : Fin n) (data : Option δ) : Ide n ι δ :=
  { s with
    drive := .idle
    link := update s.link none (s.link (some b))
    buf := update s.buf b ((s.buf b).finish data)
    place := fun j => (s.place j).wake b }

theorem finished_buf {b c : Fin n} (h : c ≠ b) (data : Option δ) :
    (s.finished b data).buf c = s.buf c := update_of_ne h _ _

theorem Ok.ne_of_mem {b c : Fin n} {l : List (Fin n)} (h : s.Ok D (b :: l)) (hc : c ∈ l) :
    c ≠ b := by
  rintro rfl
  exact (List.nodup_cons.1 h.nodup).1 hc

theorem Ok.memory_finished {b : Fin n} {l : List (Fin n)} (h : s.Ok D (b :: l)) {data : Option δ}
    (hdata : s.drive = .raised data) :
    (s.finished b data).memory D = (s.memory D).perform b := by
  obtain ⟨data', hdata', hdirty, hclean⟩ : ∃ data', s.drive = .raised data' ∧
      ((s.buf b).dirty = true → s.disk 1 (s.buf b).blockno = (s.buf b).data) ∧
      ((s.buf b).dirty = false → data' = some (s.disk 1 (s.buf b).blockno)) := by
    refine h.working.resolve_left fun hbusy => ?_
    rw [hdata] at hbusy
    cases hbusy
  obtain rfl := Drive.raised.inj (hdata.symm.trans hdata')
  cases hd : (s.buf b).dirty with
  | true =>
    have hblock : update (s.disk 1) (s.buf b).blockno (s.buf b).data = s.disk 1 := by
      rw [← hdirty hd, update_eq_self]
    simp [finished, memory, Memide.perform, DiskBuf.finish, hd, hblock]
  | false =>
    rw [hclean hd]
    simp [finished, memory, Memide.perform, DiskBuf.finish, hd]

theorem Ok.ideintr_eq {b : Fin n} {l : List (Fin n)} (h : s.Ok D (b :: l)) (data : Option δ) :
    ∃ drive, s.ideintr data = { s.finished b data with drive := drive } ∧
      (s.ideintr data).Working l ∧ drive.pending l = l := by
  have hlink : s.link none = some b := h.chain.1
  have hchain := h.chain.2
  cases l with
  | nil =>
    have hnone : s.link (some b) = none := hchain
    have heq : s.ideintr data = s.finished b data := by
      unfold Ide.ideintr
      dsimp only
      rw [hlink]
      dsimp only
      rw [update_self, hnone]
      rw [finished, hnone]
    rw [heq]
    exact ⟨.idle, rfl, rfl, rfl⟩
  | cons c l =>
    have hsome : s.link (some b) = some c := hchain.1
    have hc : (s.finished b data).buf c = s.buf c :=
      finished_buf (h.ne_of_mem List.mem_cons_self) data
    have hfits := (h.request c (List.mem_cons_of_mem b List.mem_cons_self)).1
    have heq : s.ideintr data = (s.finished b data).idestart c := by
      unfold Ide.ideintr
      dsimp only
      rw [hlink]
      dsimp only
      rw [update_self, hsome]
      rw [finished, hsome]
    rw [heq, idestart_eq (by rw [hc]; exact hfits.2.1) rfl]
    exact ⟨_, rfl, .inl rfl, rfl⟩

theorem Ok.finished {b : Fin n} {l : List (Fin n)} (h : s.Ok D (b :: l)) {data : Option δ}
    {drive : Drive δ}
    (hworking : ({ s.finished b data with drive := drive } : Ide n ι δ).Working l) :
    ({ s.finished b data with drive := drive } : Ide n ι δ).Ok D l := by
  have hdone : ((s.finished b data).buf b).done = true := by
    show (update s.buf b ((s.buf b).finish data) b).done = true
    rw [update_self]
    rfl
  refine ⟨h.panicked, h.havedisk1, h.chain.tail, (List.nodup_cons.1 h.nodup).2, hworking, ?_, ?_,
    ?_, ?_, ?_, ?_⟩
  · intro c hc
    have hrequest := h.request c (List.mem_cons_of_mem b hc)
    rwa [← finished_buf (h.ne_of_mem hc) data] at hrequest
  · intro c hc
    obtain ⟨i, hi, hplace⟩ := h.owner c (List.mem_cons_of_mem b hc)
    exact ⟨i, hi, (IdeAt.buf_wake b _).trans hplace⟩
  · intro i c hc
    exact h.locked i c ((IdeAt.buf_wake b _).symm.trans hc)
  · intro i c hi
    obtain ⟨hc, hfits⟩ := h.enter i c (IdeAt.eq_enter_of_wake hi)
    rw [List.mem_cons, not_or] at hc
    rw [← finished_buf hc.1 data] at hfits
    exact ⟨hc.2, hfits⟩
  · intro i c hi
    obtain ⟨hasleep, hcb⟩ := IdeAt.of_wake_eq_asleep hi
    exact (List.mem_cons.1 (h.asleep i c hasleep)).resolve_left hcb
  · intro i c hi
    by_cases hcb : c = b
    · subst hcb
      exact .inr hdone
    · have hwoken := (IdeAt.of_wake_eq_woken hi).resolve_left fun hc => hcb hc.2
      rcases h.woken i c hwoken with hc | hc
      · exact .inl ((List.mem_cons.1 hc).resolve_left hcb)
      · rw [← finished_buf hcb data] at hc
        exact .inr hc

theorem Ok.ideintr (h : s.Ok D q) {data : Option δ} (hdata : s.drive = .raised data) :
    ∃ b l, q = b :: l ∧ (s.ideintr data).Ok D l ∧
      (s.ideintr data).memory D = (s.memory D).perform b ∧
      (s.ideintr data).drive.pending l = l ∧ ∀ c ∈ l, (s.ideintr data).buf c = s.buf c := by
  have hworking := h.working
  cases q with
  | nil =>
    rw [Working, hdata] at hworking
    cases hworking
  | cons b l =>
    obtain ⟨drive, heq, hdrive, hpending⟩ := h.ideintr_eq data
    rw [heq] at hdrive ⊢
    exact ⟨b, l, rfl, h.finished hdrive, h.memory_finished hdata, hpending,
      fun c hc => finished_buf (h.ne_of_mem hc) data⟩

/-! ## Runs -/

variable [DecidableEq ι] {e : IdeEvent n ι δ × IdeSaw n ι δ}
  {π : List ((IdeEvent n ι δ × IdeSaw n ι δ) × Ide n ι δ)}

/-- The history up to a point where the queue is `q`: the requests that have joined it are those that
have been carried out and those that are pending, and the state of `memide.c` is what the queue will
lead to. -/
structure Good (D : ℕ) (s₀ : Ide n ι δ) (π : List ((IdeEvent n ι δ × IdeSaw n ι δ) × Ide n ι δ))
    (q : List (Fin n)) : Prop where
  ok : (last s₀ π).Ok D q
  asked : asked π = carried π ++
    ((last s₀ π).drive.pending q).map fun b => (b, ((last s₀ π).buf b).transfer)
  after : (s₀.memory D).after π = .ok (q.foldl Memide.perform ((last s₀ π).memory D))

theorem Quiet.good (h : s₀.Quiet) : Good D s₀ [] [] := by
  refine ⟨h.ok, ?_, rfl⟩
  rw [last_nil, h.drive]
  rfl

theorem Good.silent {q q' : List (Fin n)} (h : Good D s₀ π q) (hok : s'.Ok D q')
    {e : IdeEvent n ι δ × IdeSaw n ι δ} (hasked : e.2.asked = none) (hcarried : e.2.carried = none)
    (hpending : s'.drive.pending q' = (last s₀ π).drive.pending q)
    (hbuf : ∀ b ∈ (last s₀ π).drive.pending q, s'.buf b = (last s₀ π).buf b)
    (hafter : (q.foldl Memide.perform ((last s₀ π).memory D)).follow e =
      .ok (q'.foldl Memide.perform (s'.memory D))) : Good D s₀ ((e, s') :: π) q' := by
  refine ⟨hok, ?_, ?_⟩
  · rw [Ide.asked, Ide.carried, hasked, hcarried, h.asked, last_cons, hpending]
    simp only [Option.map_none, Option.toList_none, List.append_nil]
    congr 1
    refine List.map_congr_left fun b hb => ?_
    rw [hbuf b hb]
  · rw [Memide.after, h.after, last_cons]
    exact hafter

theorem pending_subset {d : Drive δ} {b : Fin n} (h : b ∈ d.pending q) : b ∈ q := by
  cases d with
  | raised data => exact List.mem_of_mem_tail h
  | idle => exact h
  | busy t => exact h
  | overrun => exact h

theorem Good.queue (h : Good D s₀ π q) {i : ι} {b : Fin n} {r : Option (Fin n)}
    (hi : (last s₀ π).place i = .enter b) :
    Good D s₀ (((.run i, ⟨some (i, b, ((last s₀ π).buf b).transfer), none, r⟩),
      ((last s₀ π).queue b).wait i b) :: π) (q ++ [b]) := by
  obtain ⟨hb, hfits, hdone⟩ := h.ok.enter i b hi
  have hlock := h.ok.locked i b (by rw [hi]; rfl)
  have hok := h.ok.queue_wait hi
  obtain ⟨link, drive, heq, -, hdrive⟩ := h.ok.queue hb hfits
  rw [heq, Ide.wait] at hok ⊢
  refine ⟨hok, ?_, ?_⟩
  · have hpending : drive.pending (q ++ [b]) = (last s₀ π).drive.pending q ++ [b] := by
      have hworking := h.ok.working
      obtain ⟨rfl, rfl⟩ | ⟨hq, rfl⟩ := hdrive
      · rw [show (last s₀ π).drive = .idle from hworking]
        rfl
      · cases q with
        | nil => exact absurd rfl hq
        | cons c q =>
          cases (last s₀ π).drive with
          | idle => rfl
          | busy t => rfl
          | raised data => rfl
          | overrun => rfl
    rw [Ide.asked, Ide.carried, h.asked, last_cons, hpending]
    simp
  · -- The queue does not touch `b`, so that `memide.c` finds it as it is.
    obtain ⟨hbuf, hlocks, hsize⟩ := Memide.foldl_same hb ((last s₀ π).memory D)
    rw [Memide.after, h.after, last_cons, List.foldl_append]
    refine Memide.iderw_eq ?_ ?_ ?_ ?_
    · rw [hlocks]
      exact hlock
    · rw [hbuf]
      exact hdone
    · rw [hbuf]
      exact hfits.1
    · rw [hbuf, hsize]
      exact hfits.2.2

theorem Good.complete (h : Good D s₀ π q) {t : Transfer δ} (ht : (last s₀ π).drive = .busy t) :
    Good D s₀ (((.complete, ⟨none, ((last s₀ π).link none).map fun b => (b, t), none⟩),
      (last s₀ π).complete t) :: π) q := by
  obtain ⟨⟨b, l, data, rfl, hbt, hraised⟩, hok, hmemory⟩ := h.ok.complete ht
  refine ⟨hok, ?_, ?_⟩
  · have hbuf : ((last s₀ π).complete t).buf = (last s₀ π).buf := by
      unfold Ide.complete
      split
      · rfl
      · rfl
    have hlink : (last s₀ π).link none = some b := h.ok.chain.1
    rw [Ide.asked, Ide.carried, h.asked, last_cons, hraised, hbuf, ht, hlink, hbt]
    simp [Drive.pending]
  · rw [Memide.after, h.after, last_cons, hmemory]
    rfl

theorem Good.step (h : Good D s₀ π q) (hvalid : Valid D (last s₀ π) e)
    (hs : (last s₀ π).step e s') : ∃ q', Good D s₀ ((e, s') :: π) q' := by
  have hok := h.ok
  obtain ⟨i, b, rfl, hlock, rfl⟩ | ⟨i, b, rfl, hi, hlock, rfl⟩ | ⟨b, x, rfl, hfree, rfl⟩ |
    ⟨i, b, rfl, hi, rfl⟩ | ⟨i, b, rfl, hi, rfl⟩ | ⟨i, b, rfl, hi, rfl⟩ | ⟨t, rfl, ht, rfl⟩ |
    ⟨data, rfl, hdata, rfl⟩ | ⟨i, rfl, rfl⟩ := step_cases hs
  · refine ⟨q, h.silent (hok.lock hlock) rfl rfl rfl (fun _ _ => rfl) ?_⟩
    exact congrArg Except.ok (Memide.foldl_setLock q _ b _).symm
  · refine ⟨q, h.silent (hok.unlock hi hlock) rfl rfl rfl (fun _ _ => rfl) ?_⟩
    exact congrArg Except.ok (Memide.foldl_setLock q _ b _).symm
  · obtain ⟨hb, hplace⟩ := hok.not_used hfree
    refine ⟨q, h.silent (hok.fill hb hplace x) rfl rfl rfl (fun c hc => ?_) ?_⟩
    · refine update_of_ne ?_ _ _
      rintro rfl
      exact hb (pending_subset hc)
    · exact congrArg Except.ok (Memide.foldl_setBuf hb _ x).symm
  · obtain ⟨hlock, hdone, hfits⟩ := hvalid i b rfl
    obtain ⟨heq, hok'⟩ := hok.iderw hi hlock hdone hfits
    refine ⟨q, h.silent hok' rfl rfl ?_ (fun c _ => ?_) ?_⟩
    · rw [heq]
    · rw [heq]
    · rw [heq]
      rfl
  · exact ⟨q ++ [b], h.queue hi⟩
  · exact ⟨q, h.silent (hok.wait hi) rfl rfl rfl (fun _ _ => rfl) rfl⟩
  · exact ⟨q, h.complete ht⟩
  · obtain ⟨b, l, rfl, hok', hmemory, hpending, hbuf⟩ := hok.ideintr hdata
    refine ⟨l, h.silent hok' rfl rfl ?_ (fun c hc => ?_) ?_⟩
    · rw [hpending, hdata]
      rfl
    · rw [hdata] at hc
      exact hbuf c hc
    · rw [hmemory]
      rfl
  · exact ⟨q, h.silent (hok.kill i) rfl rfl rfl (fun _ _ => rfl) rfl⟩

theorem Quiet.run (h₀ : s₀.Quiet) (hπ : IsRun step s₀ π) (hvalid : Meets (Valid D) s₀ π) :
    ∃ q, Good D s₀ π q :=
  (hπ.along_of_meets (P := fun π => ∃ q, Good D s₀ π q) ⟨[], h₀.good⟩
    (fun _ _ _ hP hC hs => hP.elim fun _ h => h.step hC hs) hvalid).here

theorem Good.returned (h : Good D s₀ π q) (hs : (last s₀ π).step e s') {b : Fin n}
    (hb : e.2.returned = some b) :
    (s'.buf b).valid = true ∧ (s'.buf b).dirty = false ∧ b ∉ s'.queued ∧
      (s'.drained D).buf b = s'.buf b := by
  obtain ⟨i, c, rfl, -, rfl⟩ | ⟨i, c, rfl, -, -, rfl⟩ | ⟨c, x, rfl, -, rfl⟩ | ⟨i, c, rfl, -, rfl⟩ |
    ⟨i, c, rfl, hi, rfl⟩ | ⟨i, c, rfl, hi, rfl⟩ | ⟨t, rfl, -, rfl⟩ | ⟨data, rfl, -, rfl⟩ |
    ⟨i, rfl, rfl⟩ := step_cases hs
  case inr.inr.inr.inr.inl =>
    -- A request that has just joined the queue is not done.
    obtain ⟨hc, hfits, hdone⟩ := h.ok.enter i c hi
    obtain ⟨link, drive, heq, -⟩ := h.ok.queue hc hfits
    rw [heq] at hb
    simp [returns, hdone] at hb
  case inr.inr.inr.inr.inr.inl =>
    have hb' : (if ((last s₀ π).buf c).done then some c else none) = some b := hb
    split at hb'
    · rename_i hdone
      obtain rfl := Option.some.inj hb'
      have hq : c ∉ (last s₀ π).queued := by
        rw [h.ok.queued]
        intro hc
        rw [(h.ok.request c hc).2] at hdone
        cases hdone
      have hflags : ((last s₀ π).buf c).valid = true ∧ ((last s₀ π).buf c).dirty = false := by
        simpa [DiskBuf.done] using hdone
      exact ⟨hflags.1, hflags.2, hq, (Memide.foldl_same hq _).1⟩
    · cases hb'
  all_goals cases hb

/-- `ide.c` does what `memide.c` does with the same requests, in the order in which they join the
queue: the drive carries out each once, in that order, and what is still queued makes up the
difference. The drive is at work whenever something is queued, nobody sleeps whose request is done,
and a call returns when its buffer is up to date and off the queue. -/
theorem ide_refines_memide (h₀ : s₀.Quiet) (hπ : IsRun step s₀ π) (hvalid : Meets (Valid D) s₀ π) :
    (last s₀ π).panicked = none ∧
    asked π = carried π ++ (last s₀ π).pending ∧
    (s₀.memory D).after π = .ok ((last s₀ π).drained D) ∧
    ((last s₀ π).queued = [] → (s₀.memory D).after π = .ok ((last s₀ π).memory D)) ∧
    (∀ b l, (last s₀ π).queued = b :: l →
      (last s₀ π).drive = .busy ((last s₀ π).buf b).transfer ∨
        ∃ data, (last s₀ π).drive = .raised data) ∧
    (∀ i b, (last s₀ π).place i = .asleep b → ((last s₀ π).buf b).done = false) ∧
    ∀ e s', (last s₀ π).step e s' → ∀ b, e.2.returned = some b →
      (s'.buf b).valid = true ∧ (s'.buf b).dirty = false ∧ b ∉ s'.queued ∧
        (s'.drained D).buf b = s'.buf b := by
  obtain ⟨q, h⟩ := h₀.run hπ hvalid
  have hq := h.ok.queued
  refine ⟨h.ok.panicked, ?_, ?_, ?_, ?_, ?_, ?_⟩
  · rw [pending, hq]
    exact h.asked
  · rw [drained, hq]
    exact h.after
  · rw [hq]
    rintro rfl
    exact h.after
  · intro b l hbl
    rw [hq] at hbl
    subst hbl
    exact h.ok.working.imp_right fun ⟨data, hdata, _⟩ => ⟨data, hdata⟩
  · intro i b hi
    exact (h.ok.request b (h.ok.asleep i b hi)).2
  · intro e s' hs b hb
    exact h.returned hs hb

instance [Fintype ι] [DecidableEq δ] (D : ℕ) (s : Ide n ι δ) (e : IdeEvent n ι δ × IdeSaw n ι δ) :
    Decidable (Valid D s e) := by
  unfold Valid Fits
  infer_instance

def twoRequests : Ide 2 Bool ℕ where
  buf b := if b.val = 0 then ⟨false, true, 1, 5, 7⟩ else ⟨false, false, 1, 5, 0⟩
  link _ := none
  havedisk1 := true
  drive := .idle
  disk _ _ := 0
  lock _ := none
  place _ := .user
  panicked := none

def toWrite : Fin 2 := ⟨0, Nat.zero_lt_two⟩

def toRead : Fin 2 := ⟨1, Nat.one_lt_two⟩

def bothCalls : List (IdeEvent 2 Bool ℕ) :=
  [.lock false toWrite, .lock true toRead, .call true toRead, .call false toWrite, .run false,
    .run true, .complete, .ideintr, .run false, .complete, .ideintr, .run true]

/-- The block is written first, and so the second request reads what the first one wrote. -/
theorem ide_refines_memide_two :
    ∃ π, IsRun step twoRequests π ∧
      (twoRequests.memory 1000).after π = .ok ((last twoRequests π).memory 1000) ∧
      ((last twoRequests π).buf toRead).data = 7 ∧ (carried π).length = 2 := by
  have heval : (history (tickOut next) twoRequests []
      bothCalls).map (fun π => (decide (Meets (Valid 1000) twoRequests π),
        (last twoRequests π).queued, ((last twoRequests π).buf toRead).data,
        (carried π).length)) = some (true, [], 7, 2) := by
    decide +kernel
  obtain ⟨π, hrun, heq⟩ := exists_run_tickOut heval
  obtain ⟨hvalid, hrest⟩ := Prod.mk.inj heq
  obtain ⟨hqueue, hrest⟩ := Prod.mk.inj hrest
  obtain ⟨hdata, hcarried⟩ := Prod.mk.inj hrest
  have hquiet : twoRequests.Quiet := ⟨rfl, rfl, rfl, rfl, fun _ => rfl⟩
  have hrefines := ide_refines_memide hquiet hrun (of_decide_eq_true hvalid)
  exact ⟨π, hrun, hrefines.2.2.2.1 hqueue, hdata, hcarried⟩

end Ide

end Xv6
