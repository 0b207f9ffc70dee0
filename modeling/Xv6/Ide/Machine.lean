import Xv6.Param
import Xv6.Lib.Run
import Xv6.Lib.Chain
import Mathlib.Tactic.Common

/-!
# Disk drivers

`iderw`, `ideintr` and `idestart` of `ide.c`, and `iderw` of `memide.c`, which carries out a request
at once on a disk in memory. Contents of blocks are in `δ`; a block is one sector.

A step is what a process does under `idelock` up to its next `sleep` or its return, an interrupt, or
a transfer by the drive. The drive completes each transfer that has been started, and then raises
one interrupt. Between its calls of `iderw`, the holder of a buffer's sleep lock may change the
buffer, and `bget` may recycle one that nobody holds (`fill`).
-/

namespace Xv6

open Function Run

/-- `struct buf`, as far as the drivers use it, with the two bits of `flags`. -/
structure DiskBuf (δ : Type) where
  valid : Bool
  dirty : Bool
  dev : ℕ
  blockno : ℕ
  data : δ
  deriving DecidableEq

/-- A command to the drive: the disk, the sector, and what is to be written there; nothing is, if the
sector is to be read. -/
structure Transfer (δ : Type) where
  disk : ℕ
  sector : ℕ
  write : Option δ
  deriving DecidableEq

/-- The drive: it waits for a command, carries one out, or has done so and has raised an interrupt,
with the contents of the sector if it was to be read. A command that reaches it before its
interrupt has been taken is an `overrun`. -/
inductive Drive (δ : Type)
  | idle
  | busy (t : Transfer δ)
  | raised (data : Option δ)
  | overrun

/-- Where a process is: outside `iderw`, in a call before it has acquired `idelock`, `SLEEPING` in a
call, or woken there. -/
inductive IdeAt (n : ℕ)
  | user
  | enter (b : Fin n)
  | asleep (b : Fin n)
  | woken (b : Fin n)
  deriving DecidableEq

/-- The driver, the drive and the processes. `link none` is `idequeue`, and `link (some b)` is
`b->qnext`. -/
structure Ide (n : ℕ) (ι δ : Type) where
  buf : Fin n → DiskBuf δ
  link : Option (Fin n) → Option (Fin n)
  havedisk1 : Bool
  drive : Drive δ
  disk : ℕ → ℕ → δ
  /-- The holder of `b->lock`. -/
  lock : Fin n → Option ι
  place : ι → IdeAt n
  panicked : Option String

inductive IdeEvent (n : ℕ) (ι δ : Type)
  | lock (i : ι) (b : Fin n)
  | unlock (i : ι) (b : Fin n)
  | fill (b : Fin n) (x : DiskBuf δ)
  /-- `iderw` up to `acquire`. -/
  | call (i : ι) (b : Fin n)
  /-- A process goes on in `iderw`. -/
  | run (i : ι)
  /-- The drive completes a transfer. -/
  | complete
  | ideintr
  | kill (i : ι)
  deriving DecidableEq

/-- What is seen of a step: the request that joins the queue, the transfer that the drive carries out
and the first buffer in the queue at that time, and the buffer for which `iderw` returns. -/
structure IdeSaw (n : ℕ) (ι δ : Type) where
  asked : Option (ι × Fin n × Transfer δ)
  carried : Option (Fin n × Transfer δ)
  returned : Option (Fin n)
  deriving DecidableEq

def Drive.pending {δ α : Type} : Drive δ → List α → List α
  | .raised _, q => q.tail
  | _, q => q

namespace DiskBuf

variable {δ : Type}

def done (x : DiskBuf δ) : Bool := x.valid && !x.dirty

def transfer (x : DiskBuf δ) : Transfer δ :=
  ⟨x.dev % 2, x.blockno, if x.dirty then some x.data else none⟩

def finish (x : DiskBuf δ) (data : Option δ) : DiskBuf δ :=
  { x with data := if x.dirty then x.data else data.getD x.data, valid := true, dirty := false }

end DiskBuf

def IdeAt.wake {n : ℕ} (b : Fin n) : IdeAt n → IdeAt n
  | .asleep c => if c = b then .woken c else .asleep c
  | a => a

def IdeAt.rouse {n : ℕ} : IdeAt n → IdeAt n
  | .asleep c => .woken c
  | a => a

def IdeAt.buf {n : ℕ} : IdeAt n → Option (Fin n)
  | .user => none
  | .enter b | .asleep b | .woken b => some b

namespace IdeAt

variable {n : ℕ} {a : IdeAt n} {b c : Fin n}

theorem buf_rouse (a : IdeAt n) : a.rouse.buf = a.buf := by
  cases a with
  | user => rfl
  | enter c => rfl
  | asleep c => rfl
  | woken c => rfl

theorem buf_wake (b : Fin n) (a : IdeAt n) : (a.wake b).buf = a.buf := by
  cases a with
  | user => rfl
  | enter c => rfl
  | asleep c =>
    rw [wake]
    split
    · rfl
    · rfl
  | woken c => rfl

theorem eq_enter_of_rouse (h : a.rouse = .enter c) : a = .enter c := by
  cases a with
  | enter d => exact h
  | user => cases h
  | asleep d => cases h
  | woken d => cases h

theorem rouse_ne_asleep : a.rouse ≠ .asleep c := by
  cases a with
  | user => nofun
  | enter d => nofun
  | asleep d => nofun
  | woken d => nofun

theorem of_rouse_eq_woken (h : a.rouse = .woken c) : a = .asleep c ∨ a = .woken c := by
  cases a with
  | user => cases h
  | enter d => cases h
  | asleep d => exact .inl (congrArg IdeAt.asleep (IdeAt.woken.inj h))
  | woken d => exact .inr h

theorem eq_enter_of_wake (h : a.wake b = .enter c) : a = .enter c := by
  cases a with
  | enter d => exact h
  | user => cases h
  | asleep d =>
    rw [wake] at h
    split at h
    · cases h
    · cases h
  | woken d => cases h

theorem of_wake_eq_asleep (h : a.wake b = .asleep c) : a = .asleep c ∧ c ≠ b := by
  cases a with
  | user => cases h
  | enter d => cases h
  | asleep d =>
    rw [wake] at h
    split at h
    · cases h
    · rename_i hd
      obtain rfl := IdeAt.asleep.inj h
      exact ⟨rfl, hd⟩
  | woken d => cases h

theorem of_wake_eq_woken (h : a.wake b = .woken c) : a = .asleep c ∧ c = b ∨ a = .woken c := by
  cases a with
  | user => cases h
  | enter d => cases h
  | asleep d =>
    rw [wake] at h
    split at h
    · rename_i hd
      obtain rfl := IdeAt.woken.inj h
      exact .inl ⟨rfl, hd⟩
    · cases h
  | woken d => exact .inr h

end IdeAt

namespace Ide

variable {n : ℕ} {ι δ : Type} [DecidableEq ι]

def idestart (s : Ide n ι δ) (b : Fin n) : Ide n ι δ :=
  if FSSIZE ≤ (s.buf b).blockno then { s with panicked := some "incorrect blockno" }
  else
    match s.drive with
    | .idle => { s with drive := .busy (s.buf b).transfer }
    | _ => { s with drive := .overrun }

def append (s : Ide n ι δ) (b : Fin n) : Ide n ι δ :=
  let link := update s.link (some b) none
  match Chain.lastCell link (n + 1) none with
  | some pp => { s with link := update link pp (some b) }
  | none => { s with panicked := some "the queue is circular" }

def queue (s : Ide n ι δ) (b : Fin n) : Ide n ι δ :=
  let s := s.append b
  if s.link none = some b then s.idestart b else s

def wait (s : Ide n ι δ) (i : ι) (b : Fin n) : Ide n ι δ :=
  { s with place := update s.place i (if (s.buf b).done then .user else .asleep b) }

def returns (s : Ide n ι δ) (b : Fin n) : Option (Fin n) :=
  if (s.buf b).done then some b else none

def iderw (s : Ide n ι δ) (i : ι) (b : Fin n) : Ide n ι δ :=
  if s.lock b ≠ some i then { s with panicked := some "iderw: buf not locked" }
  else if (s.buf b).done then { s with panicked := some "iderw: nothing to do" }
  else if (s.buf b).dev ≠ 0 ∧ s.havedisk1 = false then
    { s with panicked := some "iderw: ide disk 1 not present" }
  else { s with place := update s.place i (.enter b) }

def complete (s : Ide n ι δ) (t : Transfer δ) : Ide n ι δ :=
  match t.write with
  | some x =>
    { s with
      disk := update s.disk t.disk (update (s.disk t.disk) t.sector x)
      drive := .raised none }
  | none => { s with drive := .raised (some (s.disk t.disk t.sector)) }

def ideintr (s : Ide n ι δ) (data : Option δ) : Ide n ι δ :=
  let s := { s with drive := .idle }
  match s.link none with
  | none => s
  | some b =>
    let s := { s with
      link := update s.link none (s.link (some b))
      buf := update s.buf b ((s.buf b).finish data)
      place := fun j => (s.place j).wake b }
    match s.link none with
    | none => s
    | some b' => s.idestart b'

/-- Nothing is seen. -/
def silent : IdeSaw n ι δ := ⟨none, none, none⟩

def next (s : Ide n ι δ) (e : IdeEvent n ι δ) : Option (IdeSaw n ι δ × Ide n ι δ) :=
  if s.panicked.isSome then none
  else
    match e with
    | .lock i b =>
      if s.place i = .user ∧ s.lock b = none then
        some (silent, { s with lock := update s.lock b (some i) })
      else none
    | .unlock i b =>
      if s.place i = .user ∧ s.lock b = some i then
        some (silent, { s with lock := update s.lock b none })
      else none
    | .fill b x =>
      if (s.lock b).all (fun i => s.place i = .user) then
        some (silent, { s with buf := update s.buf b x })
      else none
    | .call i b => if s.place i = .user then some (silent, s.iderw i b) else none
    | .run i =>
      match s.place i with
      | .enter b =>
        some (⟨some (i, b, (s.buf b).transfer), none, (s.queue b).returns b⟩,
          (s.queue b).wait i b)
      | .woken b => some (⟨none, none, s.returns b⟩, s.wait i b)
      | _ => none
    | .complete =>
      match s.drive with
      | .busy t => some (⟨none, (s.link none).map fun b => (b, t), none⟩, s.complete t)
      | _ => none
    | .ideintr =>
      match s.drive with
      | .raised data => some (silent, s.ideintr data)
      | _ => none
    | .kill i => some (silent, { s with place := update s.place i (s.place i).rouse })

def step (s : Ide n ι δ) (e : IdeEvent n ι δ × IdeSaw n ι δ) (s' : Ide n ι δ) : Prop :=
  s.next e.1 = some (e.2, s')

def asked : List ((IdeEvent n ι δ × IdeSaw n ι δ) × Ide n ι δ) → List (Fin n × Transfer δ)
  | [] => []
  | ((_, x), _) :: π => asked π ++ (x.asked.map Prod.snd).toList

def carried : List ((IdeEvent n ι δ × IdeSaw n ι δ) × Ide n ι δ) → List (Fin n × Transfer δ)
  | [] => []
  | ((_, x), _) :: π => carried π ++ x.carried.toList

/-- The queue. -/
def queued (s : Ide n ι δ) : List (Fin n) := Chain.nodes s.link n none

def pending (s : Ide n ι δ) : List (Fin n × Transfer δ) :=
  (s.drive.pending s.queued).map fun b => (b, (s.buf b).transfer)

variable {s s' : Ide n ι δ} {e : IdeEvent n ι δ × IdeSaw n ι δ}

theorem step_cases (h : s.step e s') :
    (∃ i b, e = (.lock i b, silent) ∧ s.lock b = none ∧
      s' = { s with lock := update s.lock b (some i) }) ∨
    (∃ i b, e = (.unlock i b, silent) ∧ s.place i = .user ∧ s.lock b = some i ∧
      s' = { s with lock := update s.lock b none }) ∨
    (∃ b x, e = (.fill b x, silent) ∧ (s.lock b).all (fun i => s.place i = .user) = true ∧
      s' = { s with buf := update s.buf b x }) ∨
    (∃ i b, e = (.call i b, silent) ∧ s.place i = .user ∧ s' = s.iderw i b) ∨
    (∃ i b, e = (.run i, ⟨some (i, b, (s.buf b).transfer), none, (s.queue b).returns b⟩) ∧
      s.place i = .enter b ∧ s' = (s.queue b).wait i b) ∨
    (∃ i b, e = (.run i, ⟨none, none, s.returns b⟩) ∧ s.place i = .woken b ∧ s' = s.wait i b) ∨
    (∃ t, e = (.complete, ⟨none, (s.link none).map fun b => (b, t), none⟩) ∧ s.drive = .busy t ∧
      s' = s.complete t) ∨
    (∃ data, e = (.ideintr, silent) ∧ s.drive = .raised data ∧ s' = s.ideintr data) ∨
    ∃ i, e = (.kill i, silent) ∧
      s' = { s with place := update s.place i (s.place i).rouse } := by
  obtain ⟨e, x⟩ := e
  unfold step next at h
  split at h
  · cases h
  cases e with
  | lock i b =>
    dsimp only at h
    split at h
    · cases h
      exact .inl ⟨i, b, rfl, ‹_ ∧ _›.2, rfl⟩
    · cases h
  | unlock i b =>
    dsimp only at h
    split at h
    · cases h
      exact .inr (.inl ⟨i, b, rfl, ‹_ ∧ _›.1, ‹_ ∧ _›.2, rfl⟩)
    · cases h
  | fill b x =>
    dsimp only at h
    split at h
    · cases h
      exact .inr (.inr (.inl ⟨b, x, rfl, ‹_›, rfl⟩))
    · cases h
  | call i b =>
    dsimp only at h
    split at h
    · cases h
      exact .inr (.inr (.inr (.inl ⟨i, b, rfl, ‹_›, rfl⟩)))
    · cases h
  | run i =>
    dsimp only at h
    split at h
    · cases h
      exact .inr (.inr (.inr (.inr (.inl ⟨i, _, rfl, ‹_›, rfl⟩))))
    · cases h
      exact .inr (.inr (.inr (.inr (.inr (.inl ⟨i, _, rfl, ‹_›, rfl⟩)))))
    · cases h
  | complete =>
    dsimp only at h
    split at h
    · cases h
      exact .inr (.inr (.inr (.inr (.inr (.inr (.inl ⟨_, rfl, ‹_›, rfl⟩))))))
    · cases h
  | ideintr =>
    dsimp only at h
    split at h
    · cases h
      exact .inr (.inr (.inr (.inr (.inr (.inr (.inr (.inl ⟨_, rfl, ‹_›, rfl⟩)))))))
    · cases h
  | kill i =>
    cases h
    exact .inr (.inr (.inr (.inr (.inr (.inr (.inr (.inr ⟨i, rfl, rfl⟩)))))))

end Ide

/-! ## The disk in memory -/

/-- The state of `memide.c`. -/
structure Memide (n : ℕ) (ι δ : Type) where
  disksize : ℕ
  memdisk : ℕ → δ
  buf : Fin n → DiskBuf δ
  lock : Fin n → Option ι

namespace Memide

variable {n : ℕ} {ι δ : Type} [DecidableEq ι]

def perform (m : Memide n ι δ) (b : Fin n) : Memide n ι δ :=
  if (m.buf b).dirty then
    { m with
      memdisk := update m.memdisk (m.buf b).blockno (m.buf b).data
      buf := update m.buf b { m.buf b with valid := true, dirty := false } }
  else
    { m with
      buf := update m.buf b
        { m.buf b with valid := true, data := m.memdisk (m.buf b).blockno } }

/-- `iderw` of `memide.c`. -/
def iderw (m : Memide n ι δ) (i : ι) (b : Fin n) : Except String (Memide n ι δ) :=
  if m.lock b ≠ some i then .error "iderw: buf not locked"
  else if (m.buf b).done then .error "iderw: nothing to do"
  else if (m.buf b).dev ≠ 1 then .error "iderw: request not for disk 1"
  else if m.disksize ≤ (m.buf b).blockno then .error "iderw: block out of range"
  else .ok (m.perform b)

def follow (m : Memide n ι δ) : IdeEvent n ι δ × IdeSaw n ι δ → Except String (Memide n ι δ)
  | (.lock i b, _) => .ok { m with lock := update m.lock b (some i) }
  | (.unlock _ b, _) => .ok { m with lock := update m.lock b none }
  | (.fill b x, _) => .ok { m with buf := update m.buf b x }
  | (_, ⟨some (i, b, _), _, _⟩) => m.iderw i b
  | _ => .ok m

def after (m : Memide n ι δ) :
    List ((IdeEvent n ι δ × IdeSaw n ι δ) × Ide n ι δ) → Except String (Memide n ι δ)
  | [] => .ok m
  | (e, _) :: π => (after m π).bind fun m => m.follow e

end Memide

end Xv6
