import Xv6.Lib.Run
import Xv6.Lib.Word
import Mathlib.Data.Int.Notation
import Mathlib.Tactic.Common

/-!
# Pipes

`pipewrite`, `piperead` and `pipeclose` of `pipe.c`, and `kill` as far as it touches a process that
is in one of them. Any number of processes use one pipe. What a call does from the point where it
holds `p->lock` to its next `sleep` or its return is one step, since it holds the lock all the way;
a process that enters a call and has not acquired the lock yet is a state of its own, as is one that
has been woken and has not acquired it again.

`nread` and `nwrite` are 32-bit words that count for ever. Their difference is the number of bytes
in the buffer, whatever either of them has wrapped to, because `PIPESIZE` divides 2^32.
-/

namespace Xv6

open Function Run

def PIPESIZE : ℕ := 512

theorem PIPESIZE_pos : 0 < PIPESIZE := by decide

theorem PIPESIZE_dvd : PIPESIZE ∣ 4294967296 := by decide

/-- `struct pipe`, with bytes in `β`. -/
structure Pipe (β : Type) where
  data : Fin PIPESIZE → β
  nread : ℕ
  nwrite : ℕ
  readopen : Bool
  writeopen : Bool

/-- The channels of a pipe: the addresses of its two counters. -/
inductive PipeChan
  | nread | nwrite
  deriving DecidableEq

/-- A call, with what is left to do of it: `write` keeps its argument `n` and the bytes that it has
not stored yet. -/
inductive PipeCall (β : Type)
  | write (n : ℤ) (rest : List β)
  | read (n : ℤ)
  deriving DecidableEq

/-- How a stretch under `p->lock` ends. -/
inductive PipeEnd (β : Type)
  | returns (r : ℤ)
  | sleeps (c : PipeCall β)

/-- What a stretch under `p->lock` does: the pipe after it, the bytes that it stores or delivers, the
channel that it wakes, and how it ends. -/
structure Stretch (β : Type) where
  pipe : Pipe β
  moved : List β
  wakes : Option PipeChan
  ends : PipeEnd β

namespace Pipe

variable {β : Type}

def alloc (data : Fin PIPESIZE → β) : Pipe β := ⟨data, 0, 0, true, true⟩

def full (p : Pipe β) : Bool := p.nwrite == uint (p.nread + PIPESIZE)

/-- `p->nread == p->nwrite` -/
def empty (p : Pipe β) : Bool := p.nread == p.nwrite

def push (p : Pipe β) (b : β) : Pipe β :=
  { p with
    data := update p.data (Ring.cell PIPESIZE_pos p.nwrite) b
    nwrite := uint (p.nwrite + 1) }

def front (p : Pipe β) : β := p.data (Ring.cell PIPESIZE_pos p.nread)

/-- `p->nread++` -/
def pop (p : Pipe β) : Pipe β := { p with nread := uint (p.nread + 1) }

def write (killed : Bool) (n : ℤ) : List β → Pipe β → Stretch β
  | [], p => ⟨p, [], some .nread, .returns n⟩
  | b :: rest, p =>
    if p.full then
      if p.readopen = false ∨ killed = true then ⟨p, [], none, .returns (-1)⟩
      else ⟨p, [], some .nread, .sleeps (.write n (b :: rest))⟩
    else
      let t := write killed n rest (p.push b)
      ⟨t.pipe, b :: t.moved, t.wakes, t.ends⟩

def copy : ℕ → Pipe β → List β × Pipe β
  | 0, p => ([], p)
  | k + 1, p =>
    if p.empty then ([], p)
    else
      let x := copy k p.pop
      (p.front :: x.1, x.2)

def read (killed : Bool) (n : ℤ) (p : Pipe β) : Stretch β :=
  if p.empty ∧ p.writeopen = true then
    if killed then ⟨p, [], none, .returns (-1)⟩ else ⟨p, [], none, .sleeps (.read n)⟩
  else
    let x := copy n.toNat p
    ⟨x.2, x.1, some .nwrite, .returns x.1.length⟩

def count (p : Pipe β) : ℕ := uint (p.nwrite + 4294967296 - p.nread)

def buffered (p : Pipe β) : List β := Ring.window PIPESIZE_pos p.data p.nread p.count

/-- The counters are words, and not more than `PIPESIZE` apart. -/
structure Ok (p : Pipe β) : Prop where
  nread : p.nread < 4294967296
  nwrite : p.nwrite < 4294967296
  count : p.count ≤ PIPESIZE

/-! ## The counters -/

@[simp] theorem count_alloc (data : Fin PIPESIZE → β) : (alloc data).count = 0 := by
  simp [count, alloc, uint]

theorem ok_alloc (data : Fin PIPESIZE → β) : (alloc data).Ok := by
  refine ⟨?_, ?_, ?_⟩
  · simp [alloc]
  · simp [alloc]
  · rw [count_alloc]
    exact Nat.zero_le _

variable {p : Pipe β}

theorem Ok.nwrite_eq (h : p.Ok) : p.nwrite = uint (p.nread + p.count) := by
  obtain ⟨hr, hw, -⟩ := h
  simp only [Pipe.count, uint]
  omega

theorem Ok.full_iff (h : p.Ok) : p.full = true ↔ p.count = PIPESIZE := by
  obtain ⟨hr, hw, hc⟩ := h
  simp only [full, beq_iff_eq]
  simp only [Pipe.count, uint, PIPESIZE] at *
  omega

theorem Ok.empty_iff (h : p.Ok) : p.empty = true ↔ p.count = 0 := by
  obtain ⟨hr, hw, hc⟩ := h
  simp only [empty, beq_iff_eq]
  simp only [Pipe.count, uint, PIPESIZE] at *
  omega

theorem Ok.count_push (h : p.Ok) (hf : p.full = false) (b : β) :
    (p.push b).count = p.count + 1 := by
  have hlt : p.count ≠ PIPESIZE := fun hc => by simp [h.full_iff.2 hc] at hf
  obtain ⟨hr, hw, hc⟩ := h
  simp only [Pipe.count, Pipe.push, uint, PIPESIZE] at *
  omega

theorem Ok.push (h : p.Ok) (hf : p.full = false) (b : β) : (p.push b).Ok := by
  have hlt : p.count ≠ PIPESIZE := fun hc => by simp [h.full_iff.2 hc] at hf
  refine ⟨h.nread, uint_lt _, ?_⟩
  have := h.count
  rw [h.count_push hf b]
  omega

theorem Ok.count_pop (h : p.Ok) (he : p.empty = false) : p.count = p.pop.count + 1 := by
  have hne : p.count ≠ 0 := fun hc => by simp [h.empty_iff.2 hc] at he
  obtain ⟨hr, hw, hc⟩ := h
  simp only [Pipe.count, Pipe.pop, uint, PIPESIZE] at *
  omega

theorem Ok.pop (h : p.Ok) (he : p.empty = false) : p.pop.Ok := by
  refine ⟨uint_lt _, h.nwrite, ?_⟩
  have := h.count
  have := h.count_pop he
  omega

/-! ## The bytes

What is in the buffer is rewritten by lemmas only: to unfold `count` is to count to 2^32. -/

theorem buffered_congr {p q : Pipe β} (hdata : p.data = q.data) (hread : p.nread = q.nread)
    (hwrite : p.nwrite = q.nwrite) : p.buffered = q.buffered := by
  rw [buffered, buffered, count, count, hdata, hread, hwrite]

theorem Ok.buffered_push (h : p.Ok) (hf : p.full = false) (b : β) :
    (p.push b).buffered = p.buffered ++ [b] := by
  have hlt : p.count < PIPESIZE := by
    refine lt_of_le_of_ne h.count fun hc => ?_
    simp [h.full_iff.2 hc] at hf
  have hcell : Ring.cell PIPESIZE_pos p.nwrite = Ring.cell PIPESIZE_pos (p.nread + p.count) := by
    rw [h.nwrite_eq, Ring.cell_uint PIPESIZE_pos PIPESIZE_dvd]
  rw [buffered, h.count_push hf b]
  show Ring.window _ (update p.data (Ring.cell PIPESIZE_pos p.nwrite) b) p.nread _ = _
  rw [hcell]
  exact Ring.window_push PIPESIZE_pos p.data p.nread b hlt

theorem Ok.buffered_pop (h : p.Ok) (he : p.empty = false) :
    p.buffered = p.front :: p.pop.buffered := by
  rw [buffered, h.count_pop he, Ring.window_succ]
  congr 1
  exact (Ring.window_uint PIPESIZE_pos PIPESIZE_dvd p.data (p.nread + 1) _).symm

theorem write_cons (hf : p.full = false) (killed : Bool) (n : ℤ) (b : β) (rest : List β) :
    p.write killed n (b :: rest) = ⟨((p.push b).write killed n rest).pipe,
      b :: ((p.push b).write killed n rest).moved, ((p.push b).write killed n rest).wakes,
      ((p.push b).write killed n rest).ends⟩ := by
  simp only [write, hf, Bool.false_eq_true, if_false]

theorem write_cons_of_full (hf : p.full = true) (killed : Bool) (n : ℤ) (b : β) (rest : List β) :
    p.write killed n (b :: rest) = if p.readopen = false ∨ killed = true
      then ⟨p, [], none, .returns (-1)⟩ else ⟨p, [], some .nread, .sleeps (.write n (b :: rest))⟩ := by
  simp only [write, hf, if_true]

theorem Ok.write (h : p.Ok) (killed : Bool) (n : ℤ) (rest : List β) :
    (p.write killed n rest).pipe.Ok ∧
      (p.write killed n rest).pipe.buffered = p.buffered ++ (p.write killed n rest).moved := by
  induction rest generalizing p with
  | nil => exact ⟨h, (List.append_nil _).symm⟩
  | cons b rest ih =>
    cases hf : p.full with
    | true =>
      rw [write_cons_of_full hf]
      split
      · exact ⟨h, (List.append_nil _).symm⟩
      · exact ⟨h, (List.append_nil _).symm⟩
    | false =>
      obtain ⟨hok, hbuf⟩ := ih (h.push hf b)
      rw [write_cons hf]
      refine ⟨hok, ?_⟩
      simp only [hbuf, h.buffered_push hf b, List.append_assoc, List.singleton_append]

theorem write_moved (killed : Bool) (n : ℤ) (rest : List β) (p : Pipe β) :
    ((p.write killed n rest).ends = .returns n ∧ (p.write killed n rest).moved = rest) ∨
    ((p.write killed n rest).ends = .returns (-1) ∧ (p.write killed n rest).moved <+: rest) ∨
    ∃ rest', (p.write killed n rest).ends = .sleeps (.write n rest') ∧
      (p.write killed n rest).moved ++ rest' = rest := by
  induction rest generalizing p with
  | nil => exact .inl ⟨rfl, rfl⟩
  | cons b rest ih =>
    cases hf : p.full with
    | true =>
      rw [write_cons_of_full hf]
      split
      · exact .inr (.inl ⟨rfl, List.nil_prefix⟩)
      · exact .inr (.inr ⟨b :: rest, rfl, rfl⟩)
    | false =>
      rw [write_cons hf]
      rcases ih (p.push b) with ⟨hends, hmoved⟩ | ⟨hends, hmoved⟩ | ⟨rest', hends, hmoved⟩
      · exact .inl ⟨hends, congrArg (b :: ·) hmoved⟩
      · exact .inr (.inl ⟨hends, List.cons_prefix_cons.2 ⟨rfl, hmoved⟩⟩)
      · exact .inr (.inr ⟨rest', hends, congrArg (b :: ·) hmoved⟩)

theorem Ok.copy (h : p.Ok) (k : ℕ) :
    (p.copy k).2.Ok ∧ p.buffered = (p.copy k).1 ++ (p.copy k).2.buffered := by
  induction k generalizing p with
  | zero =>
    rw [Pipe.copy]
    exact ⟨h, by rw [List.nil_append]⟩
  | succ k ih =>
    cases he : p.empty with
    | true =>
      have hcopy : p.copy (k + 1) = ([], p) := by simp only [Pipe.copy, he, if_true]
      rw [hcopy]
      exact ⟨h, by rw [List.nil_append]⟩
    | false =>
      obtain ⟨hok, hbuf⟩ := ih (h.pop he)
      simp only [Pipe.copy, he, Bool.false_eq_true, if_false]
      refine ⟨hok, ?_⟩
      rw [h.buffered_pop he, hbuf, List.cons_append]

theorem Ok.read (h : p.Ok) (killed : Bool) (n : ℤ) :
    (p.read killed n).pipe.Ok ∧
      p.buffered = (p.read killed n).moved ++ (p.read killed n).pipe.buffered := by
  rw [Pipe.read]
  split
  · split
    all_goals exact ⟨h, by rw [List.nil_append]⟩
  · exact h.copy n.toNat

end Pipe

/-! ## Processes -/

/-- Where a process is: outside the pipe's calls, in a call before it has acquired `p->lock`,
`SLEEPING` in a call, or woken there. -/
inductive PipeAt (β : Type)
  | user
  | enter (c : PipeCall β)
  | asleep (c : PipeCall β)
  | woken (c : PipeCall β)
  deriving DecidableEq

/-- A pipe and its processes. -/
structure Pipes (ι β : Type) where
  pipe : Pipe β
  place : ι → PipeAt β
  killed : ι → Bool
  /-- `pipeclose` has freed the page. -/
  freed : Bool

/-- The system calls: `write` of `addr[0 .. n)`, and `read` of `n` bytes. -/
inductive PipeArg (β : Type)
  | write (addr : ℕ → β) (n : ℤ)
  | read (n : ℤ)

/-- A process enters a call, goes on to its next `sleep` or its return, an end of the pipe is closed,
or a process is killed. -/
inductive PipeEvent (ι β : Type)
  | call (i : ι) (c : PipeArg β)
  | run (i : ι)
  | close (writable : Bool)
  | kill (i : ι)

/-- The bytes that a step stores and those that it delivers. -/
structure Moved (β : Type) where
  stored : List β
  delivered : List β

def PipeCall.chan {β : Type} : PipeCall β → PipeChan
  | .write _ _ => .nwrite
  | .read _ => .nread

/-- The call as it starts. -/
def PipeArg.call {β : Type} : PipeArg β → PipeCall β
  | .write addr n => .write n ((List.range n.toNat).map addr)
  | .read n => .read n

def PipeCall.rest {β : Type} : PipeCall β → List β
  | .write _ rest => rest
  | .read _ => []

def PipeAt.call {β : Type} : PipeAt β → Option (PipeCall β)
  | .user => none
  | .enter c | .asleep c | .woken c => some c

def PipeAt.wake {β : Type} (x : Option PipeChan) : PipeAt β → PipeAt β
  | .asleep c => if x = some c.chan then .woken c else .asleep c
  | a => a

theorem PipeAt.call_wake {β : Type} (x : Option PipeChan) (a : PipeAt β) :
    (a.wake x).call = a.call := by
  cases a with
  | asleep c =>
    rw [wake]
    split <;> rfl
  | _ => rfl

def PipeEnd.place {β : Type} : PipeEnd β → PipeAt β
  | .returns _ => .user
  | .sleeps c => .asleep c

namespace Pipes

variable {ι β : Type} [DecidableEq ι]

def start (data : Fin PIPESIZE → β) (killed : ι → Bool) : Pipes ι β :=
  ⟨.alloc data, fun _ => .user, killed, false⟩

def put (s : Pipes ι β) (i : ι) (t : Stretch β) : Pipes ι β :=
  { s with
    pipe := t.pipe
    place := update (fun j => (s.place j).wake t.wakes) i t.ends.place }

/-- The stretch of a call. -/
def stretch (s : Pipes ι β) (i : ι) : PipeCall β → Stretch β
  | .write n rest => s.pipe.write (s.killed i) n rest
  | .read n => s.pipe.read (s.killed i) n

def moved (s : Pipes ι β) (i : ι) : PipeCall β → Moved β
  | .write n rest => ⟨(s.pipe.write (s.killed i) n rest).moved, []⟩
  | .read n => ⟨[], (s.pipe.read (s.killed i) n).moved⟩

/-- `pipeclose` -/
def close (s : Pipes ι β) (writable : Bool) : Pipes ι β :=
  let p := if writable then { s.pipe with writeopen := false }
    else { s.pipe with readopen := false }
  { s with
    pipe := p
    place := fun j => (s.place j).wake (some (if writable then .nread else .nwrite))
    freed := p.readopen = false ∧ p.writeopen = false }

def kill (s : Pipes ι β) (i : ι) : Pipes ι β :=
  { s with
    place := update s.place i
      (match s.place i with
        | .asleep c => .woken c
        | a => a)
    killed := update s.killed i true }

def next (s : Pipes ι β) : PipeEvent ι β → Option (Moved β × Pipes ι β)
  | .call i c =>
    match s.place i with
    | .user =>
      if s.killed i = false ∧ s.freed = false then
        some (⟨[], []⟩, { s with place := update s.place i (.enter c.call) })
      else none
    | _ => none
  | .run i =>
    match s.place i with
    | .enter c | .woken c =>
      if s.freed = false then some (s.moved i c, s.put i (s.stretch i c)) else none
    | _ => none
  | .close writable => if s.freed = false then some (⟨[], []⟩, s.close writable) else none
  | .kill i => some (⟨[], []⟩, s.kill i)

def step (s : Pipes ι β) (e : PipeEvent ι β × Moved β) (s' : Pipes ι β) : Prop :=
  s.next e.1 = some (e.2, s')

def stored : List ((PipeEvent ι β × Moved β) × Pipes ι β) → List β
  | [] => []
  | (e, _) :: π => stored π ++ e.2.stored

def delivered : List ((PipeEvent ι β × Moved β) × Pipes ι β) → List β
  | [] => []
  | (e, _) :: π => delivered π ++ e.2.delivered

def written (i : ι) : List ((PipeEvent ι β × Moved β) × Pipes ι β) → List β
  | [] => []
  | ((.call j _, _), _) :: π => if j = i then [] else written i π
  | ((.run j, m), _) :: π => if j = i then written i π ++ m.stored else written i π
  | _ :: π => written i π

def asked (i : ι) : List ((PipeEvent ι β × Moved β) × Pipes ι β) → List β
  | [] => []
  | ((.call j c, _), _) :: π => if j = i then c.call.rest else asked i π
  | _ :: π => asked i π

/-- What process `i` has stored is what it was asked to: the first bytes in their order, all but those
that are left to a call in progress, and all if `write` has just returned `n`. -/
structure Tied (s₀ : Pipes ι β) (i : ι) (π : List ((PipeEvent ι β × Moved β) × Pipes ι β)) :
    Prop where
  sofar : written i π <+: asked i π
  left : ∀ c, ((last s₀ π).place i).call = some c → written i π ++ c.rest = asked i π
  length : ∀ n rest, ((last s₀ π).place i).call = some (.write n rest) →
    (asked i π).length = n.toNat
  returned : ∀ m s' π' n rest r, π = ((.run i, m), s') :: π' →
    ((last s₀ π').place i).call = some (.write n rest) →
    ((last s₀ π').stretch i (.write n rest)).ends = .returns r →
      r = n ∧ written i π = asked i π ∨ r = -1

variable {s s' : Pipes ι β} {e : PipeEvent ι β × Moved β}

theorem step_cases (h : s.step e s') :
    (∃ i c, e = (.call i c, ⟨[], []⟩) ∧ s.place i = .user ∧ s.killed i = false ∧
      s.freed = false ∧ s' = { s with place := update s.place i (.enter c.call) }) ∨
    (∃ i c, e = (.run i, s.moved i c) ∧ (s.place i = .enter c ∨ s.place i = .woken c) ∧
      s.freed = false ∧ s' = s.put i (s.stretch i c)) ∨
    (∃ writable, e = (.close writable, ⟨[], []⟩) ∧ s.freed = false ∧ s' = s.close writable) ∨
    ∃ i, e = (.kill i, ⟨[], []⟩) ∧ s' = s.kill i := by
  obtain ⟨e, m⟩ := e
  unfold step next at h
  cases e with
  | call i c =>
    dsimp only at h
    split at h
    · split at h
      · cases h
        exact .inl ⟨i, c, rfl, ‹_›, ‹_ ∧ _›.1, ‹_ ∧ _›.2, rfl⟩
      · cases h
    · cases h
  | run i =>
    dsimp only at h
    split at h
    · split at h
      · cases h
        exact .inr (.inl ⟨i, _, rfl, .inl ‹_›, ‹_›, rfl⟩)
      · cases h
    · split at h
      · cases h
        exact .inr (.inl ⟨i, _, rfl, .inr ‹_›, ‹_›, rfl⟩)
      · cases h
    · cases h
  | close writable =>
    dsimp only at h
    split at h
    · cases h
      exact .inr (.inr (.inl ⟨writable, rfl, ‹_›, rfl⟩))
    · cases h
  | kill i =>
    cases h
    exact .inr (.inr (.inr ⟨i, rfl, rfl⟩))

omit [DecidableEq ι] in
theorem close_pipe (s : Pipes ι β) (writable : Bool) :
    (s.close writable).pipe.data = s.pipe.data ∧ (s.close writable).pipe.nread = s.pipe.nread ∧
      (s.close writable).pipe.nwrite = s.pipe.nwrite := by
  cases writable
  · exact ⟨rfl, rfl, rfl⟩
  · exact ⟨rfl, rfl, rfl⟩

theorem step_buffered (h : s.step e s') (hok : s.pipe.Ok) :
    s'.pipe.Ok ∧ s.pipe.buffered ++ e.2.stored = e.2.delivered ++ s'.pipe.buffered := by
  obtain ⟨i, c, rfl, -, -, -, rfl⟩ | ⟨i, c, rfl, -, -, rfl⟩ | ⟨writable, rfl, -, rfl⟩ | ⟨i, rfl, rfl⟩ :=
    step_cases h
  · refine ⟨hok, ?_⟩
    show s.pipe.buffered ++ [] = [] ++ s.pipe.buffered
    rw [List.append_nil, List.nil_append]
  · cases c with
    | write n rest =>
      obtain ⟨hok', hbuf⟩ := hok.write (s.killed i) n rest
      refine ⟨hok', ?_⟩
      show s.pipe.buffered ++ (s.pipe.write (s.killed i) n rest).moved =
        [] ++ (s.pipe.write (s.killed i) n rest).pipe.buffered
      rw [List.nil_append]
      exact hbuf.symm
    | read n =>
      obtain ⟨hok', hbuf⟩ := hok.read (s.killed i) n
      refine ⟨hok', ?_⟩
      show s.pipe.buffered ++ [] =
        (s.pipe.read (s.killed i) n).moved ++ (s.pipe.read (s.killed i) n).pipe.buffered
      rw [List.append_nil]
      exact hbuf
  · obtain ⟨hdata, hread, hwrite⟩ := s.close_pipe writable
    have hcount : (s.close writable).pipe.count = s.pipe.count := by
      rw [Pipe.count, hread, hwrite, Pipe.count]
    have hok' : (s.close writable).pipe.Ok := by
      refine ⟨?_, ?_, ?_⟩
      · rw [hread]
        exact hok.nread
      · rw [hwrite]
        exact hok.nwrite
      · rw [hcount]
        exact hok.count
    refine ⟨hok', ?_⟩
    show s.pipe.buffered ++ [] = [] ++ (s.close writable).pipe.buffered
    rw [Pipe.buffered_congr hdata hread hwrite, List.append_nil, List.nil_append]
  · refine ⟨hok, ?_⟩
    show s.pipe.buffered ++ [] = [] ++ s.pipe.buffered
    rw [List.append_nil, List.nil_append]

theorem Tied.frame {s₀ : Pipes ι β} {i : ι} {π : List ((PipeEvent ι β × Moved β) × Pipes ι β)}
    (h : Tied s₀ i π) (hw : written i ((e, s') :: π) = written i π)
    (ha : asked i ((e, s') :: π) = asked i π) (hrun : e.1 ≠ .run i)
    (hcall : (s'.place i).call = ((last s₀ π).place i).call) : Tied s₀ i ((e, s') :: π) where
  sofar := by
    rw [hw, ha]
    exact h.sofar
  left c hc := by
    rw [hw, ha]
    exact h.left c (hcall.symm.trans hc)
  length n rest hc := by
    rw [ha]
    exact h.length n rest (hcall.symm.trans hc)
  returned m t π' n rest r hπ := by
    cases hπ
    exact absurd rfl hrun

omit [DecidableEq ι] in
theorem stretch_stored (s : Pipes ι β) (i : ι) (c : PipeCall β) :
    (∃ c', (s.stretch i c).ends = .sleeps c' ∧ (s.moved i c).stored ++ c'.rest = c.rest ∧
      ∀ n rest, c' = .write n rest → ∃ rest', c = .write n rest') ∨
    ∃ r, (s.stretch i c).ends = .returns r ∧ (s.moved i c).stored <+: c.rest ∧
      ∀ n rest, c = .write n rest → r = n ∧ (s.moved i c).stored = rest ∨ r = -1 := by
  cases c with
  | write n rest =>
    rcases Pipe.write_moved (s.killed i) n rest s.pipe with ⟨hends, hmoved⟩ | ⟨hends, hmoved⟩ |
      ⟨rest', hends, hmoved⟩
    · have hall : (s.moved i (.write n rest)).stored = rest := hmoved
      refine .inr ⟨n, hends, hall.symm ▸ List.prefix_refl _, fun m rest' hc => ?_⟩
      cases hc
      exact .inl ⟨rfl, hall⟩
    · exact .inr ⟨-1, hends, hmoved, fun _ _ _ => .inr rfl⟩
    · refine .inl ⟨_, hends, hmoved, fun m rest'' hc => ?_⟩
      cases hc
      exact ⟨rest, rfl⟩
  | read n =>
    have hread : (s.stretch i (.read n)).ends = .sleeps (.read n) ∨
        ∃ r, (s.stretch i (.read n)).ends = .returns r := by
      show (s.pipe.read (s.killed i) n).ends = _ ∨ ∃ r, (s.pipe.read (s.killed i) n).ends = _
      unfold Pipe.read
      split
      · split
        · exact .inr ⟨_, rfl⟩
        · exact .inl rfl
      · exact .inr ⟨_, rfl⟩
    rcases hread with hends | ⟨r, hends⟩
    · exact .inl ⟨_, hends, rfl, fun m rest hc => by cases hc⟩
    · exact .inr ⟨r, hends, List.prefix_refl _, fun m rest hc => by cases hc⟩

theorem Tied.stretch {s₀ : Pipes ι β} {i : ι} {π : List ((PipeEvent ι β × Moved β) × Pipes ι β)}
    {c : PipeCall β} (h : Tied s₀ i π) (hcall : ((last s₀ π).place i).call = some c) :
    Tied s₀ i (((.run i, (last s₀ π).moved i c), (last s₀ π).put i ((last s₀ π).stretch i c)) ::
      π) := by
  have hw : ∀ s', written i (((.run i, (last s₀ π).moved i c), s') :: π) =
      written i π ++ ((last s₀ π).moved i c).stored := fun _ => if_pos rfl
  have hplace : (((last s₀ π).put i ((last s₀ π).stretch i c)).place i).call =
      ((last s₀ π).stretch i c).ends.place.call := by
    simp only [put, update_self]
  have hleft := h.left c hcall
  rcases (last s₀ π).stretch_stored i c with ⟨c', hends, hrest, hc'⟩ | ⟨r, hends, hrest, hr⟩
  · rw [hends] at hplace
    have hall : written i π ++ ((last s₀ π).moved i c).stored ++ c'.rest = asked i π := by
      rw [List.append_assoc, hrest, hleft]
    refine ⟨?_, fun d hd => ?_, fun n rest hd => ?_, fun m t π' n rest r hπ hd hr => ?_⟩
    · rw [hw]
      exact ⟨_, hall⟩
    · cases hplace.symm.trans hd
      rw [hw]
      exact hall
    · cases hplace.symm.trans hd
      obtain ⟨rest', rfl⟩ := hc' n rest rfl
      exact h.length n rest' hcall
    · cases hπ
      cases hcall.symm.trans hd
      cases hends.symm.trans hr
  · rw [hends] at hplace
    have hasked : ∀ s', asked i (((.run i, (last s₀ π).moved i c), s') :: π) = asked i π :=
      fun _ => rfl
    refine ⟨?_, fun d hd => ?_, fun n rest hd => ?_, fun m t π' n rest r' hπ hd hr' => ?_⟩
    · rw [hw, hasked, ← hleft]
      exact (List.prefix_append_right_inj _).2 hrest
    · cases hplace.symm.trans hd
    · cases hplace.symm.trans hd
    · cases hπ
      cases hcall.symm.trans hd
      cases hends.symm.trans hr'
      refine (hr n rest rfl).imp_left fun hdone => ⟨hdone.1, ?_⟩
      rw [hw, hdone.2]
      exact hleft

theorem Tied.step {s₀ : Pipes ι β} {i : ι} {π : List ((PipeEvent ι β × Moved β) × Pipes ι β)}
    (h : Tied s₀ i π) (hs : Pipes.step (last s₀ π) e s') : Tied s₀ i ((e, s') :: π) := by
  obtain ⟨j, c, rfl, -, -, -, rfl⟩ | ⟨j, c, rfl, hplace, -, rfl⟩ | ⟨writable, rfl, -, rfl⟩ |
    ⟨j, rfl, rfl⟩ := step_cases hs
  · by_cases hj : j = i
    · subst hj
      refine ⟨?_, fun c' hc' => ?_, fun n rest hc' => ?_, fun m t π' n rest r hπ => by cases hπ⟩
      all_goals simp only [written, asked, if_true]
      · exact List.nil_prefix
      · simp only [last_cons, update_self, PipeAt.call, Option.some.injEq] at hc'
        rw [← hc', List.nil_append]
      · simp only [last_cons, update_self, PipeAt.call, Option.some.injEq] at hc'
        cases c with
        | write addr m =>
          cases hc'
          simp [PipeArg.call, PipeCall.rest]
        | read m => cases hc'
    · refine h.frame (if_neg hj) (if_neg hj) (by simp) ?_
      exact congrArg PipeAt.call (update_of_ne (Ne.symm hj) ..)
  · have hcall : ((last s₀ π).place j).call = some c := by
      rcases hplace with hplace | hplace
      · rw [hplace]
        rfl
      · rw [hplace]
        rfl
    by_cases hj : j = i
    · subst hj
      exact h.stretch hcall
    · refine h.frame (if_neg hj) rfl (fun heq => hj (by cases heq; rfl)) ?_
      show (update (fun j => ((last s₀ π).place j).wake _) j _ i).call = _
      rw [update_of_ne (Ne.symm hj)]
      exact PipeAt.call_wake ..
  · exact h.frame rfl rfl (by simp) (PipeAt.call_wake ..)
  · refine h.frame rfl rfl (by simp) ?_
    show (update (last s₀ π).place j _ i).call = _
    by_cases hj : i = j
    · subst hj
      rw [update_self]
      split
      · rename_i hplace
        rw [hplace]
        rfl
      · rfl
    · rw [update_of_ne hj]

/-- The bytes of a pipe arrive in the order in which they were stored, each once: those that have
been delivered, followed by those in the buffer, are those that have been stored. And every call of
`write` stores its bytes in their order, all if it returns `n`. -/
theorem stored_eq_delivered_append {data : Fin PIPESIZE → β} {killed : ι → Bool}
    {π : List ((PipeEvent ι β × Moved β) × Pipes ι β)} (h : IsRun step (start data killed) π) :
    (last (start data killed) π).pipe.count ≤ PIPESIZE ∧
      stored π = delivered π ++ (last (start data killed) π).pipe.buffered ∧
      ∀ i, Tied (start data killed) i π := by
  have hok : ∀ π, IsRun step (start data killed) π → (last (start data killed) π).pipe.Ok ∧
      stored π = delivered π ++ (last (start data killed) π).pipe.buffered := by
    intro π hπ
    induction π with
    | nil =>
      refine ⟨Pipe.ok_alloc data, ?_⟩
      show [] = [] ++ (Pipe.alloc data).buffered
      rw [Pipe.buffered, Pipe.count_alloc, List.nil_append]
      rfl
    | cons x π ih =>
      obtain ⟨e, s'⟩ := x
      obtain ⟨hok, hstored⟩ := ih hπ.2
      obtain ⟨hok', hbuf⟩ := step_buffered hπ.1 hok
      refine ⟨hok', ?_⟩
      calc stored π ++ e.2.stored
          = delivered π ++ ((last (start data killed) π).pipe.buffered ++ e.2.stored) := by
            rw [hstored, List.append_assoc]
        _ = delivered π ++ (e.2.delivered ++ s'.pipe.buffered) := by rw [hbuf]
        _ = delivered π ++ e.2.delivered ++ s'.pipe.buffered := by rw [List.append_assoc]
  refine ⟨(hok π h).1.count, (hok π h).2, fun i => ?_⟩
  have hstart : Tied (start data killed) i [] :=
    ⟨List.prefix_refl _, fun c hc => (by cases hc), fun n rest hc => (by cases hc),
      fun m s' π' n rest r hπ => (by cases hπ)⟩
  exact (h.along (P := Tied (start data killed) i) hstart fun e s π _ ht hs => ht.step hs).here

/-- A writer stores three bytes, and a reader takes two of them. -/
theorem stored_eq_delivered_append_two :
    ∃ π : List ((PipeEvent Bool ℕ × Moved ℕ) × Pipes Bool ℕ),
      IsRun step (start (fun _ => 0) fun _ => false) π ∧ stored π = [7, 8, 9] ∧
      delivered π = [7, 8] ∧
      stored π = delivered π ++ (last (start (fun _ => 0) fun _ => false) π).pipe.buffered ∧
      written true π <+: [7, 8, 9] := by
  have heval : (history (tickOut next)
      (start (fun _ => 0) fun _ => false) [] [.call true (.write (· + 7) 3), .run true,
        .call false (.read 2), .run false]).map (fun π => (stored π, delivered π, asked true π)) =
      some ([7, 8, 9], [7, 8], [7, 8, 9]) := by
    decide +kernel
  obtain ⟨π, hrun, heq⟩ := exists_run_tickOut heval
  simp only [Prod.mk.injEq] at heq
  obtain ⟨hs, hd, ha⟩ := heq
  obtain ⟨-, hstored, htied⟩ := stored_eq_delivered_append hrun
  exact ⟨π, hrun, hs, hd, hstored, ha ▸ (htied true).sofar⟩

end Pipes

end Xv6
