import Xv6.Lib.Run
import Xv6.Lib.Word
import Xv6.Lib.Bytes
import Mathlib.Data.Int.Notation
import Mathlib.Tactic.Common

/-!
# Console input

`consoleintr` and `consoleread` of `console.c`. The input buffer is a ring of `INPUT_BUF` bytes with
three indices that count for ever: the bytes from `r` to `w` have been committed and wait for a
reader, those from `w` to `e` are the line that is being typed and can still be edited.

Any number of processes read the console. What a call does from the point where it holds `cons.lock`
to its next `sleep` or its return is one step, and so is an interrupt with all the characters that
it finds. What is printed, and `procdump`, are left out.
-/

namespace Xv6

open Function Run

def INPUT_BUF : ℕ := 128

theorem INPUT_BUF_pos : 0 < INPUT_BUF := by decide

theorem INPUT_BUF_dvd : INPUT_BUF ∣ 4294967296 := by decide

/-- `input`: the read, write and edit indices are `uint`s. -/
structure Input where
  buf : Fin INPUT_BUF → Byte
  r : ℕ
  w : ℕ
  e : ℕ

/-- How a stretch of `consoleread` under `cons.lock` ends: it returns, or it sleeps with `n` bytes
still to read. -/
inductive ReadEnd
  | returns (v : ℤ)
  | sleeps (n : ℕ)

/-- What a stretch of `consoleread` does: the input buffer after it, the bytes that it stores at
`dst`, whether it has consumed a `^D`, and how it ends. -/
structure ReadStretch where
  input : Input
  moved : List Byte
  eof : Bool
  ends : ReadEnd

namespace Input

/-- `C(x)` -/
def C (x : Char) : Byte := BitVec.ofNat 8 (x.toNat - '@'.toNat)

/-- A character constant. -/
def char (x : Char) : Byte := BitVec.ofNat 8 x.toNat

/-- `input.e--` -/
def back (s : Input) : Input := { s with e := uint (4294967295 + s.e) }

def newest (s : Input) : Byte := s.buf (Ring.cell INPUT_BUF_pos (uint (4294967295 + s.e)))

def editing (s : Input) : ℕ := uint (s.e + 4294967296 - s.w)

def killLoop : ℕ → Input → Input
  | 0, s => s
  | fuel + 1, s => if s.e ≠ s.w ∧ s.newest ≠ char '\n' then killLoop fuel s.back else s

/-- `case C('U')` -/
def kill (s : Input) : Input := killLoop s.editing s

/-- `case C('H')` -/
def backspace (s : Input) : Input := if s.e ≠ s.w then s.back else s

def push (s : Input) (c : Byte) : Input :=
  { s with buf := update s.buf (Ring.cell INPUT_BUF_pos s.e) c, e := uint (s.e + 1) }

/-- `input.w = input.e` -/
def commit (s : Input) : Input := { s with w := s.e }

def count (s : Input) : ℕ := uint (s.e + 4294967296 - s.r)

def type (s : Input) (c : Byte) : Input × Bool :=
  let s := s.push c
  if c = char '\n' ∨ c = C 'D' ∨ s.e = uint (s.r + INPUT_BUF) then (s.commit, true) else (s, false)

def key (s : Input) (c : Byte) : Input × Bool :=
  if c = C 'P' then (s, false)
  else if c = C 'U' then (s.kill, false)
  else if c = C 'H' ∨ c = char '\x7f' then (s.backspace, false)
  else if c ≠ 0 ∧ s.count < INPUT_BUF then s.type (if c = char '\r' then char '\n' else c)
  else (s, false)

def consoleintr : List Byte → Input → Input × Bool
  | [], s => (s, false)
  | c :: cs, s =>
    let k := s.key c
    let t := consoleintr cs k.1
    (t.1, k.2 || t.2)

def front (s : Input) : Byte := s.buf (Ring.cell INPUT_BUF_pos s.r)

/-- `input.r++` -/
def pop (s : Input) : Input := { s with r := uint (s.r + 1) }

/-- `input.r--` -/
def unpop (s : Input) : Input := { s with r := uint (4294967295 + s.r) }

def consoleread (killed : Bool) (target : ℕ) : ℕ → Input → ReadStretch
  | 0, s => ⟨s, [], false, .returns target⟩
  | n + 1, s =>
    if s.r = s.w then
      if killed then ⟨s, [], false, .returns (-1)⟩ else ⟨s, [], false, .sleeps (n + 1)⟩
    else if s.front = C 'D' then
      if n + 1 < target then ⟨s.pop.unpop, [], false, .returns (target - (n + 1 : ℕ))⟩
      else ⟨s.pop, [], true, .returns (target - (n + 1 : ℕ))⟩
    else if s.front = char '\n' then ⟨s.pop, [s.front], false, .returns (target - n)⟩
    else
      let t := consoleread killed target n s.pop
      ⟨t.input, s.front :: t.moved, t.eof, t.ends⟩

/-! ## The indices -/

def ready (s : Input) : ℕ := uint (s.w + 4294967296 - s.r)

/-- The indices are words, in the order `r`, `w`, `e`, and not more than `INPUT_BUF` apart. -/
structure Ok (s : Input) : Prop where
  r : s.r < 4294967296
  w : s.w < 4294967296
  e : s.e < 4294967296
  ready_le : s.ready ≤ s.count
  count_le : s.count ≤ INPUT_BUF

def unread (s : Input) : List Byte := Ring.window INPUT_BUF_pos s.buf s.r s.ready

def line (s : Input) : List Byte := Ring.window INPUT_BUF_pos s.buf s.w s.editing

@[simp] theorem length_unread (s : Input) : s.unread.length = s.ready := Ring.length_window _ _ _ _

@[simp] theorem length_line (s : Input) : s.line.length = s.editing := Ring.length_window _ _ _ _

variable {s : Input}

theorem Ok.w_eq (h : s.Ok) : s.w = uint (s.r + s.ready) := by
  obtain ⟨hr, hw, he, hle, hcount⟩ := h
  simp only [ready, uint]
  omega

theorem Ok.e_eq (h : s.Ok) : s.e = uint (s.w + s.editing) := by
  obtain ⟨hr, hw, he, hle, hcount⟩ := h
  simp only [editing, uint]
  omega

theorem Ok.count_eq (h : s.Ok) : s.count = s.ready + s.editing := by
  obtain ⟨hr, hw, he, hle, hcount⟩ := h
  simp only [ready, editing, Input.count, uint, INPUT_BUF] at *
  omega

theorem Ok.e_eq_w_iff (h : s.Ok) : s.e = s.w ↔ s.editing = 0 := by
  obtain ⟨hr, hw, he, hle, hcount⟩ := h
  simp only [ready, editing, Input.count, uint, INPUT_BUF] at *
  omega

/-! ## Editing -/

theorem Ok.back (h : s.Ok) (he : s.e ≠ s.w) : s.back.Ok ∧ s.editing = s.back.editing + 1 := by
  obtain ⟨hr, hw, he, hle, hcount⟩ := h
  refine ⟨⟨hr, hw, uint_lt _, ?_, ?_⟩, ?_⟩
  all_goals
    simp only [ready, editing, Input.count, Input.back, uint, INPUT_BUF] at *
    omega

theorem Ok.line_eq (h : s.Ok) (he : s.e ≠ s.w) : s.line = s.back.line ++ [s.newest] := by
  obtain ⟨hback, hediting⟩ := h.back he
  have hcell : Ring.cell INPUT_BUF_pos (uint (4294967295 + s.e)) =
      Ring.cell INPUT_BUF_pos (s.w + s.back.editing) := by
    have heq : s.back.e = uint (s.w + s.back.editing) := hback.e_eq
    rw [← Ring.cell_uint INPUT_BUF_pos INPUT_BUF_dvd (s.w + s.back.editing), ← heq, Input.back]
  rw [line, line, hediting, Ring.window_add, Ring.window_one, newest, hcell, Input.back]

theorem Ok.line_back (h : s.Ok) (he : s.e ≠ s.w) : s.back.line = s.line.dropLast := by
  rw [h.line_eq he, List.dropLast_concat]

theorem Ok.backspace (h : s.Ok) : s.backspace.Ok ∧ s.backspace.line = s.line.dropLast := by
  unfold Input.backspace
  split
  · rename_i he
    exact ⟨(h.back he).1, h.line_back he⟩
  · rename_i he
    have hnil : s.line = [] := by
      rw [← List.length_eq_zero_iff, length_line]
      exact h.e_eq_w_iff.1 (not_not.1 he)
    refine ⟨h, ?_⟩
    rw [hnil]
    rfl

theorem killLoop_same (fuel : ℕ) (s : Input) :
    (killLoop fuel s).buf = s.buf ∧ (killLoop fuel s).r = s.r ∧ (killLoop fuel s).w = s.w := by
  induction fuel generalizing s with
  | zero => exact ⟨rfl, rfl, rfl⟩
  | succ fuel ih =>
    rw [killLoop]
    split
    · exact ih s.back
    · exact ⟨rfl, rfl, rfl⟩

theorem Ok.killLoop (h : s.Ok) {fuel : ℕ} (hfuel : s.editing ≤ fuel) :
    (killLoop fuel s).Ok ∧
      ((killLoop fuel s).e = (killLoop fuel s).w ∨ (killLoop fuel s).newest = char '\n') := by
  induction fuel generalizing s with
  | zero => exact ⟨h, .inl (h.e_eq_w_iff.2 (Nat.le_zero.1 hfuel))⟩
  | succ fuel ih =>
    rw [Input.killLoop]
    split
    · rename_i htest
      obtain ⟨hback, hediting⟩ := h.back htest.1
      exact ih hback (by omega)
    · rename_i htest
      exact ⟨h, by rwa [not_and_or, not_not, not_not] at htest⟩

theorem Ok.line_killLoop (h : s.Ok) (hline : char '\n' ∉ s.line) {fuel : ℕ}
    (hfuel : s.editing ≤ fuel) : (Input.killLoop fuel s).line = [] := by
  induction fuel generalizing s with
  | zero =>
    rw [← List.length_eq_zero_iff, Input.killLoop, length_line]
    exact Nat.le_zero.1 hfuel
  | succ fuel ih =>
    rw [Input.killLoop]
    split
    · rename_i htest
      obtain ⟨hback, hediting⟩ := h.back htest.1
      rw [h.line_eq htest.1] at hline
      exact ih hback (fun hmem => hline (List.mem_append_left _ hmem)) (by omega)
    · rename_i htest
      rw [← List.length_eq_zero_iff, length_line]
      refine h.e_eq_w_iff.1 (Decidable.byContradiction fun hne => htest ⟨hne, fun hnew => hline ?_⟩)
      rw [h.line_eq hne, hnew]
      exact List.mem_append_right _ (List.mem_singleton_self _)

/-! ## Typing -/

theorem Ok.push (h : s.Ok) (hroom : s.count < INPUT_BUF) (c : Byte) :
    (s.push c).Ok ∧ (s.push c).editing = s.editing + 1 := by
  obtain ⟨hr, hw, he, hle, hcount⟩ := h
  refine ⟨⟨hr, hw, uint_lt _, ?_, ?_⟩, ?_⟩
  all_goals
    simp only [ready, editing, Input.count, Input.push, uint, INPUT_BUF] at *
    omega

theorem Ok.cell_e (h : s.Ok) :
    Ring.cell INPUT_BUF_pos s.e = Ring.cell INPUT_BUF_pos (s.r + s.count) := by
  rw [← Ring.cell_uint INPUT_BUF_pos INPUT_BUF_dvd (s.r + s.count)]
  congr 1
  rw [h.e_eq, h.w_eq, h.count_eq]
  simp only [uint]
  omega

theorem Ok.unread_push (h : s.Ok) (hroom : s.count < INPUT_BUF) (c : Byte) :
    (s.push c).unread = s.unread := by
  show Ring.window _ (update s.buf (Ring.cell INPUT_BUF_pos s.e) c) s.r s.ready = _
  rw [h.cell_e]
  exact Ring.window_update INPUT_BUF_pos s.buf s.r c h.ready_le hroom

theorem Ok.line_push (h : s.Ok) (hroom : s.count < INPUT_BUF) (c : Byte) :
    (s.push c).line = s.line ++ [c] := by
  have hcell : Ring.cell INPUT_BUF_pos s.e = Ring.cell INPUT_BUF_pos (s.w + s.editing) := by
    rw [h.e_eq, Ring.cell_uint INPUT_BUF_pos INPUT_BUF_dvd]
  have hlt : s.editing < INPUT_BUF := by
    have := h.count_eq
    omega
  rw [line, (h.push hroom c).2]
  show Ring.window _ (update s.buf (Ring.cell INPUT_BUF_pos s.e) c) s.w _ = _
  rw [hcell]
  exact Ring.window_push INPUT_BUF_pos s.buf s.w c hlt

theorem Ok.commit (h : s.Ok) :
    s.commit.Ok ∧ s.commit.unread = s.unread ++ s.line ∧ s.commit.line = [] := by
  refine ⟨⟨h.r, h.e, h.e, le_rfl, h.count_le⟩, ?_, ?_⟩
  · show Ring.window INPUT_BUF_pos s.buf s.r s.count = _
    rw [h.count_eq, Ring.window_add, unread, line, h.w_eq,
      Ring.window_uint INPUT_BUF_pos INPUT_BUF_dvd]
  · rw [← List.length_eq_zero_iff, length_line]
    simp [editing, Input.commit, uint]

theorem Ok.full_iff (h : s.Ok) : s.e = uint (s.r + INPUT_BUF) ↔ s.count = INPUT_BUF := by
  obtain ⟨hr, hw, he, hle, hcount⟩ := h
  simp only [ready, Input.count, uint, INPUT_BUF] at *
  omega

/-! ## Reading -/

theorem Ok.pop (h : s.Ok) (hne : s.r ≠ s.w) : s.pop.Ok ∧ s.ready = s.pop.ready + 1 := by
  obtain ⟨hr, hw, he, hle, hcount⟩ := h
  refine ⟨⟨uint_lt _, hw, he, ?_, ?_⟩, ?_⟩
  all_goals
    simp only [ready, Input.count, Input.pop, uint, INPUT_BUF] at *
    omega

theorem line_pop (s : Input) : s.pop.line = s.line := by
  simp only [line, editing, Input.pop]

theorem Ok.unread_eq (h : s.Ok) (hne : s.r ≠ s.w) : s.unread = s.front :: s.pop.unread := by
  rw [unread, (h.pop hne).2, Ring.window_succ]
  congr 1
  exact (Ring.window_uint INPUT_BUF_pos INPUT_BUF_dvd s.buf (s.r + 1) _).symm

theorem Ok.unpop_pop (h : s.Ok) : s.pop.unpop = s := by
  have hr := h.r
  have heq : uint (4294967295 + uint (s.r + 1)) = s.r := by
    simp only [uint]
    omega
  show { s with r := uint (4294967295 + uint (s.r + 1)) } = s
  rw [heq]

end Input

/-! ## Processes -/

/-- A call of `consoleread`, with the bytes that it still has to read. -/
structure ReadCall where
  target : ℕ
  n : ℕ
  deriving DecidableEq

/-- Where a process is: outside `consoleread`, in a call before it has acquired `cons.lock`,
`SLEEPING` on `input.r`, or woken there. -/
inductive ConsAt
  | user
  | enter (c : ReadCall)
  | asleep (c : ReadCall)
  | woken (c : ReadCall)
  deriving DecidableEq

/-- The console and its readers. -/
structure Consoles (ι : Type) where
  input : Input
  place : ι → ConsAt
  killed : ι → Bool

/-- An interrupt delivers characters, a process enters a call for `n` bytes, goes on to its next
`sleep` or its return, or is killed. -/
inductive ConsEvent (ι : Type)
  | intr (cs : List Byte)
  | call (i : ι) (n : ℤ)
  | run (i : ι)
  | kill (i : ι)
  deriving DecidableEq

/-- What is seen of a step: the bytes that it takes out of the buffer for good, a consumed `^D`
among them, and the value that the call returns, if it does. -/
structure Took where
  bytes : List Byte
  value : Option ℤ
  deriving DecidableEq

def ConsAt.wake : ConsAt → ConsAt
  | .asleep c => .woken c
  | a => a

def ConsAt.call : ConsAt → Option ReadCall
  | .user => none
  | .enter c | .asleep c | .woken c => some c

namespace ReadStretch

def taken (t : ReadStretch) : List Byte := t.moved ++ if t.eof then [Input.C 'D'] else []

def value (t : ReadStretch) : Option ℤ :=
  match t.ends with
  | .returns v => some v
  | .sleeps _ => none

def place (t : ReadStretch) (target : ℕ) : ConsAt :=
  match t.ends with
  | .returns _ => .user
  | .sleeps n => .asleep ⟨target, n⟩

end ReadStretch

namespace Consoles

variable {ι : Type} [DecidableEq ι]

/-- `consoleintr` -/
def intr (s : Consoles ι) (cs : List Byte) : Consoles ι :=
  let t := Input.consoleintr cs s.input
  { s with input := t.1, place := fun j => if t.2 then (s.place j).wake else s.place j }

/-- The stretch of a call. -/
def stretch (s : Consoles ι) (i : ι) (c : ReadCall) : ReadStretch :=
  Input.consoleread (s.killed i) c.target c.n s.input

def next (s : Consoles ι) : ConsEvent ι → Option (Took × Consoles ι)
  | .intr cs => some (⟨[], none⟩, s.intr cs)
  | .call i n =>
    if s.place i = .user then
      some (⟨[], none⟩,
        { s with place := update s.place i (.enter ⟨n.toNat, n.toNat⟩) })
    else none
  | .run i =>
    match s.place i with
    | .enter c | .woken c =>
      let t := s.stretch i c
      some (⟨t.taken, t.value⟩,
        { s with input := t.input, place := update s.place i (t.place c.target) })
    | _ => none
  | .kill i =>
    some (⟨[], none⟩,
      { s with
        place := update s.place i (s.place i).wake
        killed := update s.killed i true })

def step (s : Consoles ι) (e : ConsEvent ι × Took) (s' : Consoles ι) : Prop :=
  s.next e.1 = some (e.2, s')

variable {s₀ s s' : Consoles ι} {e : ConsEvent ι × Took}

theorem step_cases (h : s.step e s') :
    (∃ cs, e = (.intr cs, ⟨[], none⟩) ∧ s' = s.intr cs) ∨
    (∃ i n, e = (.call i n, ⟨[], none⟩) ∧ s.place i = .user ∧
      s' = { s with place := update s.place i (.enter ⟨n.toNat, n.toNat⟩) }) ∨
    (∃ i c, e = (.run i, ⟨(s.stretch i c).taken, (s.stretch i c).value⟩) ∧
      (s.place i).call = some c ∧
      s' = { s with
        input := (s.stretch i c).input
        place := update s.place i ((s.stretch i c).place c.target) }) ∨
    ∃ i, e = (.kill i, ⟨[], none⟩) ∧
      s' = { s with
        place := update s.place i (s.place i).wake
        killed := update s.killed i true } := by
  obtain ⟨e, m⟩ := e
  unfold step next at h
  cases e with
  | intr cs =>
    cases h
    exact .inl ⟨cs, rfl, rfl⟩
  | call i n =>
    dsimp only at h
    split at h
    · cases h
      exact .inr (.inl ⟨i, n, rfl, ‹_›, rfl⟩)
    · cases h
  | run i =>
    dsimp only at h
    split at h
    · rename_i c hplace
      cases h
      exact .inr (.inr (.inl ⟨i, c, rfl, by rw [hplace]; rfl, rfl⟩))
    · rename_i c hplace
      cases h
      exact .inr (.inr (.inl ⟨i, c, rfl, by rw [hplace]; rfl, rfl⟩))
    · cases h
  | kill i =>
    cases h
    exact .inr (.inr (.inr ⟨i, rfl, rfl⟩))

end Consoles

end Xv6
