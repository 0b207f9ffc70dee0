import Xv6.Lib.CArray
import Xv6.Lib.Ring
import Xv6.Lib.Run
import Xv6.Param
import Mathlib.Tactic.Common

/-!
# The message queue

`struct queue` of `proc.c`: a ring of `MSGBUFFSIZE` messages of 8 bytes, with `front` naming the
slot before the oldest message and `rear` that of the newest. `enqueue` and `dequeue` step their
cursors modulo `MSGBUFFSIZE`. `front()` adds one to the cursor without the modulus, so that it is
outside the array when the oldest message is in slot `0`.

What the queue is for is a bounded FIFO: `Fifo` says what each call of a run must do, in terms of
the messages that earlier calls of the run have accepted and dropped. The ring invariant `Stores`
carries all of it but the index of `front()`.

The field `capacity`, which nothing reads, and the lock are left out.
-/

namespace Xv6

open Run

/-- A message: 8 bytes. -/
abbrev Msg := Fin 8 → UInt8

/-- `struct queue`. -/
structure Queue where
  front : ℕ
  rear : ℕ
  size : ℕ
  array : Fin MSGBUFFSIZE → Msg

namespace Queue

theorem MSGBUFFSIZE_pos : 0 < MSGBUFFSIZE := by decide

abbrev slot (i : ℕ) : Fin MSGBUFFSIZE := Ring.cell MSGBUFFSIZE_pos i

def zero : Queue := ⟨0, 0, 0, fun _ _ => 0⟩

def isEmpty (q : Queue) : Bool := q.size = 0

def enqueue (item : Msg) (q : Queue) : ℤ × Queue :=
  if q.size = MSGBUFFSIZE then (-1, q)
  else
    (0, { q with
      rear := (q.rear + 1) % MSGBUFFSIZE
      array := Function.update q.array (slot (q.rear + 1)) item
      size := q.size + 1 })

def dequeue (q : Queue) : ℤ × Queue :=
  if q.isEmpty then (-1, q)
  else (0, { q with front := (q.front + 1) % MSGBUFFSIZE, size := q.size - 1 })

def frontItem (q : Queue) : Option Msg := CArray.rd q.array (q.front + 1 : ℕ)

/-- A call with its arguments. -/
inductive Op
  | enqueue (item : Msg)
  | dequeue

def Op.exec : Op → Queue → ℤ × Queue
  | .enqueue item => Queue.enqueue item
  | .dequeue => Queue.dequeue

def step (q : Queue) (e : Op × ℤ) (q' : Queue) : Prop := e.1.exec q = (e.2, q')

/-! ## The bounded FIFO -/

def accepted : List ((Op × ℤ) × Queue) → List Msg
  | [] => []
  | ((.enqueue item, r), _) :: π => if r = 0 then accepted π ++ [item] else accepted π
  | _ :: π => accepted π

def dropped : List ((Op × ℤ) × Queue) → ℕ
  | [] => 0
  | ((.dequeue, r), _) :: π => if r = 0 then dropped π + 1 else dropped π
  | _ :: π => dropped π

def stored (π : List ((Op × ℤ) × Queue)) : List Msg := (accepted π).drop (dropped π)

def Fifo (q₀ : Queue) : List ((Op × ℤ) × Queue) → Prop
  | [] => True
  | ((.enqueue _, r), q') :: π =>
    (r = -1 ↔ (stored π).length = MSGBUFFSIZE) ∧ (r = 0 ∨ r = -1 ∧ q' = last q₀ π)
  | ((.dequeue, r), q') :: π =>
    (r = -1 ↔ stored π = []) ∧ (r = 0 ∨ r = -1 ∧ q' = last q₀ π) ∧
      (r = 0 → ∃ m, (last q₀ π).frontItem = some m ∧ (accepted π)[dropped π]? = some m)

def FrontBelow (q : Queue) : Op × ℤ → Prop
  | (.dequeue, _) => q.size ≠ 0 → q.front + 1 < MSGBUFFSIZE
  | _ => True

/-- The ring after a run: the cursors are in the array and the window between them holds the
messages stored. -/
structure Stores (q : Queue) (π : List ((Op × ℤ) × Queue)) : Prop where
  front_lt : q.front < MSGBUFFSIZE
  size_le : q.size ≤ MSGBUFFSIZE
  rear_eq : q.rear = (q.front + q.size) % MSGBUFFSIZE
  dropped_le : dropped π ≤ (accepted π).length
  window_eq : Ring.window MSGBUFFSIZE_pos q.array (q.front + 1) q.size = stored π

theorem Stores.length_stored {q : Queue} {π : List ((Op × ℤ) × Queue)} (h : q.Stores π) :
    (stored π).length = q.size := by
  rw [← h.window_eq, Ring.length_window]

theorem step_enqueue {q q' : Queue} {item : Msg} {r : ℤ} (hs : q.step (.enqueue item, r) q') :
    (q.size = MSGBUFFSIZE ∧ r = -1 ∧ q' = q) ∨
      (q.size ≠ MSGBUFFSIZE ∧ r = 0 ∧ q' =
        { q with
          rear := (q.rear + 1) % MSGBUFFSIZE
          array := Function.update q.array (slot (q.rear + 1)) item
          size := q.size + 1 }) := by
  unfold step Op.exec enqueue at hs
  by_cases hfull : q.size = MSGBUFFSIZE
  · simp only [if_pos hfull] at hs
    cases hs
    exact .inl ⟨hfull, rfl, rfl⟩
  · simp only [if_neg hfull] at hs
    cases hs
    exact .inr ⟨hfull, rfl, rfl⟩

theorem step_dequeue {q q' : Queue} {r : ℤ} (hs : q.step (.dequeue, r) q') :
    (q.size = 0 ∧ r = -1 ∧ q' = q) ∨
      (q.size ≠ 0 ∧ r = 0 ∧
        q' = { q with front := (q.front + 1) % MSGBUFFSIZE, size := q.size - 1 }) := by
  unfold step Op.exec dequeue isEmpty at hs
  by_cases hempty : q.size = 0
  · simp only [hempty, decide_true, if_true] at hs
    cases hs
    exact .inl ⟨hempty, rfl, rfl⟩
  · simp only [hempty, decide_false, Bool.false_eq_true, if_false] at hs
    cases hs
    exact .inr ⟨hempty, rfl, rfl⟩

theorem zero_stores : zero.Stores [] :=
  ⟨by decide, by decide, by decide, by decide, rfl⟩

theorem Stores.step {q q' : Queue} {e : Op × ℤ} {π : List ((Op × ℤ) × Queue)} (h : q.Stores π)
    (hs : q.step e q') : q'.Stores ((e, q') :: π) := by
  obtain ⟨hfront, hsize, hrear, hdrop, hwindow⟩ := h
  obtain ⟨op, r⟩ := e
  cases op with
  | enqueue item =>
    rcases step_enqueue hs with ⟨-, rfl, rfl⟩ | ⟨hfull, rfl, rfl⟩
    · exact ⟨hfront, hsize, hrear, hdrop, hwindow⟩
    · -- The cell after the window is the one that `rear` moves to.
      have hcell : slot (q.rear + 1) = slot (q.front + 1 + q.size) := by
        apply Fin.ext
        show (q.rear + 1) % MSGBUFFSIZE = (q.front + 1 + q.size) % MSGBUFFSIZE
        unfold MSGBUFFSIZE at *
        omega
      refine ⟨hfront, ?_, ?_, ?_, ?_⟩
      · show q.size + 1 ≤ MSGBUFFSIZE
        omega
      · show (q.rear + 1) % MSGBUFFSIZE = (q.front + (q.size + 1)) % MSGBUFFSIZE
        unfold MSGBUFFSIZE at *
        omega
      · simp only [dropped, accepted, if_true, List.length_append]
        omega
      · simp only [stored, accepted, dropped, if_true]
        rw [hcell, Ring.window_push _ _ _ _ (by omega), List.drop_append_of_le_length hdrop,
          hwindow]
        rfl
  | dequeue =>
    rcases step_dequeue hs with ⟨-, rfl, rfl⟩ | ⟨hempty, rfl, rfl⟩
    · exact ⟨hfront, hsize, hrear, hdrop, hwindow⟩
    · obtain ⟨len, hlen⟩ : ∃ len, q.size = len + 1 := ⟨q.size - 1, by omega⟩
      have hlength : (stored π).length = len + 1 := by
        rw [← hwindow, Ring.length_window, hlen]
      refine ⟨Nat.mod_lt _ (by decide), ?_, ?_, ?_, ?_⟩
      · show q.size - 1 ≤ MSGBUFFSIZE
        omega
      · show q.rear = ((q.front + 1) % MSGBUFFSIZE + (q.size - 1)) % MSGBUFFSIZE
        unfold MSGBUFFSIZE at *
        omega
      · simp only [stored, List.length_drop] at hlength
        simp only [dropped, accepted, if_true]
        omega
      · -- The window loses its first cell.
        rw [hlen, Ring.window_succ] at hwindow
        simp only [stored, accepted, dropped, if_true]
        rw [← List.drop_drop, show (accepted π).drop (dropped π) = stored π from rfl, ← hwindow,
          List.drop_one, List.tail_cons, hlen]
        show Ring.window MSGBUFFSIZE_pos q.array ((q.front + 1) % MSGBUFFSIZE + 1) (len + 1 - 1) = _
        rw [← Ring.window_mod, Nat.mod_add_mod, Ring.window_mod]
        rfl

theorem Stores.oldest {q : Queue} {π : List ((Op × ℤ) × Queue)} (h : q.Stores π)
    (hsize : q.size ≠ 0) :
    (accepted π)[dropped π]? = some (q.array (slot (q.front + 1))) := by
  obtain ⟨len, hlen⟩ : ∃ len, q.size = len + 1 := ⟨q.size - 1, by omega⟩
  have hwindow := h.window_eq
  rw [hlen, Ring.window_succ] at hwindow
  rw [← List.head?_drop, show (accepted π).drop (dropped π) = stored π from rfl, ← hwindow]
  rfl

theorem frontItem_of_lt {q : Queue} (h : q.front + 1 < MSGBUFFSIZE) :
    q.frontItem = some (q.array (slot (q.front + 1))) := by
  have hcell : slot (q.front + 1) = ⟨q.front + 1, h⟩ :=
    Fin.ext (Nat.mod_eq_of_lt h)
  rw [hcell]
  exact CArray.rd_natCast q.array ⟨q.front + 1, h⟩

theorem frontItem_of_le {q : Queue} (h : MSGBUFFSIZE ≤ q.front + 1) : q.frontItem = none := by
  unfold frontItem CArray.rd
  rw [dif_neg]
  rintro ⟨-, hlt⟩
  omega

/-- In every run from a zero-initialised queue, every call does what a bounded FIFO does, and every
message read by `front()` before a dequeue is the right one, if and only if no dequeue of a queue
that is not empty finds `front` at the last slot. -/
theorem fifo_iff_frontBelow {π : List ((Op × ℤ) × Queue)} (h : IsRun step zero π) :
    Along (Fifo zero) π ↔ Meets FrontBelow zero π := by
  refine h.along_iff (I := fun π => (last zero π).Stores π) zero_stores
    (fun e q π hI hs => hI.step hs) trivial ?_
  rintro ⟨op, r⟩ q' π hI hs -
  have hlength := hI.length_stored
  cases op with
  | enqueue item =>
    refine ⟨fun _ => trivial, fun _ => ?_⟩
    rcases step_enqueue hs with ⟨hfull, rfl, rfl⟩ | ⟨hfull, rfl, -⟩
    · exact ⟨⟨fun _ => hlength.trans hfull, fun _ => rfl⟩, .inr ⟨rfl, rfl⟩⟩
    · refine ⟨⟨fun h => absurd h (by decide), fun h => ?_⟩, .inl rfl⟩
      exact absurd (hlength.symm.trans h) hfull
  | dequeue =>
    have hnil : stored π = [] ↔ (last zero π).size = 0 := by
      rw [← hlength, List.length_eq_zero_iff]
    rcases step_dequeue hs with ⟨hempty, rfl, rfl⟩ | ⟨hempty, rfl, -⟩
    · refine ⟨fun _ hne => absurd hempty hne, fun _ => ⟨?_, .inr ⟨rfl, rfl⟩, ?_⟩⟩
      · exact ⟨fun _ => hnil.2 hempty, fun _ => rfl⟩
      · exact fun h => absurd h (by decide)
    · -- A dequeue that succeeds: `front()` before it is the oldest message exactly if its index is
      -- in the array.
      constructor
      · rintro ⟨-, -, hfront⟩ -
        obtain ⟨m, hm, -⟩ := hfront rfl
        by_contra hle
        rw [frontItem_of_le (by omega)] at hm
        cases hm
      · intro hbelow
        refine ⟨⟨fun h => absurd h (by decide), fun h => absurd (hnil.1 h) hempty⟩, .inl rfl, ?_⟩
        exact fun _ => ⟨_, frontItem_of_lt (hbelow hempty), hI.oldest hempty⟩

def roundTrips (m : Msg) : ℕ → List ((Op × ℤ) × Queue)
  | 0 => []
  | n + 1 =>
    let q := ((last zero (roundTrips m n)).enqueue m).2
    ((.dequeue, 0), q.dequeue.2) :: ((.enqueue m, 0), q) :: roundTrips m n

theorem roundTrips_run (m : Msg) (n : ℕ) :
    IsRun step zero (roundTrips m n) ∧ (last zero (roundTrips m n)).size = 0 ∧
      (last zero (roundTrips m n)).front = n % MSGBUFFSIZE := by
  induction n with
  | zero => exact ⟨trivial, rfl, rfl⟩
  | succ n ih =>
    obtain ⟨hrun, hsize, hfront⟩ := ih
    generalize hπ : roundTrips m n = π at hrun hsize hfront
    have henq : ((last zero π).enqueue m).1 = 0 := by simp [enqueue, hsize, MSGBUFFSIZE]
    have hsize' : ((last zero π).enqueue m).2.size = 1 := by simp [enqueue, hsize, MSGBUFFSIZE]
    have hfront' : ((last zero π).enqueue m).2.front = n % MSGBUFFSIZE := by
      simp [enqueue, hsize, hfront, MSGBUFFSIZE]
    simp only [roundTrips, hπ]
    generalize hq : (last zero π).enqueue m = x at henq hsize' hfront'
    have hdeq : x.2.dequeue =
        (0, { x.2 with front := (x.2.front + 1) % MSGBUFFSIZE, size := 0 }) := by
      simp [dequeue, isEmpty, hsize']
    refine ⟨⟨?_, ?_, hrun⟩, ?_, ?_⟩
    · show x.2.dequeue = (0, x.2.dequeue.2)
      rw [hdeq]
    · show (last zero π).enqueue m = (0, x.2)
      rw [hq, ← henq]
    · rw [last_cons, hdeq]
    · rw [last_cons, hdeq]
      show (x.2.front + 1) % MSGBUFFSIZE = (n + 1) % MSGBUFFSIZE
      rw [hfront', Nat.mod_add_mod]

theorem not_fifo_roundTrips (m : Msg) {n : ℕ} (hn : n % MSGBUFFSIZE + 1 = MSGBUFFSIZE) :
    ¬ Fifo zero (roundTrips m (n + 1)) := by
  obtain ⟨-, hsize, hfront⟩ := roundTrips_run m n
  simp only [roundTrips]
  generalize roundTrips m n = π at hsize hfront
  intro hfifo
  obtain ⟨item, hitem, -⟩ := hfifo.2.2 rfl
  have hfront' : ((last zero π).enqueue m).2.front + 1 = MSGBUFFSIZE := by
    simp only [enqueue, hsize, MSGBUFFSIZE] at hn hfront ⊢
    simp [hfront, hn]
  rw [last_cons, frontItem_of_le (by omega)] at hitem
  cases hitem

theorem fifo_iff_frontBelow_roundTrip :
    IsRun step zero (roundTrips (fun _ => 1) 1) ∧
      (Along (Fifo zero) (roundTrips (fun _ => 1) 1) ↔
        Meets FrontBelow zero (roundTrips (fun _ => 1) 1)) :=
  ⟨(roundTrips_run _ 1).1, fifo_iff_frontBelow (roundTrips_run _ 1).1⟩

/-- The 200th round trip: its message is in slot `0`, and `front()` is outside the array. -/
theorem front_outside_array :
    IsRun step zero (roundTrips (fun _ => 1) 200) ∧ ¬ Fifo zero (roundTrips (fun _ => 1) 200) :=
  ⟨(roundTrips_run _ _).1, not_fifo_roundTrips (n := 199) _ rfl⟩

end Queue

end Xv6
