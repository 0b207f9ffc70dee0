import Xv6.Lib.CArray
import Mathlib.Data.List.Basic
import Mathlib.Tactic.Common

/-!
# The system call counters

`syscall()` counts the calls that it dispatches while tracing is on, `toggle` switches tracing, and
`print_count` prints the counters that are not zero, each with a name. The calls are numbered from 1
to 37 by `syscall.h`, but the tables of counters and of names have 33 entries: the four calls from
`store` to `read_mean` are missing in the table of names, so that from `store` on a call has the name
of another, and the last four calls have no counter.

What the listing should be is said of the history of calls, the newest first: `since` are the calls
dispatched since tracing was last switched on, and `listing` has a line for each of them.
-/

namespace Xv6

open Function

/-- The system calls. -/
inductive Sys
  | fork | exit | wait | pipe | read | kill | exec | fstat | chdir | dup | getpid | sbrk | sleep
  | uptime | open | write | mknod | unlink | link | mkdir | close | halt | toggle | print_count
  | ps | send | recv | send_multi | store | sleepcustom | wakeupcustom | read_mean
  | create_container | destroy_container | join_container | leave_container | container_malloc
  deriving DecidableEq, Repr

namespace Sys

def name : Sys → String
  | .fork => "sys_fork"
  | .exit => "sys_exit"
  | .wait => "sys_wait"
  | .pipe => "sys_pipe"
  | .read => "sys_read"
  | .kill => "sys_kill"
  | .exec => "sys_exec"
  | .fstat => "sys_fstat"
  | .chdir => "sys_chdir"
  | .dup => "sys_dup"
  | .getpid => "sys_getpid"
  | .sbrk => "sys_sbrk"
  | .sleep => "sys_sleep"
  | .uptime => "sys_uptime"
  | .open => "sys_open"
  | .write => "sys_write"
  | .mknod => "sys_mknod"
  | .unlink => "sys_unlink"
  | .link => "sys_link"
  | .mkdir => "sys_mkdir"
  | .close => "sys_close"
  | .halt => "sys_halt"
  | .toggle => "sys_toggle"
  | .print_count => "sys_print_count"
  | .ps => "sys_ps"
  | .send => "sys_send"
  | .recv => "sys_recv"
  | .send_multi => "sys_send_multi"
  | .store => "sys_store"
  | .sleepcustom => "sys_sleepcustom"
  | .wakeupcustom => "sys_wakeupcustom"
  | .read_mean => "sys_read_mean"
  | .create_container => "sys_create_container"
  | .destroy_container => "sys_destroy_container"
  | .join_container => "sys_join_container"
  | .leave_container => "sys_leave_container"
  | .container_malloc => "sys_container_malloc"

def table : List Sys :=
  [.fork, .exit, .wait, .pipe, .read, .kill, .exec, .fstat, .chdir, .dup, .getpid, .sbrk, .sleep,
  .uptime, .open, .write, .mknod, .unlink, .link, .mkdir, .close, .halt, .toggle, .print_count,
  .ps, .send, .recv, .send_multi, .store, .sleepcustom, .wakeupcustom, .read_mean,
  .create_container, .destroy_container, .join_container, .leave_container, .container_malloc]

def syscalls (num : ℤ) : Option Sys :=
  if 0 < num ∧ num < 38 then table[num.toNat - 1]? else none

end Sys

def num_syscall : ℕ := 33

def syscall_arr : List String :=
  ["sys_fork", "sys_exit", "sys_wait", "sys_pipe", "sys_read", "sys_kill", "sys_exec", "sys_fstat",
  "sys_chdir", "sys_dup", "sys_getpid", "sys_sbrk", "sys_sleep", "sys_uptime", "sys_open",
  "sys_write", "sys_mknod", "sys_unlink", "sys_link", "sys_mkdir", "sys_close", "sys_halt",
  "sys_toggle", "sys_print_count", "sys_ps", "sys_send", "sys_recv", "sys_send_multi",
  "sys_create_container", "sys_destroy_container", "sys_join_container", "sys_leave_container",
  "sys_container_malloc"]

/-- `trace` and `counter`. -/
structure Tracer where
  trace : ℤ
  counter : Fin num_syscall → ℤ

namespace Tracer

/-- At boot. -/
def zero : Tracer := ⟨0, fun _ => 0⟩

def toggle (s : Tracer) : Tracer :=
  if s.trace = 0 then { s with trace := 1 } else ⟨0, fun _ => 0⟩

def print_count (s : Tracer) : List (String × ℤ) :=
  (List.range num_syscall).filterMap fun (i : ℕ) =>
    (CArray.rd s.counter i).bind fun n =>
      if n ≠ 0 then some (syscall_arr.getD i "", n) else none

def bump (num : ℤ) (s : Tracer) : Option Tracer :=
  (CArray.upd s.counter (num - 1) fun n => some ((n + 1).bmod 0x100000000)).map fun counter =>
    { s with counter := counter }

def handle (c : Sys) (s : Tracer) : List (String × ℤ) × Tracer :=
  if c = .toggle then ([], s.toggle)
  else if c = .print_count then (s.print_count, s)
  else ([], s)

def syscall (num : ℤ) (s : Tracer) : Option (List (String × ℤ) × Tracer) :=
  match Sys.syscalls num with
  | some c => (if s.trace = 1 then s.bump num else some s).map (handle c)
  | none => some ([], s)

def after : List ℤ → Option Tracer
  | [] => some zero
  | num :: h => (after h).bind fun s => (s.syscall num).map Prod.snd

end Tracer

/-! ## What the listing should be -/

def tracing : List ℤ → Bool
  | [] => false
  | num :: h => if Sys.syscalls num = some .toggle then !tracing h else tracing h

def since : List ℤ → List Sys
  | [] => []
  | num :: h =>
    match Sys.syscalls num with
    | some c => if c = .toggle ∧ tracing h = false then [] else c :: since h
    | none => since h

def listing (cs : List Sys) : List (String × ℤ) :=
  Sys.table.filterMap fun c => if c ∈ cs then some (c.name, (cs.count c : ℤ)) else none

/-! ## The tables -/

namespace Sys

def number (c : Sys) : ℕ := table.idxOf c + 1

theorem table_nodup : table.Nodup := by decide

theorem mem_table (c : Sys) : c ∈ table := by
  cases c <;> decide

theorem number_of_syscalls {num : ℤ} {c : Sys} (h : syscalls num = some c) : num = c.number := by
  unfold syscalls at h
  split at h
  · rename_i hnum
    obtain ⟨hlt, hget⟩ := List.getElem?_eq_some_iff.1 h
    have hidx : table.idxOf c = num.toNat - 1 := by
      rw [← hget]
      exact table_nodup.idxOf_getElem _ hlt
    unfold number
    omega
  · cases h

theorem take_table :
    table.take num_syscall = (List.range num_syscall).map fun i => table.getD i .fork := by decide

theorem number_getD : ∀ i < num_syscall, (table.getD i .fork).number = i + 1 := by decide

theorem name_getD : ∀ i < 28, syscall_arr.getD i "" = (table.getD i .fork).name := by decide

theorem number_drop : ∀ c ∈ table.drop num_syscall, 28 < c.number := by decide

end Sys

/-! ## The counters -/

namespace Tracer

def Counts (s : Tracer) (cs : List Sys) : Prop :=
  ∀ (i : Fin num_syscall) (c : Sys), c.number = i + 1 → s.counter i = (cs.count c : ℤ)

theorem Counts.print_count_eq {s : Tracer} {cs : List Sys} (h : s.Counts cs)
    (hname : ∀ c ∈ cs, c.number ≤ 28) : s.print_count = listing cs := by
  -- The calls without a counter are not there.
  have hdrop : (Sys.table.drop num_syscall).filterMap
      (fun c => if c ∈ cs then some (c.name, (cs.count c : ℤ)) else none) = [] := by
    refine List.filterMap_eq_nil_iff.2 fun c hc => if_neg fun hmem => ?_
    exact absurd (hname c hmem) (Nat.not_le.2 (Sys.number_drop c hc))
  unfold listing
  rw [← List.take_append_drop num_syscall Sys.table, List.filterMap_append, hdrop, List.append_nil,
    Sys.take_table, List.filterMap_map]
  refine List.filterMap_congr fun i hi => ?_
  have hlt := List.mem_range.1 hi
  have hnum := Sys.number_getD i hlt
  generalize hc : Sys.table.getD i .fork = c at hnum
  have hrd : CArray.rd s.counter (i : ℤ) = some (cs.count c : ℤ) := by
    rw [← h ⟨i, hlt⟩ c hnum]
    exact CArray.rd_natCast s.counter ⟨i, hlt⟩
  simp only [comp_apply, hrd, Option.bind_some, hc]
  by_cases hmem : c ∈ cs
  · have hpos : (cs.count c : ℤ) ≠ 0 := by
      have := List.count_pos_iff.2 hmem
      omega
    have hlt' : i < 28 := by
      have := hname c hmem
      omega
    rw [if_pos hpos, if_pos hmem, Sys.name_getD i hlt', hc]
  · rw [List.count_eq_zero.2 hmem, if_neg (by simp), if_neg hmem]

theorem Counts.bump {s : Tracer} {cs : List Sys} {c : Sys} (h : s.Counts cs)
    (hnum : c.number ≤ num_syscall) (hlen : cs.count c + 1 < 2147483648) :
    ∃ s', s.bump c.number = some s' ∧ s'.trace = s.trace ∧ s'.Counts (c :: cs) := by
  have hpos : 0 < c.number := Nat.succ_pos _
  have hlt : c.number - 1 < num_syscall := by omega
  have hindex : (c.number : ℤ) - 1 = ((⟨c.number - 1, hlt⟩ : Fin num_syscall) : ℕ) := by
    show (c.number : ℤ) - 1 = ((c.number - 1 : ℕ) : ℤ)
    omega
  have hold : s.counter ⟨c.number - 1, hlt⟩ = (cs.count c : ℤ) :=
    h ⟨c.number - 1, hlt⟩ c (by simp only; omega)
  have hsum : ((cs.count c : ℤ) + 1).bmod 0x100000000 = (cs.count c : ℤ) + 1 := by
    rw [Int.bmod_def]
    omega
  refine ⟨{ s with counter := update s.counter ⟨c.number - 1, hlt⟩ (cs.count c + 1) },
    ?_, rfl, ?_⟩
  · rw [Tracer.bump, hindex, CArray.upd_natCast, hold, hsum]
    rfl
  · intro i c' hc'
    by_cases hi : i = ⟨c.number - 1, hlt⟩
    · -- The counter of this call.
      have hcc : c' = c := by
        have hnumber : c'.number = c.number := by
          rw [hc', hi]
          show c.number - 1 + 1 = c.number
          omega
        exact (List.idxOf_inj (Sys.mem_table c')).1 (Nat.succ.inj hnumber)
      subst hcc
      simp only [hi, update_self, List.count_cons_self]
      rfl
    · have hne : c ≠ c' := by
        rintro rfl
        apply hi
        apply Fin.ext
        show i.val = c.number - 1
        omega
      simp only [update_of_ne hi, List.count_cons_of_ne hne]
      exact h i c' hc'

/-! ## Histories -/

def current (h : List ℤ) : List Sys := if tracing h then since h else []

/-- What holds after a history of calls. -/
structure Tracks (h : List ℤ) (s : Tracer) : Prop where
  trace : s.trace = if tracing h then 1 else 0
  counts : s.Counts (current h)

theorem zero_tracks : Tracks [] zero := ⟨rfl, fun _ _ _ => rfl⟩

def Countable : List ℤ → Prop
  | [] => True
  | num :: h =>
    (tracing h = true → num ≤ num_syscall ∧
      ∀ c, Sys.syscalls num = some c → (since h).count c + 1 < 2147483648) ∧ Countable h

theorem tracing_cons_of_ne {num : ℤ} {c : Sys} (h : List ℤ) (hnum : Sys.syscalls num = some c)
    (hc : c ≠ .toggle) : tracing (num :: h) = tracing h := by
  simp [tracing, hnum, hc]

theorem tracing_cons_toggle {num : ℤ} (h : List ℤ) (hnum : Sys.syscalls num = some .toggle) :
    tracing (num :: h) = !tracing h := by
  simp [tracing, hnum]

theorem handle_tracks_on {h : List ℤ} {num : ℤ} {c : Sys} {s : Tracer}
    (hnum : Sys.syscalls num = some c) (hon : tracing h = true) (htrace : s.trace = 1)
    (hcounts : s.Counts (c :: since h)) : Tracks (num :: h) (handle c s).2 := by
  have hsince : since (num :: h) = c :: since h := by simp [since, hnum, hon]
  by_cases hc : c = .toggle
  · subst hc
    -- Tracing is switched off, and the counters are cleared.
    have hoff : tracing (num :: h) = false := by simp [tracing_cons_toggle h hnum, hon]
    have hhandle : (handle .toggle s).2 = ⟨0, fun _ => 0⟩ := by
      simp [handle, Tracer.toggle, htrace]
    rw [hhandle]
    refine ⟨by simp [hoff], fun i c hc => ?_⟩
    simp [current, hoff]
  · have hon' : tracing (num :: h) = true := (tracing_cons_of_ne h hnum hc).trans hon
    have hhandle : (handle c s).2 = s := by
      unfold handle
      rw [if_neg hc]
      split <;> rfl
    rw [hhandle]
    refine ⟨by simp [hon', htrace], ?_⟩
    rw [current, if_pos hon', hsince]
    exact hcounts

theorem handle_tracks_off {h : List ℤ} {num : ℤ} {c : Sys} {s : Tracer}
    (hnum : Sys.syscalls num = some c) (hoff : tracing h = false) (hs : Tracks h s) :
    Tracks (num :: h) (handle c s).2 := by
  have htrace : s.trace = 0 := by simp [hs.trace, hoff]
  have hcounts : s.Counts [] := by simpa [current, hoff] using hs.counts
  by_cases hc : c = .toggle
  · subst hc
    -- Tracing is switched on. The counters were cleared when it was switched off.
    have hon : tracing (num :: h) = true := by simp [tracing_cons_toggle h hnum, hoff]
    have hhandle : (handle .toggle s).2 = { s with trace := 1 } := by
      simp [handle, Tracer.toggle, htrace]
    rw [hhandle]
    refine ⟨by simp [hon], ?_⟩
    have hsince : since (num :: h) = [] := by simp [since, hnum, hoff]
    rw [current, if_pos hon, hsince]
    exact hcounts
  · have hoff' : tracing (num :: h) = false := (tracing_cons_of_ne h hnum hc).trans hoff
    have hhandle : (handle c s).2 = s := by
      unfold handle
      rw [if_neg hc]
      split <;> rfl
    rw [hhandle]
    refine ⟨by simp [hoff', htrace], ?_⟩
    simpa [current, hoff'] using hcounts

theorem Tracks.syscall {h : List ℤ} {num : ℤ} {s : Tracer} (hs : Tracks h s)
    (hok : tracing h = true → num ≤ num_syscall ∧
      ∀ c, Sys.syscalls num = some c → (since h).count c + 1 < 2147483648) :
    ∃ lines s', s.syscall num = some (lines, s') ∧ Tracks (num :: h) s' ∧
      (Sys.syscalls num = some .print_count → lines = s'.print_count) ∧
      (Sys.syscalls num ≠ some .print_count → lines = []) := by
  cases hnum : Sys.syscalls num with
  | none =>
    refine ⟨[], s, by simp [Tracer.syscall, hnum], ⟨?_, ?_⟩, (fun hc => nomatch hc), fun _ => rfl⟩
    · simp [tracing, hnum, hs.trace]
    · have hcurrent : current (num :: h) = current h := by simp [current, tracing, since, hnum]
      rw [hcurrent]
      exact hs.counts
  | some c =>
    have hlines : ∀ s : Tracer,
        (some c = some Sys.print_count → (handle c s).1 = (handle c s).2.print_count) ∧
          (some c ≠ some Sys.print_count → (handle c s).1 = []) := by
      intro s
      refine ⟨fun hc => ?_, fun hc => ?_⟩
      · cases hc
        rfl
      · have hc' : c ≠ .print_count := fun h => hc (congrArg some h)
        unfold handle
        rw [if_neg hc']
        split <;> rfl
    cases hon : tracing h with
    | true =>
      obtain ⟨hle, hlen⟩ := hok hon
      have htrace : s.trace = 1 := by simp [hs.trace, hon]
      have hcounts : s.Counts (since h) := by simpa [current, hon] using hs.counts
      have hnumber := Sys.number_of_syscalls hnum
      obtain ⟨s', hbump, htrace', hcounts'⟩ := hcounts.bump (c := c) (by omega) (hlen c hnum)
      refine ⟨(handle c s').1, (handle c s').2, ?_,
        handle_tracks_on hnum hon (htrace'.trans htrace) hcounts', hlines s'⟩
      simp [Tracer.syscall, hnum, htrace, hnumber ▸ hbump]
    | false =>
      have htrace : s.trace = 0 := by simp [hs.trace, hon]
      refine ⟨(handle c s).1, (handle c s).2, ?_, handle_tracks_off hnum hon hs, hlines s⟩
      simp [Tracer.syscall, hnum, htrace]

theorem after_tracks {h : List ℤ} (hok : Countable h) : ∃ s, after h = some s ∧ Tracks h s := by
  induction h with
  | nil => exact ⟨zero, rfl, zero_tracks⟩
  | cons num h ih =>
    obtain ⟨s, hs, htracks⟩ := ih hok.2
    obtain ⟨lines, s', hcall, htracks', -⟩ := htracks.syscall hok.1
    exact ⟨s', by rw [after, hs, Option.bind_some, hcall, Option.map_some], htracks'⟩

/-- For every history of system calls and every next one: if calls that are dispatched while tracing
is on have a counter, and are fewer than 2^31 each, then no counter outside the array is updated. And
`print_count`, while tracing is on, lists the calls dispatched since it was switched on, each with
its name and number, if all of these calls come before `store` in `syscall.h`; while tracing is off it
prints nothing. -/
theorem print_count_lists {h : List ℤ} {num : ℤ} (hok : Countable (num :: h)) :
    ∃ s lines s', after h = some s ∧ s.syscall num = some (lines, s') ∧
      (num = Sys.print_count.number → tracing h = true →
        (∀ c ∈ since (num :: h), c.number ≤ 28) → lines = listing (since (num :: h))) ∧
      (tracing h = false → lines = []) ∧
      (num ≠ Sys.print_count.number → lines = []) := by
  obtain ⟨s, hs, htracks⟩ := after_tracks hok.2
  obtain ⟨lines, s', hcall, htracks', hprint, hother⟩ := htracks.syscall hok.1
  have hnumber : Sys.syscalls Sys.print_count.number = some .print_count := by decide
  refine ⟨s, lines, s', hs, hcall, fun hnum hon hname => ?_, fun hoff => ?_,
    fun hnum => hother fun hc => ?_⟩
  · subst hnum
    have hon' : tracing ((Sys.print_count.number : ℤ) :: h) = true :=
      (tracing_cons_of_ne h hnumber (by decide)).trans hon
    have hcounts := htracks'.counts
    rw [current, if_pos hon'] at hcounts
    rw [hprint hnumber, hcounts.print_count_eq hname]
  · by_cases hc : Sys.syscalls num = some .print_count
    · have hoff' : tracing (num :: h) = false := (tracing_cons_of_ne h hc (by decide)).trans hoff
      have hcounts : s'.Counts [] := by simpa [current, hoff'] using htracks'.counts
      rw [hprint hc, hcounts.print_count_eq (by simp)]
      decide
    · exact hother hc
  · exact hnum (Sys.number_of_syscalls hc)

/-- Tracing is switched on, and `getpid` is called twice. -/
theorem print_count_lists_getpid :
    Countable [24, 11, 11, 23] ∧ ∃ s lines s', after [11, 11, 23] = some s ∧
      s.syscall 24 = some (lines, s') ∧ lines = [("sys_getpid", 2), ("sys_print_count", 1)] := by
  have hok : Countable [24, 11, 11, 23] := by simp [Countable]; decide
  obtain ⟨s, lines, s', hs, hcall, hlines, -⟩ := print_count_lists hok
  refine ⟨hok, s, lines, s', hs, hcall, ?_⟩
  rw [hlines (by decide) (by decide) (by decide)]
  decide

/-- A call of `store` is listed as one of `create_container`. And a call of `destroy_container`
updates a counter outside the array. -/
theorem print_count_wrong_name :
    ((after [29, 23]).bind fun s => (s.syscall 24).map Prod.fst) =
        some [("sys_print_count", 1), ("sys_create_container", 1)] ∧
      listing (since [24, 29, 23]) = [("sys_print_count", 1), ("sys_store", 1)] ∧
      ((after [23]).map fun s => (s.syscall 34).isNone) = some true := by
  refine ⟨?_, ?_, ?_⟩ <;> decide

end Tracer

end Xv6
