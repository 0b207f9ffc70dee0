import Xv6.Console.Machine

/-!
# The console delivers what was committed

What the console is for is said on lists, without a buffer: `Tty` is the input that has been
committed since the start, how much of it has been taken, and the line being typed. Backspace and
kill-line change the line only; a newline, a `^D` or a full buffer commits it. The input buffer shows
such a state (`Shows`), and every key and every read moves both alike.

`consoleread_committed` puts this together for whole runs. A `^D` is taken by a read that has
delivered nothing; one that has leaves it where it is and returns.
-/

namespace Xv6

open Function Run

/-- The input of a terminal. -/
structure Tty where
  committed : List Byte
  taken : ℕ
  line : List Byte
  deriving DecidableEq

namespace Tty

open Input (C char)

def held (t : Tty) : ℕ := t.committed.length - t.taken + t.line.length

def type (t : Tty) (c : Byte) : Tty :=
  let t := { t with line := t.line ++ [c] }
  if c = char '\n' ∨ c = C 'D' ∨ t.held = INPUT_BUF then
    { t with committed := t.committed ++ t.line, line := [] }
  else t

/-- A key. -/
def key (t : Tty) (c : Byte) : Tty :=
  if c = C 'P' then t
  else if c = C 'U' then { t with line := [] }
  else if c = C 'H' ∨ c = char '\x7f' then { t with line := t.line.dropLast }
  else if c ≠ 0 ∧ t.held < INPUT_BUF then t.type (if c = char '\r' then char '\n' else c)
  else t

end Tty

namespace Input

variable {s s' s'' : Input} {t : Tty} {past : List Byte}

/-- The buffer holds what has been committed after `past`, and the line. -/
structure Shows (s : Input) (past : List Byte) (t : Tty) : Prop where
  ok : s.Ok
  newline : char '\n' ∉ s.line
  committed : t.committed = past ++ s.unread
  taken : t.taken = past.length
  line : t.line = s.line

/-- A step that takes `m` bytes changes no byte between `r` and `w`, and moves `r` over those that it
takes only. -/
structure Kept (s : Input) (m : ℕ) (s' : Input) : Prop where
  buf : ∀ k, k < s.ready →
    s'.buf (Ring.cell INPUT_BUF_pos (s.r + k)) = s.buf (Ring.cell INPUT_BUF_pos (s.r + k))
  r : s'.r = uint (s.r + m)
  ready : s.ready ≤ m + s'.ready

/-! ## Keys -/

theorem Shows.held (h : s.Shows past t) : t.held = s.count := by
  rw [Tty.held, h.committed, h.taken, h.line, h.ok.count_eq, List.length_append, length_unread,
    length_line, Nat.add_sub_cancel_left]

theorem Ok.uint_r (h : s.Ok) : s.r = uint (s.r + 0) := by
  have hr := h.r
  simp only [uint]
  omega

theorem Kept.refl (h : s.Ok) : Kept s 0 s := ⟨fun _ _ => rfl, h.uint_r, by rw [Nat.zero_add]⟩

theorem Kept.trans (h : s.Ok) (h1 : Kept s 0 s') (h2 : Kept s' 0 s'') : Kept s 0 s'' := by
  have hr : s'.r = s.r := h1.r.trans h.uint_r.symm
  have hle := h1.ready
  have hle' := h2.ready
  refine ⟨fun k hk => ?_, ?_, by omega⟩
  · have hbuf := h2.buf k (by omega)
    rw [hr] at hbuf
    rw [hbuf, h1.buf k hk]
  · rw [h2.r, hr]

theorem Shows.edit (h : s.Shows past t) {line : List Byte} (hok : s'.Ok) (hbuf : s'.buf = s.buf)
    (hr : s'.r = s.r) (hw : s'.w = s.w) (hline : s'.line = line) (hmem : char '\n' ∉ line) :
    s'.Shows past { t with line := line } ∧ Kept s 0 s' := by
  have hready : s'.ready = s.ready := by rw [ready, ready, hw, hr]
  refine ⟨⟨hok, by rwa [hline], ?_, h.taken, hline.symm⟩, fun k _ => by rw [hbuf], ?_, ?_⟩
  · show t.committed = _
    rw [h.committed, unread, unread, hbuf, hr, hready]
  · rw [hr]
    exact h.ok.uint_r
  · rw [hready, Nat.zero_add]

theorem Shows.kill (h : s.Shows past t) :
    s.kill.Shows past { t with line := [] } ∧ Kept s 0 s.kill := by
  obtain ⟨hbuf, hr, hw⟩ := killLoop_same s.editing s
  have hok := (h.ok.killLoop le_rfl).1
  exact h.edit hok hbuf hr hw (h.ok.line_killLoop h.newline le_rfl) List.not_mem_nil

theorem Shows.backspace (h : s.Shows past t) :
    s.backspace.Shows past { t with line := t.line.dropLast } ∧ Kept s 0 s.backspace := by
  have hsame : s.backspace.buf = s.buf ∧ s.backspace.r = s.r ∧ s.backspace.w = s.w := by
    unfold Input.backspace
    split
    · exact ⟨rfl, rfl, rfl⟩
    · exact ⟨rfl, rfl, rfl⟩
  obtain ⟨hok, hline⟩ := h.ok.backspace
  rw [← h.line] at hline
  refine h.edit hok hsame.1 hsame.2.1 hsame.2.2 hline fun hmem => h.newline ?_
  rw [← h.line]
  exact List.dropLast_subset _ hmem

theorem Shows.push (h : s.Shows past t) (hroom : s.count < INPUT_BUF) {c : Byte}
    (hc : c ≠ char '\n') : (s.push c).Shows past { t with line := t.line ++ [c] } := by
  refine ⟨(h.ok.push hroom c).1, ?_, ?_, h.taken, ?_⟩
  · rw [h.ok.line_push hroom]
    exact fun hmem => (List.mem_append.1 hmem).elim h.newline fun heq =>
      hc (List.mem_singleton.1 heq).symm
  · rw [h.ok.unread_push hroom]
    exact h.committed
  · rw [h.ok.line_push hroom, h.line]

theorem Shows.push_commit (h : s.Shows past t) (hroom : s.count < INPUT_BUF) (c : Byte) :
    (s.push c).commit.Shows past
      { t with committed := t.committed ++ (t.line ++ [c]), line := [] } := by
  obtain ⟨hok, hunread, hline⟩ := (h.ok.push hroom c).1.commit
  refine ⟨hok, ?_, ?_, h.taken, hline.symm⟩
  · rw [hline]
    exact List.not_mem_nil
  · show t.committed ++ (t.line ++ [c]) = _
    rw [hunread, h.ok.unread_push hroom, h.ok.line_push hroom, h.committed, h.line,
      List.append_assoc]

theorem Ok.kept_push (h : s.Ok) (hroom : s.count < INPUT_BUF) (c : Byte) :
    Kept s 0 (s.push c) ∧ Kept s 0 (s.push c).commit := by
  have hbuf : ∀ k, k < s.ready → (s.push c).buf (Ring.cell INPUT_BUF_pos (s.r + k)) =
      s.buf (Ring.cell INPUT_BUF_pos (s.r + k)) := by
    intro k hk
    show update s.buf (Ring.cell INPUT_BUF_pos s.e) c _ = _
    rw [h.cell_e]
    exact update_of_ne (Ring.cell_ne _ _ (lt_of_lt_of_le hk h.ready_le) hroom) _ _
  refine ⟨⟨hbuf, h.uint_r, ?_⟩, hbuf, h.uint_r, ?_⟩
  · rw [Nat.zero_add]
    rfl
  · have hlen := congrArg List.length (h.push hroom c).1.commit.2.1
    rw [List.length_append, h.unread_push hroom, length_unread, length_unread] at hlen
    omega

theorem Shows.type (h : s.Shows past t) (hroom : s.count < INPUT_BUF) (c : Byte) :
    (s.type c).1.Shows past (t.type c) ∧ Kept s 0 (s.type c).1 := by
  obtain ⟨hpush, hcommit⟩ := h.ok.kept_push hroom c
  have hok := (h.ok.push hroom c).1
  -- The line with the new byte, whether it is committed or not, is as long as the model's.
  have hheld : ({ t with line := t.line ++ [c] } : Tty).held = (s.push c).count := by
    rw [Tty.held, hok.count_eq, (h.ok.push hroom c).2, List.length_append, h.line, length_line,
      h.committed, h.taken, List.length_append, Nat.add_sub_cancel_left, length_unread]
    rfl
  unfold Input.type Tty.type
  simp only [hheld, hok.full_iff]
  split
  · exact ⟨h.push_commit hroom c, hcommit⟩
  · rename_i hc
    exact ⟨h.push hroom fun heq => hc (.inl heq), hpush⟩

theorem Shows.key (h : s.Shows past t) (c : Byte) :
    (s.key c).1.Shows past (t.key c) ∧ Kept s 0 (s.key c).1 := by
  unfold Input.key Tty.key
  rw [h.held]
  split
  · exact ⟨h, .refl h.ok⟩
  split
  · exact h.kill
  split
  · exact h.backspace
  split
  · rename_i hroom
    exact h.type hroom.2 _
  · exact ⟨h, .refl h.ok⟩

theorem Shows.consoleintr (h : s.Shows past t) (cs : List Byte) :
    (consoleintr cs s).1.Shows past (cs.foldl Tty.key t) ∧ Kept s 0 (consoleintr cs s).1 := by
  induction cs generalizing s t with
  | nil => exact ⟨h, .refl h.ok⟩
  | cons c cs ih =>
    obtain ⟨hkey, hkept⟩ := h.key c
    obtain ⟨hrest, hkept'⟩ := ih hkey
    exact ⟨hrest, hkept.trans h.ok hkept'⟩

/-! ## Reads -/

/-- What a stretch of `consoleread` does, with `n` bytes to read of `target`. -/
structure Reads (s : Input) (killed : Bool) (target n : ℕ) (t : ReadStretch) : Prop where
  ok : t.input.Ok
  unread : s.unread = t.taken ++ t.input.unread
  line : t.input.line = s.line
  buf : t.input.buf = s.buf
  r : t.input.r = uint (s.r + t.taken.length)
  moved : C 'D' ∉ t.moved
  eof : t.eof = true → t.moved = [] ∧ n = target ∧ t.ends = .returns 0
  returns : ∀ v, t.ends = .returns v → killed = false → v = target - n + t.moved.length
  sleeps : ∀ m, t.ends = .sleeps m → t.moved.length + m = n

theorem Ok.reads_nil (h : s.Ok) {killed : Bool} {target n : ℕ} {ends : ReadEnd}
    (hreturns : ∀ v, ends = .returns v → killed = false → v = (target : ℤ) - n)
    (hsleeps : ∀ m, ends = .sleeps m → m = n) :
    s.Reads killed target n ⟨s, [], false, ends⟩ := by
  have htaken : (⟨s, [], false, ends⟩ : ReadStretch).taken = [] := rfl
  refine ⟨h, ?_, rfl, rfl, ?_, List.not_mem_nil, fun heof => (nomatch heof), ?_, ?_⟩
  · rw [htaken, List.nil_append]
  · rw [htaken]
    exact h.uint_r
  · intro v hv hk
    rw [hreturns v hv hk]
    exact (Int.add_zero _).symm
  · intro m hm
    rw [hsleeps m hm]
    exact Nat.zero_add n

theorem Reads.cons (h : s.Ok) (hne : s.r ≠ s.w) {killed : Bool} {target n : ℕ} {t : ReadStretch}
    (hn : n < target) (hfront : s.front ≠ C 'D') (ht : s.pop.Reads killed target n t) :
    s.Reads killed target (n + 1) ⟨t.input, s.front :: t.moved, t.eof, t.ends⟩ := by
  have htaken : (⟨t.input, s.front :: t.moved, t.eof, t.ends⟩ : ReadStretch).taken =
      s.front :: t.taken := rfl
  refine ⟨ht.ok, ?_, ht.line.trans s.line_pop, ht.buf, ?_, ?_, ?_, ?_, ?_⟩
  · rw [h.unread_eq hne, ht.unread, htaken, List.cons_append]
  · rw [htaken, List.length_cons, ht.r, Input.pop]
    simp only [uint]
    omega
  · intro hmem
    cases List.mem_cons.1 hmem with
    | inl heq => exact hfront heq.symm
    | inr hmem => exact ht.moved hmem
  · intro heof
    have heq := (ht.eof heof).2.1
    omega
  · intro v hv hk
    have hret := ht.returns v hv hk
    rw [List.length_cons]
    omega
  · intro m hm
    have hsleep := ht.sleeps m hm
    rw [List.length_cons]
    omega

theorem Ok.consoleread (h : s.Ok) (killed : Bool) {target n : ℕ} (hn : n ≤ target) :
    s.Reads killed target n (consoleread killed target n s) := by
  induction n generalizing s with
  | zero =>
    refine h.reads_nil ?_ ?_
    · rintro v ⟨⟩ -
      exact (Int.sub_zero _).symm
    · rintro m ⟨⟩
  | succ n ih =>
    rw [Input.consoleread]
    split
    · split
      · rename_i hk
        exact h.reads_nil (fun v _ hk' => by simp [hk] at hk') (fun m hm => nomatch hm)
      · exact h.reads_nil (fun v hv => nomatch hv) (fun m hm => (ReadEnd.sleeps.inj hm).symm)
    rename_i hne
    obtain ⟨hpop, hready⟩ := h.pop hne
    split
    · rename_i hfront
      split
      · -- `^D` after some bytes stays in the buffer.
        rw [h.unpop_pop]
        refine h.reads_nil ?_ ?_
        · rintro v ⟨⟩ -
          rfl
        · rintro m ⟨⟩
      · rename_i hlt
        obtain rfl : n + 1 = target := by omega
        have htaken : ∀ v, (⟨s.pop, [], true, .returns v⟩ : ReadStretch).taken = [C 'D'] :=
          fun _ => rfl
        refine ⟨hpop, ?_, s.line_pop, rfl, ?_, List.not_mem_nil, fun _ => ⟨rfl, rfl, ?_⟩, ?_, ?_⟩
        · rw [h.unread_eq hne, hfront, htaken, List.singleton_append]
        · rw [htaken, Input.pop, List.length_singleton]
        · rw [Int.sub_self]
        · rintro v ⟨⟩ -
          exact (Int.add_zero _).symm
        · rintro m ⟨⟩
    rename_i hfront
    split
    · refine Reads.cons h hne (by omega) hfront (hpop.reads_nil ?_ ?_)
      · rintro v ⟨⟩ -
        rfl
      · rintro m ⟨⟩
    · exact Reads.cons h hne (by omega) hfront (ih hpop (by omega))

theorem Reads.shows {st : ReadStretch} {killed : Bool} {target n : ℕ}
    (hs : s.Reads killed target n st) (h : s.Shows past t) :
    st.input.Shows (past ++ st.taken) { t with taken := t.taken + st.taken.length } := by
  refine ⟨hs.ok, ?_, ?_, ?_, ?_⟩
  · rw [hs.line]
    exact h.newline
  · show t.committed = _
    rw [h.committed, hs.unread, List.append_assoc]
  · show t.taken + _ = _
    rw [h.taken, List.length_append]
  · show t.line = _
    rw [h.line, hs.line]

theorem Reads.took_eof {st : ReadStretch} {killed : Bool} {target n : ℕ} {got : List Byte}
    (hs : s.Reads killed target n st) (hgot : got.length + n = target)
    (hmem : C 'D' ∈ st.taken) : got = [] ∧ st.taken = [C 'D'] ∧ st.value = some 0 := by
  have heof : st.eof = true := by
    refine Bool.of_not_eq_false fun heof => hs.moved ?_
    rwa [ReadStretch.taken, heof, if_neg Bool.false_ne_true, List.append_nil] at hmem
  obtain ⟨hmoved, hn, hends⟩ := hs.eof heof
  refine ⟨?_, ?_, ?_⟩
  · rw [← List.length_eq_zero_iff]
    omega
  · rw [ReadStretch.taken, hmoved, heof, if_pos rfl, List.nil_append]
  · rw [ReadStretch.value, hends]

theorem Reads.took_value {st : ReadStretch} {killed : Bool} {target n : ℕ} {got : List Byte} {v : ℤ}
    (hs : s.Reads killed target n st) (hgot : got.length + n = target) (hmem : C 'D' ∉ got)
    (hv : st.value = some v) (hk : killed = false) :
    v = ((got ++ st.taken).filter (· ≠ C 'D')).length := by
  have hends : st.ends = .returns v := by
    unfold ReadStretch.value at hv
    split at hv
    · rw [‹st.ends = _›, Option.some.inj hv]
    · cases hv
  have hret := hs.returns v hends hk
  have hall : ∀ l : List Byte, C 'D' ∉ l → l.filter (· ≠ C 'D') = l := by
    intro l hl
    refine List.filter_eq_self.2 fun c hc => decide_eq_true fun heq => hl ?_
    rwa [← heq]
  have heof : (if st.eof then [C 'D'] else []).filter (· ≠ C 'D') = [] := by
    split
    · simp
    · rfl
  rw [ReadStretch.taken, List.filter_append, List.filter_append, hall got hmem, hall _ hs.moved,
    heof, List.append_nil, List.length_append]
  omega

theorem Reads.kept {st : ReadStretch} {killed : Bool} {target n : ℕ}
    (hs : s.Reads killed target n st) : Kept s st.taken.length st.input := by
  refine ⟨fun k _ => by rw [hs.buf], hs.r, ?_⟩
  have hlen := congrArg List.length hs.unread
  rw [List.length_append, length_unread, length_unread] at hlen
  omega

end Input

namespace Consoles

open Input (C)

variable {ι : Type} [DecidableEq ι] {s₀ s s' : Consoles ι} {e : ConsEvent ι × Took}
  {π : List ((ConsEvent ι × Took) × Consoles ι)}

/-- Nothing is in the buffer, and nobody is in a call. The indices may have any value. -/
structure Idle (s : Consoles ι) : Prop where
  r : s.input.r < 4294967296
  w : s.input.w = s.input.r
  e : s.input.e = s.input.r
  place : ∀ i, s.place i = .user

def tty : List ((ConsEvent ι × Took) × Consoles ι) → Tty
  | [] => ⟨[], 0, []⟩
  | ((.intr cs, _), _) :: π => cs.foldl Tty.key (tty π)
  | ((_, m), _) :: π => { tty π with taken := (tty π).taken + m.bytes.length }

def taken : List ((ConsEvent ι × Took) × Consoles ι) → List Byte
  | [] => []
  | ((_, m), _) :: π => taken π ++ m.bytes

def got (i : ι) : List ((ConsEvent ι × Took) × Consoles ι) → List Byte
  | [] => []
  | ((.call j _, _), _) :: π => if j = i then [] else got i π
  | ((.run j, m), _) :: π => if j = i then got i π ++ m.bytes else got i π
  | _ :: π => got i π

/-- The buffer shows the terminal, and each call in progress has delivered all that it has taken. -/
structure Good (s₀ : Consoles ι) (π : List ((ConsEvent ι × Took) × Consoles ι)) : Prop where
  shows : (last s₀ π).input.Shows (taken π) (tty π)
  call : ∀ i c, ((last s₀ π).place i).call = some c →
    (got i π).length + c.n = c.target ∧ C 'D' ∉ got i π

theorem Idle.good (h : s₀.Idle) : Good s₀ ([] : List ((ConsEvent ι × Took) × Consoles ι)) := by
  obtain ⟨hr, hw, he, hplace⟩ := h
  have hready : s₀.input.ready = 0 := by
    simp only [Input.ready, uint, hw]
    omega
  have hcount : s₀.input.count = 0 := by
    simp only [Input.count, uint, he]
    omega
  have hline : s₀.input.line = [] := by
    rw [← List.length_eq_zero_iff, Input.length_line, Input.editing, hw, he]
    simp only [uint]
    omega
  have hunread : s₀.input.unread = [] := by
    rw [← List.length_eq_zero_iff, Input.length_unread, hready]
  refine ⟨⟨⟨hr, by rwa [last_nil, hw], by rwa [last_nil, he], ?_, ?_⟩, ?_, ?_, rfl, ?_⟩, ?_⟩
  · rw [last_nil, hready]
    exact Nat.zero_le _
  · rw [last_nil, hcount]
    exact Nat.zero_le _
  · rw [last_nil, hline]
    exact List.not_mem_nil
  · rw [last_nil, hunread]
    rfl
  · rw [last_nil, hline]
    rfl
  · intro i c hc
    rw [last_nil, hplace i] at hc
    cases hc

theorem call_wake (a : ConsAt) : a.wake.call = a.call := by
  cases a with
  | user => rfl
  | enter c => rfl
  | asleep c => rfl
  | woken c => rfl

theorem Good.reads (h : Good s₀ π) {i : ι} {c : ReadCall}
    (hc : ((last s₀ π).place i).call = some c) :
    (last s₀ π).input.Reads ((last s₀ π).killed i) c.target c.n ((last s₀ π).stretch i c) :=
  h.shows.ok.consoleread _ (by have := (h.call i c hc).1; omega)

theorem Good.step (h : Good s₀ π) (hs : (last s₀ π).step e s') : Good s₀ ((e, s') :: π) := by
  obtain ⟨cs, rfl, rfl⟩ | ⟨i, n, rfl, hplace, rfl⟩ | ⟨i, c, rfl, hc, rfl⟩ | ⟨i, rfl, rfl⟩ :=
    step_cases hs
  · refine ⟨?_, fun j c' hc' => h.call j c' ?_⟩
    · rw [taken, List.append_nil]
      exact (h.shows.consoleintr cs).1
    · rw [← hc', last_cons]
      show _ = ConsAt.call (if _ then _ else _)
      split
      · exact (call_wake _).symm
      · rfl
  · refine ⟨?_, fun j c' hc' => ?_⟩
    · rw [taken, List.append_nil]
      exact h.shows
    · by_cases hj : i = j
      · subst hj
        obtain rfl : ⟨n.toNat, n.toNat⟩ = c' := by simpa [ConsAt.call] using hc'
        simp [got]
      · rw [got, if_neg hj]
        refine h.call j c' ?_
        rw [← hc', last_cons]
        show _ = (update (last s₀ π).place i _ j).call
        rw [update_of_ne (Ne.symm hj)]
  · have hreads := h.reads hc
    refine ⟨hreads.shows h.shows, fun j c' hc' => ?_⟩
    by_cases hj : i = j
    · subst hj
      rw [last_cons] at hc'
      have hplace : (((last s₀ π).stretch i c).place c.target).call = some c' := by
        rw [← hc']
        show _ = (update (last s₀ π).place i _ i).call
        rw [update_self]
      -- A stretch that sleeps has consumed no `^D`.
      obtain ⟨m, hends⟩ : ∃ m, ((last s₀ π).stretch i c).ends = .sleeps m := by
        unfold ReadStretch.place at hplace
        split at hplace
        · cases hplace
        · exact ⟨_, ‹_›⟩
      have heof : ((last s₀ π).stretch i c).eof = false := by
        refine Bool.eq_false_iff.2 fun heof => ?_
        have hret := (hreads.eof heof).2.2
        rw [hends] at hret
        cases hret
      have htaken : ((last s₀ π).stretch i c).taken = ((last s₀ π).stretch i c).moved := by
        rw [ReadStretch.taken, heof]
        exact List.append_nil _
      obtain rfl : ⟨c.target, m⟩ = c' := by
        rw [ReadStretch.place, hends] at hplace
        exact Option.some.inj hplace
      obtain ⟨hlen, hmem⟩ := h.call i c hc
      have hsleep := hreads.sleeps m hends
      rw [got, if_pos rfl, htaken]
      refine ⟨?_, fun hd => (List.mem_append.1 hd).elim hmem hreads.moved⟩
      show (got i π ++ ((last s₀ π).stretch i c).moved).length + m = c.target
      rw [List.length_append]
      omega
    · rw [got, if_neg hj]
      refine h.call j c' ?_
      rw [← hc', last_cons]
      show _ = (update (last s₀ π).place i _ j).call
      rw [update_of_ne (Ne.symm hj)]
  · refine ⟨?_, fun j c' hc' => h.call j c' ?_⟩
    · rw [taken, List.append_nil]
      exact h.shows
    · rw [← hc', last_cons]
      show _ = (update (last s₀ π).place i _ j).call
      by_cases hj : j = i
      · subst hj
        rw [update_self, call_wake]
      · rw [update_of_ne hj]

theorem Idle.run (h : s₀.Idle) (hπ : IsRun step s₀ π) : Good s₀ π :=
  (hπ.along (P := fun π => Good s₀ π) h.good fun _ _ _ _ hP hs => hP.step hs).here

/-- The buffer stays within its bounds. What has been committed is what reads have taken, in order,
and after it what waits between `r` and `w`; no step changes or skips any of that. The read that
takes a `^D` has taken nothing else and returns 0; a read of a process that has not been killed
returns the number of bytes that it has taken otherwise. -/
theorem consoleread_committed (h₀ : s₀.Idle) (hπ : IsRun step s₀ π) :
    (last s₀ π).input.ready ≤ (last s₀ π).input.count ∧
    (last s₀ π).input.count ≤ INPUT_BUF ∧
    (tty π).committed = taken π ++ (last s₀ π).input.unread ∧
    (tty π).line = (last s₀ π).input.line ∧
    ∀ e s', (last s₀ π).step e s' →
      (last s₀ π).input.Kept e.2.bytes.length s'.input ∧
      ∀ i, e.1 = .run i →
        (C 'D' ∈ e.2.bytes → got i π = [] ∧ e.2.bytes = [C 'D'] ∧ e.2.value = some 0) ∧
        ∀ v, e.2.value = some v → (last s₀ π).killed i = false →
          v = ((got i π ++ e.2.bytes).filter (· ≠ C 'D')).length := by
  have h := h₀.run hπ
  refine ⟨h.shows.ok.ready_le, h.shows.ok.count_le, h.shows.committed, h.shows.line, ?_⟩
  intro e s' hs
  obtain ⟨cs, rfl, rfl⟩ | ⟨i, n, rfl, hplace, rfl⟩ | ⟨i, c, rfl, hc, rfl⟩ | ⟨i, rfl, rfl⟩ :=
    step_cases hs
  · exact ⟨(h.shows.consoleintr cs).2, fun j hj => nomatch hj⟩
  · exact ⟨.refl h.shows.ok, fun j hj => nomatch hj⟩
  · have hreads := h.reads hc
    obtain ⟨hlen, hmem⟩ := h.call i c hc
    refine ⟨hreads.kept, fun j hj => ?_⟩
    obtain rfl := ConsEvent.run.inj hj
    exact ⟨hreads.took_eof hlen, fun v => hreads.took_value hlen hmem⟩
  · exact ⟨.refl h.shows.ok, fun j hj => nomatch hj⟩

def beforeWrap : Consoles Unit :=
  ⟨⟨fun _ => 0, 4294967292, 4294967292, 4294967292⟩, fun _ => .user, fun _ => false⟩

def lsThenEof : List (ConsEvent Unit) :=
  [.intr ("lx".toList.map Input.char), .call () 8, .run (),
    .intr (C 'H' :: "s\r".toList.map Input.char ++ [C 'D']), .run (), .call () 8, .run ()]

/-- The first read takes the line, and the second one the `^D`. -/
theorem consoleread_committed_ls :
    ∃ π, IsRun step beforeWrap π ∧
      (tty π).committed = taken π ++ (last beforeWrap π).input.unread ∧
      taken π = "ls\n".toList.map Input.char ++ [C 'D'] ∧ got () π = [C 'D'] := by
  have heval : (history (tickOut next) beforeWrap []
      lsThenEof).map (fun π => (taken π, got () π)) =
        some ("ls\n".toList.map Input.char ++ [C 'D'], [C 'D']) := by decide +kernel
  obtain ⟨π, hrun, hsees⟩ := exists_run_tickOut heval
  obtain ⟨htaken, hgot⟩ := Prod.mk.inj hsees
  have hidle : beforeWrap.Idle := ⟨by decide, rfl, rfl, fun _ => rfl⟩
  exact ⟨π, hrun, (consoleread_committed hidle hrun).2.2.1, htaken, hgot⟩

end Consoles

end Xv6
