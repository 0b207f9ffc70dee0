import Xv6.Pipe.Machine

/-!
# Wakeups of pipes

A reader sleeps while the pipe is empty and the write end open, a writer while the pipe is full and
the read end open. Each exit that changes `nread` or `nwrite` should have woken the other side. One
does not: a writer that finds the buffer full and itself killed, or the read end closed, returns -1
at once, although it may have stored bytes in the same stretch. `Prompt` excludes the steps in which
that leaves a reader asleep, and it is exact.
-/

namespace Xv6.Pipes

open Function Run

variable {ι β : Type} [DecidableEq ι] {s s' : Pipes ι β} {e : PipeEvent ι β × Moved β}

/-- What is meant: a reader that sleeps and has not been woken has nothing to read and may get
something, and a writer that sleeps has no room and may get some. -/
structure NoneMissed (s : Pipes ι β) : Prop where
  reader : ∀ i n, s.place i = .asleep (.read n) → s.pipe.count = 0 ∧ s.pipe.writeopen = true
  writer : ∀ i n rest, s.place i = .asleep (.write n rest) →
    s.pipe.count = PIPESIZE ∧ s.pipe.readopen = true

def Prompt (s : Pipes ι β) (e : PipeEvent ι β × Moved β) : Prop :=
  ∀ i n rest, e.1 = .run i → s.place i = .enter (.write n rest) ∨ s.place i = .woken (.write n rest) →
    s.killed i = true ∨ s.pipe.readopen = false → s.pipe.count < PIPESIZE →
    PIPESIZE - s.pipe.count < rest.length → ∀ j m, s.place j ≠ .asleep (.read m)

/-! ## Stretches -/

theorem write_open (p : Pipe β) (killed : Bool) (n : ℤ) (rest : List β) :
    (p.write killed n rest).pipe.readopen = p.readopen ∧
      (p.write killed n rest).pipe.writeopen = p.writeopen := by
  induction rest generalizing p with
  | nil => exact ⟨rfl, rfl⟩
  | cons b rest ih =>
    cases hf : p.full with
    | true =>
      rw [Pipe.write_cons_of_full hf]
      split
      · exact ⟨rfl, rfl⟩
      · exact ⟨rfl, rfl⟩
    | false =>
      rw [Pipe.write_cons hf]
      exact ih (p.push b)

theorem write_of_room {p : Pipe β} (h : p.Ok) (killed : Bool) (n : ℤ) {rest : List β}
    (hroom : p.count + rest.length ≤ PIPESIZE) :
    (p.write killed n rest).pipe.count = p.count + rest.length ∧
      (p.write killed n rest).wakes = some .nread ∧
      (p.write killed n rest).ends = .returns n := by
  induction rest generalizing p with
  | nil => exact ⟨(Nat.add_zero _).symm, rfl, rfl⟩
  | cons b rest ih =>
    rw [List.length_cons] at hroom
    have hf : p.full = false := by
      refine Bool.eq_false_iff.2 fun hfull => ?_
      have := h.full_iff.1 hfull
      omega
    have hcount := h.count_push hf b
    obtain ⟨h1, h2, h3⟩ := ih (h.push hf b) (by omega)
    rw [Pipe.write_cons hf]
    refine ⟨?_, h2, h3⟩
    rw [List.length_cons]
    show ((p.push b).write killed n rest).pipe.count = _
    omega

theorem write_of_full {p : Pipe β} (h : p.Ok) (killed : Bool) (n : ℤ) {rest : List β}
    (hroom : PIPESIZE < p.count + rest.length) :
    (p.write killed n rest).pipe.count = PIPESIZE ∧
      ((killed = true ∨ p.readopen = false) ∧ (p.write killed n rest).wakes = none ∧
          (p.write killed n rest).ends = .returns (-1) ∨
        (killed = false ∧ p.readopen = true) ∧ (p.write killed n rest).wakes = some .nread ∧
          ∃ rest', (p.write killed n rest).ends = .sleeps (.write n rest')) := by
  induction rest generalizing p with
  | nil =>
    have := h.count
    rw [List.length_nil] at hroom
    omega
  | cons b rest ih =>
    rw [List.length_cons] at hroom
    cases hf : p.full with
    | true =>
      have hcount := h.full_iff.1 hf
      rw [Pipe.write_cons_of_full hf]
      split
      · rename_i hfail
        exact ⟨hcount, .inl ⟨hfail.symm, rfl, rfl⟩⟩
      · rename_i hfail
        obtain ⟨hopen, hkilled⟩ := not_or.1 hfail
        refine ⟨hcount, .inr ⟨⟨?_, ?_⟩, rfl, b :: rest, rfl⟩⟩
        · simpa using hkilled
        · simpa using hopen
    | false =>
      have hcount := h.count_push hf b
      rw [Pipe.write_cons hf]
      exact ih (h.push hf b) (by omega)

theorem read_cases {p : Pipe β} (h : p.Ok) (killed : Bool) (n : ℤ) :
    (p.count = 0 ∧ p.writeopen = true ∧ (p.read killed n).pipe = p ∧
      (p.read killed n).wakes = none ∧ ((p.read killed n).ends = .returns (-1) ∨
        (p.read killed n).ends = .sleeps (.read n))) ∨
    (¬ (p.count = 0 ∧ p.writeopen = true) ∧ (p.read killed n).wakes = some .nwrite ∧
      ∃ r, (p.read killed n).ends = .returns r) := by
  rw [Pipe.read]
  split
  · rename_i he
    have hcount := h.empty_iff.1 he.1
    split
    · exact .inl ⟨hcount, he.2, rfl, rfl, .inl rfl⟩
    · exact .inl ⟨hcount, he.2, rfl, rfl, .inr rfl⟩
  · rename_i he
    exact .inr ⟨fun hc => he ⟨h.empty_iff.2 hc.1, hc.2⟩, rfl, _, rfl⟩

/-! ## Steps -/

theorem asleep_of_wake {a : PipeAt β} {x : Option PipeChan} {c : PipeCall β}
    (h : a.wake x = .asleep c) : a = .asleep c ∧ x ≠ some c.chan := by
  cases a with
  | user => cases h
  | enter c' => cases h
  | woken c' => cases h
  | asleep c' =>
    rw [PipeAt.wake] at h
    split at h
    · cases h
    · rename_i hx
      obtain rfl : c' = c := by
        injection h
      exact ⟨rfl, hx⟩

theorem put_place_self (t : Stretch β) (i : ι) : (s.put i t).place i = t.ends.place := by
  simp only [put, update_self]

theorem put_place_of_ne (t : Stretch β) {i j : ι} (h : j ≠ i) :
    (s.put i t).place j = (s.place j).wake t.wakes := by
  simp only [put, update_of_ne h]

theorem asleep_of_put {t : Stretch β} {i j : ι} {c : PipeCall β}
    (h : (s.put i t).place j = .asleep c) :
    (j = i ∧ t.ends = .sleeps c) ∨ (j ≠ i ∧ s.place j = .asleep c ∧ t.wakes ≠ some c.chan) := by
  by_cases hj : j = i
  · subst hj
    rw [put_place_self] at h
    refine .inl ⟨rfl, ?_⟩
    cases ht : t.ends with
    | returns r =>
      rw [ht] at h
      cases h
    | sleeps c' =>
      rw [ht] at h
      injection h with h'
      rw [h']
  · rw [put_place_of_ne t hj] at h
    exact .inr ⟨hj, asleep_of_wake h⟩

theorem NoneMissed.write {i : ι} {n : ℤ} {rest : List β} (h : s.NoneMissed) (hok : s.pipe.Ok)
    (hprompt : s.killed i = true ∨ s.pipe.readopen = false → s.pipe.count < PIPESIZE →
      PIPESIZE - s.pipe.count < rest.length → ∀ j m, s.place j ≠ .asleep (.read m)) :
    (s.put i (s.pipe.write (s.killed i) n rest)).NoneMissed := by
  obtain ⟨hread, hwrite⟩ := write_open s.pipe (s.killed i) n rest
  have hcap := hok.count
  by_cases hroom : s.pipe.count + rest.length ≤ PIPESIZE
  · obtain ⟨hcount, hwakes, hends⟩ := write_of_room hok (s.killed i) n hroom
    refine ⟨fun j m hj => ?_, fun j m rest' hj => ?_⟩
    · rcases asleep_of_put hj with ⟨-, he⟩ | ⟨-, -, hx⟩
      · rw [hends] at he
        cases he
      · exact absurd hwakes hx
    · rcases asleep_of_put hj with ⟨-, he⟩ | ⟨-, hj', -⟩
      · rw [hends] at he
        cases he
      · obtain ⟨hfull, hopen⟩ := h.writer j m rest' hj'
        refine ⟨?_, hread.trans hopen⟩
        show (s.pipe.write (s.killed i) n rest).pipe.count = PIPESIZE
        omega
  · obtain ⟨hcount, hends⟩ := write_of_full hok (s.killed i) n (not_le.1 hroom)
    refine ⟨fun j m hj => ?_, fun j m rest' hj => ?_⟩
    · rcases asleep_of_put hj with ⟨-, he⟩ | ⟨-, hj', hx⟩
      · rcases hends with ⟨-, -, hr⟩ | ⟨-, -, r, hr⟩
        · rw [hr] at he
          cases he
        · rw [hr] at he
          cases he
      · -- A reader sleeps on, so that the buffer was empty and nobody was woken.
        have hzero := (h.reader j m hj').1
        rcases hends with ⟨hfail, -, -⟩ | ⟨-, hw, -⟩
        · exact absurd hj' (hprompt hfail (by rw [hzero]; exact PIPESIZE_pos) (by omega) j m)
        · exact absurd hw hx
    · refine ⟨hcount, hread.trans ?_⟩
      rcases asleep_of_put hj with ⟨-, he⟩ | ⟨-, hj', -⟩
      · rcases hends with ⟨-, -, hr⟩ | ⟨⟨-, hopen⟩, -⟩
        · rw [hr] at he
          cases he
        · exact hopen
      · exact (h.writer j m rest' hj').2

theorem NoneMissed.read {i : ι} {n : ℤ} (h : s.NoneMissed) (hok : s.pipe.Ok) :
    (s.put i (s.pipe.read (s.killed i) n)).NoneMissed := by
  rcases read_cases hok (s.killed i) n with ⟨hzero, hopen, hpipe, hwakes, hends⟩ | ⟨hne, hwakes, r, hends⟩
  · have hpipe' : (s.put i (s.pipe.read (s.killed i) n)).pipe = s.pipe := hpipe
    refine ⟨fun j m hj => ?_, fun j m rest hj => ?_⟩
    · rw [hpipe']
      exact ⟨hzero, hopen⟩
    · rw [hpipe']
      rcases asleep_of_put hj with ⟨-, he⟩ | ⟨-, hj', -⟩
      · rcases hends with hr | hr
        · rw [hr] at he
          cases he
        · rw [hr] at he
          cases he
      · exact h.writer j m rest hj'
  · refine ⟨fun j m hj => ?_, fun j m rest hj => ?_⟩
    · rcases asleep_of_put hj with ⟨-, he⟩ | ⟨-, hj', -⟩
      · rw [hends] at he
        cases he
      · exact absurd (h.reader j m hj') hne
    · rcases asleep_of_put hj with ⟨-, he⟩ | ⟨-, -, hx⟩
      · rw [hends] at he
        cases he
      · exact absurd hwakes hx

omit [DecidableEq ι] in
theorem NoneMissed.close (h : s.NoneMissed) (writable : Bool) : (s.close writable).NoneMissed := by
  obtain ⟨-, hread, hwrite⟩ := s.close_pipe writable
  have hcount : (s.close writable).pipe.count = s.pipe.count := by
    rw [Pipe.count, hread, hwrite, Pipe.count]
  refine ⟨fun j m hj => ?_, fun j m rest hj => ?_⟩
  · obtain ⟨hj', hx⟩ := asleep_of_wake hj
    rw [hcount]
    cases writable with
    | true => exact absurd rfl hx
    | false => exact h.reader j m hj'
  · obtain ⟨hj', hx⟩ := asleep_of_wake hj
    rw [hcount]
    cases writable with
    | true => exact h.writer j m rest hj'
    | false => exact absurd rfl hx

theorem asleep_of_kill {i j : ι} {c : PipeCall β} (h : (s.kill i).place j = .asleep c) :
    s.place j = .asleep c := by
  by_cases hj : j = i
  · subst hj
    simp only [kill, update_self] at h
    split at h
    · cases h
    · exact h
  · simpa only [kill, update_of_ne hj] using h

theorem noneMissed_iff_prompt (hok : s.pipe.Ok) (hstep : s.step e s') (h : s.NoneMissed) :
    s'.NoneMissed ↔ Prompt s e := by
  constructor
  · rintro h' i n rest he hplace hfail hlt hroom j m hj
    -- The writer stores bytes and fails, and the reader is not woken.
    obtain ⟨i', c, rfl, -⟩ | ⟨i', c, rfl, hc, -, rfl⟩ | ⟨w, rfl, -⟩ | ⟨i', rfl, -⟩ := step_cases hstep
    · cases he
    · obtain rfl : i' = i := by injection he
      obtain rfl : c = .write n rest := by
        rcases hplace with hp | hp
        · rcases hc with hc | hc
          · rw [hc] at hp
            injection hp
          · rw [hc] at hp
            cases hp
        · rcases hc with hc | hc
          · rw [hc] at hp
            cases hp
          · rw [hc] at hp
            injection hp
      have hji : j ≠ i' := by
        rintro rfl
        rcases hplace with hp | hp
        · rw [hj] at hp
          cases hp
        · rw [hj] at hp
          cases hp
      have hover : PIPESIZE < s.pipe.count + rest.length := by omega
      obtain ⟨hcount, hends⟩ := write_of_full hok (s.killed i') n hover
      have hwakes : (s.pipe.write (s.killed i') n rest).wakes = none := by
        rcases hends with ⟨-, hw, -⟩ | ⟨⟨hk, hr⟩, -⟩
        · exact hw
        · rcases hfail with hf | hf
          · rw [hk] at hf
            cases hf
          · rw [hr] at hf
            cases hf
      have hstill : (s.put i' (s.pipe.write (s.killed i') n rest)).place j = .asleep (.read m) := by
        rw [put_place_of_ne _ hji, hwakes, hj]
        rfl
      have hzero : (s.pipe.write (s.killed i') n rest).pipe.count = 0 := (h'.reader j m hstill).1
      exact absurd (hcount.symm.trans hzero) (by decide)
    · cases he
    · cases he
  · intro hprompt
    obtain ⟨i, c, rfl, -, -, -, rfl⟩ | ⟨i, c, rfl, hc, -, rfl⟩ | ⟨w, rfl, -, rfl⟩ | ⟨i, rfl, rfl⟩ :=
      step_cases hstep
    · have hold : ∀ j c', update s.place i (.enter c.call) j = .asleep c' →
          s.place j = .asleep c' := by
        intro j c' hj
        by_cases hji : j = i
        · rw [hji, update_self] at hj
          cases hj
        · rwa [update_of_ne hji] at hj
      exact ⟨fun j m hj => h.reader j m (hold j _ hj),
        fun j m rest hj => h.writer j m rest (hold j _ hj)⟩
    · cases c with
      | write n rest => exact h.write hok (hprompt i n rest rfl hc)
      | read n => exact h.read hok
    · exact h.close w
    · exact ⟨fun j m hj => h.reader j m (asleep_of_kill hj),
        fun j m rest hj => h.writer j m rest (asleep_of_kill hj)⟩

/-- In a run, nobody is ever asleep who should be awake exactly if every step meets the condition. -/
theorem noneMissed_iff_meets_prompt {data : Fin PIPESIZE → β} {killed : ι → Bool}
    {π : List ((PipeEvent ι β × Moved β) × Pipes ι β)} (h : IsRun step (start data killed) π) :
    Along (fun π => (last (start data killed) π).NoneMissed) π ↔
      Meets Prompt (start data killed) π :=
  h.along_iff_meets (I := fun s => s.pipe.Ok) (P := NoneMissed) (Pipe.ok_alloc data)
    (fun _ _ _ hok hstep => (step_buffered hstep hok).1)
    ⟨fun _ _ hi => (by cases hi), fun _ _ _ hi => (by cases hi)⟩
    fun _ _ _ hok hstep hm => noneMissed_iff_prompt hok hstep hm

/-- A reader enters an empty pipe and sleeps, as it should. -/
theorem noneMissed_iff_meets_prompt_read :
    ∃ π : List ((PipeEvent Bool ℕ × Moved ℕ) × Pipes Bool ℕ),
      IsRun step (start (fun _ => 0) fun _ => false) π ∧
      (last (start (fun _ => 0) fun _ => false) π).place true = .asleep (.read 1) ∧
      Along (fun π => (last (start (fun _ => 0) fun _ => false) π).NoneMissed) π := by
  let s₀ : Pipes Bool ℕ := start (fun _ => 0) fun _ => false
  let s₁ : Pipes Bool ℕ := { s₀ with place := update s₀.place true (.enter (.read 1)) }
  let s₂ : Pipes Bool ℕ := s₁.put true (s₁.pipe.read false 1)
  have hrun : IsRun step s₀ [((.run true, ⟨[], []⟩), s₂), ((.call true (.read 1), ⟨[], []⟩), s₁)] :=
    ⟨rfl, rfl, trivial⟩
  refine ⟨_, hrun, rfl, (noneMissed_iff_meets_prompt hrun).2 ⟨?_, ?_, trivial⟩⟩
  · intro i n rest he hplace
    obtain rfl : true = i := by injection he
    rcases hplace with hp | hp
    · cases hp
    · cases hp
  · intro i n rest he
    cases he

/-- A reader sleeps. A writer of 513 bytes is killed before it has the lock: it stores 512 bytes and
returns -1, and the reader sleeps on in front of a full buffer with both ends open. -/
theorem reader_asleep_at_full_pipe :
    ∃ π : List ((PipeEvent Bool ℕ × Moved ℕ) × Pipes Bool ℕ),
      IsRun step (start (fun _ => 0) fun _ => false) π ∧
      (last (start (fun _ => 0) fun _ => false) π).place true = .asleep (.read 1) ∧
      (last (start (fun _ => 0) fun _ => false) π).pipe.count = 512 ∧
      (last (start (fun _ => 0) fun _ => false) π).pipe.readopen = true ∧
      (last (start (fun _ => 0) fun _ => false) π).pipe.writeopen = true ∧
      ¬ Along (fun π => (last (start (fun _ => 0) fun _ => false) π).NoneMissed) π := by
  have heval : (history (tickOut next)
      (start (fun _ => 0) fun _ => false) [] [.call true (.read 1), .run true,
        .call false (.write (fun k => k) 513), .kill false, .run false]).map (fun π =>
          ((last (start (fun _ => 0) fun _ => false) π).place true,
            (last (start (fun _ => 0) fun _ => false) π).pipe.count,
            (last (start (fun _ => 0) fun _ => false) π).pipe.readopen,
            (last (start (fun _ => 0) fun _ => false) π).pipe.writeopen)) =
      some (.asleep (.read 1), 512, true, true) := by
    decide +kernel
  obtain ⟨π, hrun, heq⟩ := exists_run_tickOut heval
  obtain ⟨hplace, hrest⟩ := Prod.mk.inj heq
  obtain ⟨hcount, hopen⟩ := Prod.mk.inj hrest
  obtain ⟨hread, hwrite⟩ := Prod.mk.inj hopen
  refine ⟨π, hrun, hplace, hcount, hread, hwrite, fun h => ?_⟩
  have hzero := (h.here.reader true 1 hplace).1
  rw [hcount] at hzero
  cases hzero

end Xv6.Pipes
