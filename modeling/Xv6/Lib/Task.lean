import Xv6.Lib.Run
import Mathlib.Order.Nat
import Mathlib.Logic.Function.Basic
import Mathlib.Logic.Relation

/-!
# Tasks: programs over named operations, and protocols for them

A `Task ω ρ α` is a program that performs operations of `ω` one at a time, goes on with the answer
of each, and returns an `α` or panics. `Tasks` is any number of tasks over one shared state; an
operation is atomic and may have to wait.

Since operations are data, what a task is about to do can be read off it. A `Task.Protocol` says, of a
ghost state that every task carries, which operations it allows, what it promises of their answers,
and how the ghost state moves. `Task.Follows` is checked for each program alone. `Protocol.Keeps`
is the obligation for the shared state: an invariant that relates it to all ghost states is kept by
every operation that the protocol allows, and entails the promises. `Protocol.Keeps.run` puts the
two together for all interleavings.
-/

namespace Xv6

open Function

/-- A program over the operations `ω`, where the operation `o` answers with a `ρ o`. -/
inductive Task (ω : Type) (ρ : ω → Type) (α : Type)
  /-- Return `a`. -/
  | ret (a : α)
  /-- Perform `o` and continue with its answer. -/
  | op (o : ω) (k : ρ o → Task ω ρ α)
  /-- Stop the machine. -/
  | panic (why : String)

/-- What a protocol says of the operations of a task with a ghost state in `γ`. -/
structure Task.Protocol (ω : Type) (ρ : ω → Type) (γ : Type) where
  /-- The operations that it allows. -/
  allow : γ → ω → Prop
  /-- What it promises of the answer. -/
  answer : γ → (o : ω) → ρ o → Prop
  /-- The ghost state after the operation. -/
  next : γ → (o : ω) → ρ o → γ
  /-- The panics that it allows. -/
  dies : String → Prop

namespace Task

variable {ω : Type} {ρ : ω → Type} {α β γ : Type}

def bind : Task ω ρ α → (α → Task ω ρ β) → Task ω ρ β
  | ret a, f => f a
  | op o k, f => op o fun r => (k r).bind f
  | panic why, _ => panic why

instance : Monad (Task ω ρ) where
  pure := ret
  bind := bind

/-- One operation. -/
def call (o : ω) : Task ω ρ (ρ o) := op o ret

def why : Task ω ρ α → Option String
  | panic why => some why
  | _ => none

def Follows (P : Task.Protocol ω ρ γ) (Q : α → γ → Prop) : Task ω ρ α → γ → Prop
  | ret a, g => Q a g
  | op o k, g => P.allow g o ∧ ∀ r, P.answer g o r → (k r).Follows P Q (P.next g o r)
  | panic why, _ => P.dies why

variable {P : Task.Protocol ω ρ γ} {Q Q' : α → γ → Prop} {p : Task ω ρ α} {g : γ}

@[simp] theorem follows_call {o : ω} {Q : ρ o → γ → Prop} :
    (call o : Task ω ρ (ρ o)).Follows P Q g ↔
      P.allow g o ∧ ∀ r, P.answer g o r → Q r (P.next g o r) := Iff.rfl

@[simp] theorem follows_bind {p : Task ω ρ β} {f : β → Task ω ρ α} :
    (p >>= f).Follows P Q g ↔ p.Follows P (fun b g => (f b).Follows P Q g) g := by
  show (p.bind f).Follows P Q g ↔ _
  induction p generalizing g with
  | ret b => exact Iff.rfl
  | op o k ih => exact and_congr_right fun _ => forall_congr' fun r => imp_congr_right fun _ => ih r
  | panic why => exact Iff.rfl

theorem Follows.mono (h : p.Follows P Q g) (hQ : ∀ a g, Q a g → Q' a g) : p.Follows P Q' g := by
  induction p generalizing g with
  | ret a => exact hQ a g h
  | op o k ih => exact ⟨h.1, fun r hr => ih r (h.2 r hr)⟩
  | panic why => exact h

theorem Follows.bind {R : β → γ → Prop} {p : Task ω ρ β} {f : β → Task ω ρ α}
    (hp : p.Follows P R g) (hf : ∀ b g, R b g → (f b).Follows P Q g) :
    (p >>= f).Follows P Q g :=
  follows_bind.2 (hp.mono hf)

def Protocol.only (ok : ω → Prop) : Task.Protocol ω ρ Unit where
  allow _ o := ok o
  answer _ _ _ := True
  next _ _ _ := ()
  dies _ := True

theorem follows_only {ok : ω → Prop} (h : ∀ o, ok o) (p : Task ω ρ α) :
    p.Follows (.only ok) (fun _ _ => True) () := by
  induction p with
  | ret a => trivial
  | op o k ih => exact ⟨h o, fun r _ => ih r⟩
  | panic why => trivial

def Avoids (bad : ω → Prop) : Task ω ρ α → Prop
  | ret _ => True
  | op o k => ¬ bad o ∧ ∀ r, (k r).Avoids bad
  | panic _ => True

variable {bad : ω → Prop}

theorem avoids_bind {p : Task ω ρ β} {f : β → Task ω ρ α} (hp : p.Avoids bad)
    (hf : ∀ b, (f b).Avoids bad) : (p >>= f).Avoids bad := by
  show (p.bind f).Avoids bad
  induction p with
  | ret b => exact hf b
  | op o k ih => exact ⟨hp.1, fun r => ih r (hp.2 r)⟩
  | panic why => trivial

theorem avoids_call {o : ω} (ho : ¬ bad o) : (call o : Task ω ρ (ρ o)).Avoids bad :=
  ⟨ho, fun _ => trivial⟩

end Task

/-- What the operations do, and the calls that there are. -/
structure Machine (σ ι ω : Type) (ρ : ω → Type) (κ α : Type) where
  /-- The answer of an operation of task `i` and the state after it; `none` if it has to wait. -/
  perform : ι → (o : ω) → σ → Option (ρ o × σ)
  /-- The program of a call. -/
  prog : κ → Task ω ρ α
  /-- The tasks that may start a call. -/
  ready : σ → ι → Bool

/-- A shared state and the calls in progress. -/
structure Tasks (σ ι ω : Type) (ρ : ω → Type) (α : Type) where
  shared : σ
  task : ι → Option (Task ω ρ α)
  /-- The panic that has stopped the machine. -/
  panicked : Option String

namespace Tasks

variable {σ ι ω : Type} {ρ : ω → Type} {κ α γ : Type} [DecidableEq ι]
  {M : Machine σ ι ω ρ κ α} {T T' : Tasks σ ι ω ρ α} {i j : ι}

/-- A step: task `i` starts call `c`, performs its next operation, or returns. -/
inductive Event (ι κ : Type)
  | start (i : ι) (c : κ)
  | run (i : ι)
  | done (i : ι)

/-- No call is in progress. -/
def idle (s : σ) : Tasks σ ι ω ρ α := ⟨s, fun _ => none, none⟩

def pending (T : Tasks σ ι ω ρ α) (i : ι) : Option ω :=
  match T.task i with
  | some (.op o _) => some o
  | _ => none

def put (T : Tasks σ ι ω ρ α) (i : ι) (s : σ) (t : Task ω ρ α) : Tasks σ ι ω ρ α :=
  ⟨s, update T.task i (some t), t.why⟩

def next (M : Machine σ ι ω ρ κ α) (T : Tasks σ ι ω ρ α) : Event ι κ → Option (Tasks σ ι ω ρ α)
  | .start i c =>
    match T.panicked, T.task i, M.ready T.shared i with
    | none, none, true => some (T.put i T.shared (M.prog c))
    | _, _, _ => none
  | .run i =>
    match T.panicked, T.task i with
    | none, some (.op o k) => (M.perform i o T.shared).map fun x => T.put i x.2 (k x.1)
    | _, _ => none
  | .done i =>
    match T.panicked, T.task i with
    | none, some (.ret _) => some { T with task := update T.task i none }
    | _, _ => none

def step (M : Machine σ ι ω ρ κ α) (T : Tasks σ ι ω ρ α) (e : Event ι κ)
    (T' : Tasks σ ι ω ρ α) : Prop :=
  T.next M e = some T'

def run (M : Machine σ ι ω ρ κ α) (s₀ : σ) (es : List (Event ι κ)) :
    Option (List (Event ι κ × Tasks σ ι ω ρ α)) :=
  Run.history (Run.tick (next M)) (.idle s₀) [] es

theorem exists_run {β : Type*} {s₀ : σ} {es : List (Event ι κ)}
    {f : List (Event ι κ × Tasks σ ι ω ρ α) → β} {b : β} (h : (run M s₀ es).map f = some b) :
    ∃ π, Run.IsRun (step M) (.idle s₀) π ∧ f π = b :=
  Run.exists_run_tick h

omit [DecidableEq ι] in
theorem pending_of_task {o : ω} {k : ρ o → Task ω ρ α} (h : T.task i = some (.op o k)) :
    T.pending i = some o := by
  simp only [pending, h]

omit [DecidableEq ι] in
theorem task_of_pending {o : ω} (h : T.pending i = some o) :
    ∃ k, T.task i = some (.op o k) := by
  unfold pending at h
  split at h
  · rename_i o' k hk
    cases h
    exact ⟨k, hk⟩
  · cases h

def calling : List (Event ι κ × Tasks σ ι ω ρ α) → ι → Option κ
  | [], _ => none
  | (.start j c, _) :: π, i => if i = j then some c else calling π i
  | (.run _, _) :: π, i => calling π i
  | (.done j, _) :: π, i => if i = j then none else calling π i

/-! ## What a step does -/

theorem start_eq {c : κ} (h : T.step M (.start i c) T') :
    T.panicked = none ∧ T.task i = none ∧ M.ready T.shared i = true ∧
      T' = T.put i T.shared (M.prog c) := by
  simp only [step, next] at h
  split at h
  · exact ⟨‹_›, ‹_›, ‹_›, (Option.some.inj h).symm⟩
  · cases h

theorem run_eq (h : T.step M (.run i : Event ι κ) T') :
    ∃ o k r s, T.panicked = none ∧ T.task i = some (.op o k) ∧
      M.perform i o T.shared = some (r, s) ∧ T' = T.put i s (k r) := by
  simp only [step, next] at h
  split at h
  · rename_i o k hnone htask
    obtain ⟨⟨r, s⟩, hperform, rfl⟩ := Option.map_eq_some_iff.1 h
    exact ⟨o, k, r, s, hnone, htask, hperform, rfl⟩
  · cases h

theorem done_eq (h : T.step M (.done i : Event ι κ) T') :
    ∃ a, T.panicked = none ∧ T.task i = some (.ret a) ∧
      T' = { T with task := update T.task i none } := by
  simp only [step, next] at h
  split at h
  · rename_i a hnone htask
    exact ⟨a, hnone, htask, (Option.some.inj h).symm⟩
  · cases h

end Tasks

namespace Task.Protocol

variable {σ ι ω : Type} {ρ : ω → Type} {κ α γ : Type} [DecidableEq ι]
  {M : Machine σ ι ω ρ κ α} {T T' : Tasks σ ι ω ρ α} {i j : ι}
  {P : Task.Protocol ω ρ γ} {Q : γ → Prop} {g₀ g₁ : γ} {I : σ → (ι → γ) → Prop}

/-- Every task keeps to the protocol from its ghost state on, and those that do not run are in ghost
state `g₀`. -/
structure Within (P : Task.Protocol ω ρ γ) (Q : γ → Prop) (g₀ : γ) (T : Tasks σ ι ω ρ α)
    (G : ι → γ) : Prop where
  idle : ∀ i, T.task i = none → G i = g₀
  follows : ∀ i t, T.task i = some t → t.Follows P (fun _ => Q) (G i)
  panicked : ∀ why, T.panicked = some why → P.dies why
  stopped : ∀ i why, T.task i = some (.panic why) → T.panicked ≠ none

/-- What the protocol asks of the shared state, in a run whose steps meet `C`: calls follow it from
ghost state `g₁` on, the invariant `I` is kept by the operations that it allows and entails what it
promises of their answers, and a task that starts or ends a call may move to `g₁` or `g₀`. -/
structure Keeps (P : Task.Protocol ω ρ γ) (Q : γ → Prop) (g₀ g₁ : γ) (M : Machine σ ι ω ρ κ α)
    (C : Tasks σ ι ω ρ α → Tasks.Event ι κ → Prop) (I : σ → (ι → γ) → Prop) : Prop where
  follows : ∀ c, (M.prog c).Follows P (fun _ => Q) g₁
  start : ∀ s G i, I s G → G i = g₀ → M.ready s i = true → I s (update G i g₁)
  run : ∀ T G i o k r s, P.Within Q g₀ T G → T.panicked = none → I T.shared G → C T (.run i) →
    T.task i = some (.op o k) → P.allow (G i) o → M.perform i o T.shared = some (r, s) →
    P.answer (G i) o r ∧ I s (update G i (P.next (G i) o r))
  done : ∀ s G i, I s G → Q (G i) → I s (update G i g₀)

omit [DecidableEq ι] in
theorem Within.waiting {G : ι → γ} (h : P.Within Q g₀ T G) (hp : T.panicked = none) (i : ι) :
    G i = g₀ ∨ Q (G i) ∨ ∃ o, T.pending i = some o ∧ P.allow (G i) o := by
  cases ht : T.task i with
  | none => exact .inl (h.idle i ht)
  | some t =>
    have hf := h.follows i t ht
    cases t with
    | ret a => exact .inr (.inl hf)
    | op o k => exact .inr (.inr ⟨o, Tasks.pending_of_task ht, hf.1⟩)
    | panic why => exact absurd hp (h.stopped i why ht)

theorem Within.put {G : ι → γ} {g : γ} {s : σ} {t : Task ω ρ α} (h : P.Within Q g₀ T G)
    (hp : T.panicked = none) (ht : t.Follows P (fun _ => Q) g) :
    P.Within Q g₀ (T.put i s t) (update G i g) := by
  refine ⟨fun j hj => ?_, fun j t' hj => ?_, fun why hwhy => ?_, fun j why hj => ?_⟩
  · by_cases hji : j = i
    · subst hji
      simp [Tasks.put] at hj
    · rw [update_of_ne hji]
      exact h.idle j ((update_of_ne hji _ _).symm.trans hj)
  · by_cases hji : j = i
    · subst hji
      obtain rfl : t = t' := by simpa [Tasks.put] using hj
      rw [update_self]
      exact ht
    · rw [update_of_ne hji]
      exact h.follows j t' ((update_of_ne hji _ _).symm.trans hj)
  · cases t with
    | panic why' =>
      obtain rfl : why' = why := by simpa [Tasks.put, Task.why] using hwhy
      exact ht
    | ret a => simp [Tasks.put, Task.why] at hwhy
    | op o k => simp [Tasks.put, Task.why] at hwhy
  · by_cases hji : j = i
    · subst hji
      obtain rfl : t = .panic why := by simpa [Tasks.put] using hj
      simp [Tasks.put, Task.why]
    · exact absurd hp (h.stopped j why ((update_of_ne hji _ _).symm.trans hj))

def Moves (P : Task.Protocol ω ρ γ) (g₀ g₁ : γ) (T : Tasks σ ι ω ρ α) (G : ι → γ) :
    Tasks.Event ι κ → (ι → γ) → Prop
  | .start i _, G' => G' = update G i g₁
  | .run i, G' => ∃ o k r, T.task i = some (.op o k) ∧ P.allow (G i) o ∧
      G' = update G i (P.next (G i) o r)
  | .done i, G' => G' = update G i g₀

theorem Keeps.step {C : Tasks σ ι ω ρ α → Tasks.Event ι κ → Prop} {G : ι → γ}
    {e : Tasks.Event ι κ} (hK : P.Keeps Q g₀ g₁ M C I) (h : P.Within Q g₀ T G) (hI : I T.shared G)
    (hC : C T e) (hstep : T.step M e T') :
    ∃ G', P.Within Q g₀ T' G' ∧ I T'.shared G' ∧ P.Moves g₀ g₁ T G e G' := by
  cases e with
  | start i c =>
    obtain ⟨hnone, htask, hready, rfl⟩ := Tasks.start_eq hstep
    exact ⟨_, h.put hnone (hK.follows c), hK.start _ G i hI (h.idle i htask) hready, rfl⟩
  | run i =>
    obtain ⟨o, k, r, s, hnone, htask, hperform, rfl⟩ := Tasks.run_eq hstep
    obtain ⟨hallow, hrest⟩ := h.follows i _ htask
    obtain ⟨hanswer, hI'⟩ := hK.run T G i o k r s h hnone hI hC htask hallow hperform
    exact ⟨_, h.put hnone (hrest r hanswer), hI', o, k, r, htask, hallow, rfl⟩
  | done i =>
    obtain ⟨a, hnone, htask, rfl⟩ := Tasks.done_eq hstep
    refine ⟨update G i g₀, ⟨fun j hj => ?_, fun j t hj => ?_, h.panicked,
      fun j why hj => ?_⟩, hK.done _ G i hI (h.follows i _ htask), rfl⟩
    · by_cases hji : j = i
      · rw [hji, update_self]
      · rw [update_of_ne hji]
        exact h.idle j ((update_of_ne hji _ _).symm.trans hj)
    · by_cases hji : j = i
      · subst hji
        simp at hj
      · rw [update_of_ne hji]
        exact h.follows j t ((update_of_ne hji _ _).symm.trans hj)
    · by_cases hji : j = i
      · subst hji
        simp at hj
      · exact absurd hnone (h.stopped j why ((update_of_ne hji _ _).symm.trans hj))

omit [DecidableEq ι] in
theorem within_idle (s₀ : σ) : P.Within Q g₀ (.idle s₀ : Tasks σ ι ω ρ α) fun _ => g₀ := by
  refine ⟨fun _ _ => rfl, fun i t ht => ?_, fun why hwhy => ?_, fun i why ht => ?_⟩
  · cases ht
  · cases hwhy
  · cases ht

theorem Keeps.run_history {C : Tasks σ ι ω ρ α → Tasks.Event ι κ → Prop} {s₀ : σ}
    {J : List (Tasks.Event ι κ × Tasks σ ι ω ρ α) → (ι → γ) → Prop}
    {π : List (Tasks.Event ι κ × Tasks σ ι ω ρ α)} (hK : P.Keeps Q g₀ g₁ M C I)
    (h0 : I s₀ fun _ => g₀) (hJ0 : J [] fun _ => g₀)
    (hJ : ∀ π e T' G G', P.Within Q g₀ (Run.last (.idle s₀) π) G → J π G →
      (Run.last (.idle s₀) π).step M e T' → P.Moves g₀ g₁ (Run.last (.idle s₀) π) G e G' →
      J ((e, T') :: π) G')
    (hrun : Run.IsRun (Tasks.step M) (.idle s₀) π) (hC : Run.Meets C (.idle s₀) π) :
    ∃ G, P.Within Q g₀ (Run.last (.idle s₀) π) G ∧ I (Run.last (.idle s₀) π).shared G ∧
      J π G := by
  refine (hrun.along_of_meets (P := fun π => ∃ G, P.Within Q g₀ (Run.last (Tasks.idle s₀) π) G ∧
    I (Run.last (Tasks.idle s₀) π).shared G ∧ J π G)
    ⟨fun _ => g₀, within_idle s₀, h0, hJ0⟩ ?_ hC).here
  rintro e T' π ⟨G, hW, hI, hJπ⟩ hCe hstep
  obtain ⟨G', hW', hI', hmoves⟩ := hK.step hW hI hCe hstep
  exact ⟨G', hW', hI', hJ π e T' G G' hW hJπ hstep hmoves⟩

theorem Keeps.run_invariant {C : Tasks σ ι ω ρ α → Tasks.Event ι κ → Prop} {s₀ : σ}
    {π : List (Tasks.Event ι κ × Tasks σ ι ω ρ α)} (hK : P.Keeps Q g₀ g₁ M C I)
    (h0 : I s₀ fun _ => g₀) (hrun : Run.IsRun (Tasks.step M) (.idle s₀) π)
    (hC : Run.Meets C (.idle s₀) π) :
    ∃ G, P.Within Q g₀ (Run.last (.idle s₀) π) G ∧ I (Run.last (.idle s₀) π).shared G := by
  obtain ⟨G, hW, hI, -⟩ := hK.run_history (J := fun _ _ => True) h0 trivial
    (fun _ _ _ _ _ _ _ _ _ => trivial) hrun hC
  exact ⟨G, hW, hI⟩

end Task.Protocol

theorem not_transGen_self {α : Type} {R : α → α → Prop} {m : α → ℕ}
    (h : ∀ a b c d, R a b → R b c → R c d → m a < m b) (a : α) : ¬ Relation.TransGen R a a := by
  have hlt : ∀ {x y : α}, Relation.TransGen R x y → ∀ z w, R y z → R z w → m x < m y := by
    intro x y hxy
    induction hxy with
    | single hxy => exact fun z w hyz hzw => h _ _ z w hxy hyz hzw
    | tail _ hbc ih => exact fun z w hcz hzw => (ih _ z hbc hcz).trans (h _ _ z w hbc hcz hzw)
  intro haa
  -- Two steps along the circle.
  obtain ⟨b, hab, hba⟩ := Relation.TransGen.head'_iff.1 haa
  have hb : ∃ c, R b c := by
    rcases hba.cases_head with rfl | ⟨c, hbc, -⟩
    · exact ⟨b, hab⟩
    · exact ⟨c, hbc⟩
  obtain ⟨c, hbc⟩ := hb
  exact lt_irrefl _ (hlt haa b c hab hbc)

end Xv6
