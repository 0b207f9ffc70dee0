import Xv6.Container.Concurrent
import Mathlib.Data.List.Forall2

/-!
# Overlapping container calls

Any number of processes run `create_container`, `destroy_container`, and `join_container`, preempted
between any two accesses to the globals. `Exclusive` is what the callers may expect of it: the ids
that they hold are different, and the members that a container has been given are in slots of their
own. Two overlapping creates, or two overlapping joins of one container, break it. It holds in every
run in which no call overlaps a `create_container` and no two joins of one container overlap
(`StartsClear`), although destroys and the other joins still interleave.

The invariant `Good` relates the globals, the calls in progress, and the values that calls have
returned. Each call obeys its specification of `Concurrent.lean`, and calls that do not conflict
guarantee what each other relies on (`guar_rely`).
-/

namespace Xv6.Containers

open Function Run Prog

variable {N P : ℕ} {ι : Type*}

abbrev Calls (ι : Type*) (N P : ℕ) := Pool (Containers N P) ι (Call P) ℤ

def startsLeave : PoolEvent ι (Call P) ℤ → Bool
  | .start _ (.leave _) => true
  | _ => false

def concStep [DecidableEq ι] (s : Calls ι N P) (e : PoolEvent ι (Call P) ℤ) (s' : Calls ι N P) :
    Prop :=
  startsLeave e = false ∧ s.step Call.prog e s'

def returned : List (PoolEvent ι (Call P) ℤ × Calls ι N P) → List ((Call P × ℤ) × Containers N P)
  | [] => []
  | (.done _ c r, s) :: π => ((c, r), s.shared) :: returned π
  | _ :: π => returned π

def members (k : Fin N) : List ((Call P × ℤ) × Containers N P) → List ℤ
  | [] => []
  | ((.create _, r), _) :: π => if r = (k : ℕ) then [] else members k π
  | ((.join p id, r), _) :: π =>
    if r = 0 ∧ id = (k : ℕ) then p.pid :: members k π else members k π
  | _ :: π => members k π

def Slot (s : Containers N P) (k : Fin N) (pid : ℤ) (j : Fin P) : Prop :=
  (s.container_table k).process_active j = true ∧
    ((s.container_table k).process_table j).pid = pid

def Recorded (s : Containers N P) (k : Fin N) (pids : List ℤ) : Prop :=
  ∃ js : List (Fin P), js.Nodup ∧ List.Forall₂ (s.Slot k) pids js

def Exclusive (s₀ : Calls ι N P) (π : List (PoolEvent ι (Call P) ℤ × Calls ι N P)) : Prop :=
  (issued (returned π)).Nodup ∧
    ∀ k : Fin N, ((k : ℕ) : ℤ) ∈ issued (returned π) →
      (last s₀ π).shared.Recorded k (members k (returned π))

def Conflict : Call P → Call P → Prop
  | .create _, _ => True
  | _, .create _ => True
  | .join _ id, .join _ id' => id = id'
  | _, _ => False

def StartsClear (s : Calls ι N P) : PoolEvent ι (Call P) ℤ → Prop
  | .start _ c => ∀ i c' q, s.thread i = some (c', q) → ¬ Conflict c' c
  | _ => True

instance decidableConflict : ∀ c c' : Call P, Decidable (Conflict c c')
  | .create _, _ => isTrue trivial
  | .join _ _, .create _ | .destroy _, .create _ | .leave _, .create _ => isTrue trivial
  | .join _ id, .join _ id' => inferInstanceAs (Decidable (id = id'))
  | .join _ _, .destroy _ | .join _ _, .leave _ => isFalse id
  | .destroy _, .join _ _ | .destroy _, .destroy _ | .destroy _, .leave _ => isFalse id
  | .leave _, .join _ _ | .leave _, .destroy _ | .leave _, .leave _ => isFalse id

instance decidableStartsClear [Fintype ι] (s : Calls ι N P) : ∀ e, Decidable (StartsClear s e)
  | .start _ c => decidable_of_iff (∀ i, ∀ x ∈ s.thread i, ¬ Conflict x.1 c)
      ⟨fun h i c' q hi => h i (c', q) hi, fun h i x hx => h i x.1 x.2 hx⟩
  | .access _ | .done _ _ _ => isTrue trivial

def specOf (g : Ghost N P) : Call P → Spec (Containers N P) ℤ
  | .create _ => createSpec g
  | .destroy id => destroySpec id
  | .join p id => joinSpec g p id
  | .leave _ => createSpec g

def Uses (k : Fin N) : Call P → Prop
  | .create _ => True
  | .join _ id => id = (k : ℕ)
  | _ => False

/-- What holds between the globals, the calls in progress, and the calls that have returned. -/
structure Good (g : Ghost N P) (H : List ((Call P × ℤ) × Containers N P)) (s : Calls ι N P) :
    Prop where
  noLeave : ∀ i p q, s.thread i ≠ some (.leave p, q)
  nodup : (issued H).Nodup
  /-- A container that a caller holds is in use, or a destroy of it is about to return `0`. -/
  live : ∀ id ∈ issued H, s.shared.Live id ∨
    ∃ i q, s.thread i = some (.destroy id, q) ∧ q.Only fun r => r = 0
  recorded : ∀ k : Fin N, ((k : ℕ) : ℤ) ∈ issued H →
    List.Forall₂ (s.shared.Slot k) (members k H) (g.slots k)
  slots : ∀ k, (g.slots k).Nodup ∧
    ∀ j ∈ g.slots k, (s.shared.container_table k).process_active j = true
  pointer : (∀ i c q, s.thread i ≠ some (.create c, q)) → s.shared.PointerFree
  hint : ∀ k, (∀ i c q, s.thread i = some (c, q) → ¬ Uses k c) →
    (s.shared.container_table k).HintInv
  clear : ∀ i j c q c' q', i ≠ j → s.thread i = some (c, q) → s.thread j = some (c', q') →
    ¬ Conflict c c'
  /-- A create in progress makes a container that nobody holds. -/
  target : ∀ i c q, s.thread i = some (.create c, q) → ∀ k : Fin N, g.target = (k : ℕ) →
    ((k : ℕ) : ℤ) ∉ issued H ∧ g.slots k = []
  obeys : ∀ i c q, s.thread i = some (c, q) →
    q.Obeys (specOf g c).rely (specOf g c).guar (specOf g c).post s.shared

theorem conflict_create (c : Call P) (d : Container P) : Conflict c (.create d) := by
  cases c <;> trivial

theorem Conflict.symm {c c' : Call P} (h : Conflict c c') : Conflict c' c := by
  cases c' with
  | create d => trivial
  | destroy id => cases c <;> trivial
  | leave p => cases c <;> trivial
  | join p id =>
    cases c with
    | create d => trivial
    | join p' id' => exact Eq.symm h
    | destroy id' => exact h.elim
    | leave p' => exact h.elim

theorem guar_rely {g : Ghost N P} {c c' : Call P} (hc : ¬ Conflict c c')
    (hl : ∀ p, c ≠ .leave p) (hl' : ∀ p, c' ≠ .leave p) {s t : Containers N P}
    {q : Prog (Containers N P) ℤ} (h : (specOf g c).guar s t q) : (specOf g c').rely.rel s t := by
  cases c with
  | create d => exact absurd trivial hc
  | leave p => exact absurd rfl (hl p)
  | destroy id =>
    obtain ⟨htable, hclear, -, hptr⟩ := h
    cases c' with
    | create d => exact absurd (conflict_create _ d) hc
    | leave p => exact absurd rfl (hl' p)
    | destroy id' => exact hclear
    | join p id' =>
      refine ⟨fun k _ => by rw [htable], fun hr => ?_⟩
      rcases hptr with hptr | ⟨k, hptr, hk⟩
      · unfold InRange
        rw [hptr]
        exact hr
      · exact PointerFree.inRange (.inr ⟨k, hptr, hk⟩)
  | join p id =>
    obtain ⟨k, d, rfl, rfl, -⟩ := h
    cases c' with
    | create d => exact absurd (conflict_create _ d) hc
    | leave p => exact absurd rfl (hl' p)
    | destroy id' => exact fun k hk => hk
    | join p' id' =>
      refine ⟨fun i hi => ?_, fun hr => hr⟩
      have hik : i ≠ k := by
        rintro rfl
        exact hc hi.symm
      simp [hik]

section Steps

variable {g : Ghost N P} {H : List ((Call P × ℤ) × Containers N P)} {s : Calls ι N P} {i : ι}

theorem good_boot (hN : 0 < N) (hP : 0 < P) :
    Good ⟨-1, fun _ => []⟩ [] (Pool.idle (boot N P) : Calls ι N P) where
  noLeave := fun i p q h => by cases h
  nodup := List.nodup_nil
  live := fun id h => by cases h
  recorded := fun k h => by cases h
  slots := fun k => ⟨List.nodup_nil, fun j h => by cases h⟩
  pointer := fun _ => .inr ⟨⟨0, hN⟩, rfl, rfl⟩
  hint := fun k _ => .inr ⟨⟨0, hP⟩, rfl, rfl⟩
  clear := fun i j c q c' q' _ h => by cases h
  target := fun i c q h => by cases h
  obeys := fun i c q h => by cases h

theorem Good.live_of_idle (h : Good g H s) (hidle : ∀ j, s.thread j = none) {id : ℤ}
    (hid : id ∈ issued H) : s.shared.Live id := by
  rcases h.live id hid with hlive | ⟨j, q, hj, -⟩
  · exact hlive
  · rw [hidle j] at hj
    cases hj

/-- The globals after an access of call `c` in progress: what the callers hold, the slots counted,
and the pointers that no call is using are as good as before. -/
structure Kept (g : Ghost N P) (H : List ((Call P × ℤ) × Containers N P)) (c : Call P)
    (q : Prog (Containers N P) ℤ) (s t : Containers N P) : Prop where
  live : ∀ id ∈ issued H, s.Live id → t.Live id ∨ c = .destroy id ∧ q.Only fun r => r = 0
  slot : ∀ k pid, ∀ j ∈ g.slots k, ((k : ℕ) : ℤ) ∈ issued H → s.Slot k pid j → t.Slot k pid j
  active : ∀ k, ∀ j ∈ g.slots k, (s.container_table k).process_active j = true →
    (t.container_table k).process_active j = true
  pointer : (∀ d, c ≠ .create d) → s.PointerFree → t.PointerFree
  hint : ∀ k, ¬ Uses k c → (s.container_table k).HintInv → (t.container_table k).HintInv

theorem Good.kept (h : Good g H s) {c : Call P} {p q : Prog (Containers N P) ℤ}
    {t : Containers N P} (hp : s.thread i = some (c, p)) (hG : (specOf g c).guar s.shared t q) :
    Kept g H c q s.shared t := by
  cases c with
  | leave p' => exact absurd hp (h.noLeave i p' p)
  | create d =>
    -- The target is held by nobody, and everything else is as before.
    have htarget := h.target i d p hp
    have hsame : ∀ k : Fin N, ((k : ℕ) : ℤ) ∈ issued H →
        t.container_table k = s.shared.container_table k ∧ t.c_active k = s.shared.c_active k :=
      fun k hk => hG k fun heq => (htarget k heq).1 hk
    refine ⟨?_, ?_, ?_, fun hno => absurd rfl (hno d), fun k hno => absurd trivial hno⟩
    · rintro id hid ⟨k, rfl, hk⟩
      exact .inl ⟨k, rfl, (hsame k hid).2.trans hk⟩
    · intro k pid j hj hk hslot
      unfold Slot
      rw [(hsame k hk).1]
      exact hslot
    · intro k j hj hact
      have hne : g.target ≠ (k : ℕ) := by
        intro heq
        rw [(htarget k heq).2] at hj
        cases hj
      rw [(hG k hne).1]
      exact hact
  | destroy id =>
    obtain ⟨htable, hmono, honly, hptr⟩ := hG
    refine ⟨?_, ?_, ?_, fun _ hfree => ?_, ?_⟩
    · rintro id' hid ⟨k, rfl, hk⟩
      cases htk : t.c_active k with
      | true => exact .inl ⟨k, rfl, htk⟩
      | false =>
        obtain ⟨rfl, hq⟩ := honly k hk htk
        exact .inr ⟨rfl, hq⟩
    · intro k pid j hj hk hslot
      unfold Slot
      rw [htable]
      exact hslot
    · intro k j hj hact
      rw [htable]
      exact hact
    · rcases hptr with hptr | hnew
      · unfold PointerFree
        rw [hptr]
        exact hfree.imp_right fun ⟨k, hk, hkf⟩ => ⟨k, hk, hmono k hkf⟩
      · exact .inr hnew
    · intro k _ hhint
      rw [htable]
      exact hhint
  | join p' id =>
    obtain ⟨k, d, rfl, rfl, hframe⟩ := hG
    refine ⟨fun id _ hlive => .inl hlive, ?_, ?_, fun _ hfree => hfree, ?_⟩
    · intro i pid j hj hi hslot
      by_cases hik : i = k
      · subst hik
        obtain ⟨hact, htab⟩ := hframe j hj
        unfold Slot
        simp only [setContainer_container_table, update_self]
        rw [hact, htab]
        exact hslot
      · unfold Slot
        simp only [setContainer_container_table, update_of_ne hik]
        exact hslot
    · intro i j hj hact
      by_cases hik : i = k
      · subst hik
        simpa [(hframe j hj).1] using hact
      · simpa [hik] using hact
    · intro i hno hhint
      have hik : i ≠ k := by
        rintro rfl
        exact hno rfl
      simpa [hik] using hhint

variable [DecidableEq ι]

theorem thread_cases {x : Option (Call P × Prog (Containers N P) ℤ)} {j : ι} {c : Call P}
    {q : Prog (Containers N P) ℤ} (h : (s.setThread i x).thread j = some (c, q)) :
    j = i ∧ x = some (c, q) ∨ j ≠ i ∧ s.thread j = some (c, q) := by
  by_cases hji : j = i
  · subst hji
    rw [Pool.setThread_self] at h
    exact .inl ⟨rfl, h⟩
  · rw [Pool.setThread_of_ne _ _ hji] at h
    exact .inr ⟨hji, h⟩

/-- A call in progress before thread `i` has changed is that of thread `i` or is still in progress.
-/
theorem thread_before {x : Option (Call P × Prog (Containers N P) ℤ)} {j : ι} {c c' : Call P}
    {q q' : Prog (Containers N P) ℤ} (hp : s.thread i = some (c, q))
    (hj : s.thread j = some (c', q')) :
    j = i ∧ c' = c ∧ q' = q ∨ (s.setThread i x).thread j = some (c', q') := by
  by_cases hji : j = i
  · subst hji
    cases hp.symm.trans hj
    exact .inl ⟨rfl, rfl, rfl⟩
  · rw [Pool.setThread_of_ne _ _ hji]
    exact .inr hj

theorem Good.start_create (hNP : N ≤ P) (h : Good g H s) (d : Container P)
    (hclear : ∀ j c' q, s.thread j = some (c', q) → ¬ Conflict c' (.create d)) :
    ∃ g', Good g' H (s.setThread i (some (.create d, createContainer d))) := by
  have hidle : ∀ j, s.thread j = none := by
    intro j
    cases hj : s.thread j with
    | none => rfl
    | some x => exact absurd (conflict_create x.1 d) (hclear j x.1 x.2 hj)
  have hone : ∀ j c q,
      (s.setThread i (some (.create d, createContainer d))).thread j = some (c, q) →
      j = i ∧ c = .create d ∧ q = createContainer d := by
    intro j c q hj
    rcases thread_cases hj with ⟨rfl, hx⟩ | ⟨-, hx⟩
    · cases hx
      exact ⟨rfl, rfl, rfl⟩
    · rw [hidle j] at hx
      cases hx
  have hptr : s.shared.PointerFree := h.pointer fun j c q hj => by rw [hidle j] at hj; cases hj
  -- `c_pointer` names a free container, so it is none that a caller holds.
  have hfresh : ∀ k : Fin N, s.shared.c_pointer = (k : ℕ) → ((k : ℕ) : ℤ) ∉ issued H := by
    intro k hk hmem
    obtain ⟨k', hkk, hlive⟩ := h.live_of_idle hidle hmem
    obtain rfl : k = k' := Fin.ext (by omega)
    rcases hptr with hptr | ⟨i, hptr, hi⟩
    · omega
    · obtain rfl : i = k := Fin.ext (by omega)
      rw [hi] at hlive
      cases hlive
  refine ⟨g.begin s.shared.c_pointer, ?_, h.nodup, ?_, ?_, ?_, ?_, ?_, ?_, ?_, ?_⟩
  · intro j p q hj
    obtain ⟨-, hc, -⟩ := hone _ _ _ hj
    cases hc
  · exact fun id hid => .inl (h.live_of_idle hidle hid)
  · intro k hk
    rw [Ghost.begin_slots, if_neg fun hptr => hfresh k hptr hk]
    exact h.recorded k hk
  · intro k
    rw [Ghost.begin_slots]
    split
    · exact ⟨List.nodup_nil, fun j hj => by cases hj⟩
    · exact h.slots k
  · exact fun hno => absurd (Pool.setThread_self s i _) (hno i d _)
  · exact fun k hno => absurd trivial (hno i _ _ (Pool.setThread_self s i _))
  · intro j j' c q c' q' hjj hj hj'
    exact absurd ((hone _ _ _ hj).1.trans (hone _ _ _ hj').1.symm) hjj
  · intro j c q hj k hk
    exact ⟨hfresh k hk, if_pos hk⟩
  · intro j c q hj
    obtain ⟨-, rfl, rfl⟩ := hone _ _ _ hj
    exact createContainer_obeys hNP _ d rfl hptr fun k =>
      h.hint k fun j c q hj => by rw [hidle j] at hj; cases hj

theorem Good.start_other (h : Good g H s) {c : Call P} {q₀ : Prog (Containers N P) ℤ}
    (hnone : s.thread i = none) (hc : ∀ d, c ≠ .create d) (hl : ∀ p, c ≠ .leave p)
    (hclear : ∀ j c' q, s.thread j = some (c', q) → ¬ Conflict c' c)
    (hobeys : q₀.Obeys (specOf g c).rely (specOf g c).guar (specOf g c).post s.shared) :
    Good g H (s.setThread i (some (c, q₀))) := by
  -- The threads in progress before are still there.
  have hold : ∀ j c' q, s.thread j = some (c', q) →
      (s.setThread i (some (c, q₀))).thread j = some (c', q) := by
    intro j c' q hj
    have hji : j ≠ i := by
      rintro rfl
      rw [hnone] at hj
      cases hj
    rw [Pool.setThread_of_ne _ _ hji]
    exact hj
  refine ⟨?_, h.nodup, ?_, h.recorded, h.slots, ?_, ?_, ?_, ?_, ?_⟩
  · intro j p q hj
    rcases thread_cases hj with ⟨-, hx⟩ | ⟨-, hx⟩
    · exact hl p (Prod.mk.inj (Option.some.inj hx)).1
    · exact h.noLeave j p q hx
  · intro id hid
    rcases h.live id hid with hlive | ⟨j, q, hj, honly⟩
    · exact .inl hlive
    · exact .inr ⟨j, q, hold j _ q hj, honly⟩
  · exact fun hno => h.pointer fun j d q hj => hno j d q (hold j _ q hj)
  · exact fun k hno => h.hint k fun j c' q hj => hno j c' q (hold j c' q hj)
  · intro j j' c₁ q₁ c₂ q₂ hjj hj hj'
    rcases thread_cases hj with ⟨rfl, hx⟩ | ⟨-, hx⟩ <;>
      rcases thread_cases hj' with ⟨rfl, hx'⟩ | ⟨-, hx'⟩
    · exact absurd rfl hjj
    · cases hx
      exact fun hcon => hclear j' c₂ q₂ hx' hcon.symm
    · cases hx'
      exact hclear j c₁ q₁ hx
    · exact h.clear j j' c₁ q₁ c₂ q₂ hjj hx hx'
  · intro j d q hj
    rcases thread_cases hj with ⟨-, hx⟩ | ⟨-, hx⟩
    · exact absurd (Prod.mk.inj (Option.some.inj hx)).1 (hc d)
    · exact h.target j d q hx
  · intro j c' q hj
    rcases thread_cases hj with ⟨-, hx⟩ | ⟨-, hx⟩
    · cases hx
      exact hobeys
    · exact h.obeys j c' q hx

theorem Good.start (hNP : N ≤ P) (h : Good g H s) {c : Call P} (hnone : s.thread i = none)
    (hl : ∀ p, c ≠ .leave p) (hclear : ∀ j c' q, s.thread j = some (c', q) → ¬ Conflict c' c) :
    ∃ g', Good g' H (s.setThread i (some (c, c.prog))) := by
  cases c with
  | create d => exact h.start_create hNP d hclear
  | leave p => exact absurd rfl (hl p)
  | destroy id =>
    exact ⟨g, h.start_other hnone (by simp) (by simp) hclear (destroyContainer_obeys id _)⟩
  | join p id =>
    refine ⟨g, h.start_other hnone (by simp) (by simp) hclear ?_⟩
    have hptr : s.shared.PointerFree := h.pointer fun j d q hj => hclear j _ q hj trivial
    refine joinContainer_obeys hNP g p id hptr.inRange (fun k hk => h.hint k ?_) fun k =>
      (h.slots k).2
    -- No other call uses the hint: it would be a create, or a join of the same container.
    intro j c' q hj huses
    cases c' with
    | create d => exact hclear j _ q hj trivial
    | join p' id' => exact hclear j _ q hj (Eq.trans huses hk.symm)
    | destroy id' => exact huses
    | leave p' => exact huses

theorem forall₂_of_mem {α β : Type*} {R S : α → β → Prop} {l : List α} {m : List β}
    (h : List.Forall₂ R l m) (hRS : ∀ a, ∀ b ∈ m, R a b → S a b) : List.Forall₂ S l m := by
  induction h with
  | nil => exact .nil
  | cons hab _ ih =>
    refine .cons (hRS _ _ List.mem_cons_self hab) (ih fun a b hb => ?_)
    exact hRS a b (List.mem_cons_of_mem _ hb)

theorem Good.access (h : Good g H s) {c : Call P} {p q : Prog (Containers N P) ℤ}
    {t : Containers N P} (hp : s.thread i = some (c, p)) (hq : p.step s.shared = some (q, t)) :
    Good g H { s.setThread i (some (c, q)) with shared := t } := by
  have hcompat : ∀ j c' p', j ≠ i → s.thread j = some (c', p') → ∀ t t' q,
      (specOf g c).guar t t' q → (specOf g c').rely.rel t t' := by
    intro j c' p' hji hj t t' q
    refine guar_rely (h.clear i j c p c' p' (Ne.symm hji) hp hj) ?_ ?_
    · rintro p'' rfl
      exact h.noLeave i p'' p hp
    · rintro p'' rfl
      exact h.noLeave j p'' p' hj
  obtain ⟨hG, hobeys⟩ := Pool.access_obeys h.obeys hcompat hp hq
  have hkept : Kept g H c q s.shared t := by
    rcases hG with rfl | hG
    · exact ⟨fun _ _ hl => .inl hl, fun _ _ _ _ _ hs => hs, fun _ _ _ ha => ha, fun _ hf => hf,
        fun _ _ hh => hh⟩
    · exact h.kept hp hG
  -- The calls in progress are the same.
  have hback : ∀ j c' q', (s.setThread i (some (c, q))).thread j = some (c', q') →
      ∃ q'', s.thread j = some (c', q'') := by
    intro j c' q' hj
    rcases thread_cases hj with ⟨rfl, hx⟩ | ⟨-, hx⟩
    · cases hx
      exact ⟨p, hp⟩
    · exact ⟨q', hx⟩
  have hfwd : ∀ j c' q', s.thread j = some (c', q') →
      ∃ q'', (s.setThread i (some (c, q))).thread j = some (c', q'') := by
    intro j c' q' hj
    rcases thread_before hp hj with ⟨rfl, rfl, -⟩ | hj
    · exact ⟨q, Pool.setThread_self _ _ _⟩
    · exact ⟨q', hj⟩
  refine ⟨?_, h.nodup, ?_, ?_, ?_, ?_, ?_, ?_, ?_, hobeys⟩
  · intro j p' q' hj
    obtain ⟨q'', hj⟩ := hback j _ q' hj
    exact h.noLeave j p' q'' hj
  · intro id hid
    rcases h.live id hid with hlive | ⟨j, q', hj, honly⟩
    · rcases hkept.live id hid hlive with hlive | ⟨rfl, honly⟩
      · exact .inl hlive
      · exact .inr ⟨i, q, Pool.setThread_self _ _ _, honly⟩
    · rcases thread_before hp hj with ⟨rfl, rfl, rfl⟩ | hj
      · exact .inr ⟨j, q, Pool.setThread_self _ _ _, honly.step hq⟩
      · exact .inr ⟨j, q', hj, honly⟩
  · intro k hk
    exact forall₂_of_mem (h.recorded k hk) fun pid j hj => hkept.slot k pid j hj hk
  · exact fun k => ⟨(h.slots k).1, fun j hj => hkept.active k j hj ((h.slots k).2 j hj)⟩
  · intro hno
    refine hkept.pointer ?_ (h.pointer fun j d q' hj => ?_)
    · rintro d rfl
      exact hno i d q (Pool.setThread_self _ _ _)
    · obtain ⟨q'', hj⟩ := hfwd j _ q' hj
      exact hno j d q'' hj
  · intro k hno
    refine hkept.hint k (hno i c q (Pool.setThread_self _ _ _)) (h.hint k fun j c' q' hj => ?_)
    obtain ⟨q'', hj⟩ := hfwd j c' q' hj
    exact hno j c' q'' hj
  · intro j j' c₁ q₁ c₂ q₂ hjj hj hj'
    obtain ⟨q₁', hj⟩ := hback j c₁ q₁ hj
    obtain ⟨q₂', hj'⟩ := hback j' c₂ q₂ hj'
    exact h.clear j j' c₁ q₁' c₂ q₂' hjj hj hj'
  · intro j d q' hj
    obtain ⟨q'', hj⟩ := hback j _ q' hj
    exact h.target j d q'' hj

theorem thread_of_done {j : ι} {c : Call P} {q : Prog (Containers N P) ℤ}
    (h : (s.setThread i none).thread j = some (c, q)) : j ≠ i ∧ s.thread j = some (c, q) := by
  rcases thread_cases h with ⟨-, hx⟩ | hx
  · cases hx
  · exact hx

theorem Good.clear_of_done (h : Good g H s) (j j' : ι) (c : Call P) (q : Prog (Containers N P) ℤ)
    (c' : Call P) (q' : Prog (Containers N P) ℤ) (hjj : j ≠ j')
    (hj : (s.setThread i none).thread j = some (c, q))
    (hj' : (s.setThread i none).thread j' = some (c', q')) : ¬ Conflict c c' :=
  h.clear j j' c q c' q' hjj (thread_of_done hj).2 (thread_of_done hj').2

theorem Good.done_destroy (h : Good g H s) {id r : ℤ} (x : Containers N P)
    (hp : s.thread i = some (.destroy id, .ret r)) :
    Good g (((.destroy id, r), x) :: H) (s.setThread i none) := by
  have hsub : ∀ id', id' ∈ issued (((.destroy id, r), x) :: H) → id' ∈ issued H := by
    intro id' hid
    simp only [issued] at hid
    split at hid
    · exact List.mem_of_mem_erase hid
    · exact hid
  refine ⟨fun j p q hj => h.noLeave j p q (thread_of_done hj).2, ?_, ?_, ?_, h.slots, ?_, ?_, ?_,
    ?_, ?_⟩
  · simp only [issued]
    split
    · exact h.nodup.erase id
    · exact h.nodup
  · intro id' hid
    rcases h.live id' (hsub id' hid) with hlive | ⟨j, q, hj, honly⟩
    · exact .inl hlive
    · rcases thread_before hp hj with ⟨-, hc, rfl⟩ | hj
      · -- This destroy itself: it has returned `0`, and nobody holds its container any more.
        obtain rfl := Call.destroy.inj hc
        obtain rfl : r = 0 := honly
        simp only [issued, if_true] at hid
        exact absurd rfl ((h.nodup.mem_erase_iff).1 hid).1
      · exact .inr ⟨j, q, hj, honly⟩
  · exact fun k hk => h.recorded k (hsub _ hk)
  · refine fun hno => h.pointer fun j d q hj => ?_
    rcases thread_before hp hj with ⟨-, hc, -⟩ | hj
    · cases hc
    · exact hno j d q hj
  · refine fun k hno => h.hint k fun j c q hj => ?_
    rcases thread_before hp hj with ⟨-, rfl, -⟩ | hj
    · exact fun huses => huses
    · exact hno j c q hj
  · exact h.clear_of_done
  · intro j d q hj k hk
    obtain ⟨hfresh, hslots⟩ := h.target j d q (thread_of_done hj).2 k hk
    exact ⟨fun hmem => hfresh (hsub _ hmem), hslots⟩
  · exact fun j c q hj => h.obeys j c q (thread_of_done hj).2

theorem Good.done_create (h : Good g H s) {d : Container P} {r : ℤ} (x : Containers N P)
    (hp : s.thread i = some (.create d, .ret r)) :
    Good g (((.create d, r), x) :: H) (s.setThread i none) := by
  obtain ⟨hptr, hhint, hr⟩ := Obeys.ret (h.obeys i _ _ hp)
  -- It was alone.
  have hidle : ∀ j c q, (s.setThread i none).thread j ≠ some (c, q) := by
    intro j c q hj
    obtain ⟨hji, hj⟩ := thread_of_done hj
    exact h.clear i j _ _ c q (Ne.symm hji) hp hj trivial
  have hlive : ∀ id ∈ issued H, s.shared.Live id := by
    intro id hid
    rcases h.live id hid with hlive | ⟨j, q, hj, -⟩
    · exact hlive
    · rcases thread_before hp hj with ⟨-, hc, -⟩ | hj
      · cases hc
      · exact absurd hj (hidle j _ q)
  refine ⟨fun j p q hj => absurd hj (hidle j _ q), ?_, ?_, ?_, h.slots, fun _ => hptr,
    fun k _ => hhint k, fun j j' c q c' q' _ hj => absurd hj (hidle j c q),
    fun j c q hj => absurd hj (hidle j _ q), fun j c q hj => absurd hj (hidle j c q)⟩
  · rcases hr with rfl | ⟨k, rfl, hk, -⟩
    · simpa [issued] using h.nodup
    · have hne : ((k : ℕ) : ℤ) ≠ -1 := by omega
      simp only [issued, if_neg hne]
      exact List.nodup_cons.2 ⟨(h.target i d _ hp k hk).1, h.nodup⟩
  · intro id hid
    apply Or.inl
    rcases hr with rfl | ⟨k, rfl, -, hact⟩
    · exact hlive id (by simpa [issued] using hid)
    · have hne : ((k : ℕ) : ℤ) ≠ -1 := by omega
      simp only [issued, if_neg hne, List.mem_cons] at hid
      rcases hid with rfl | hid
      · exact ⟨k, rfl, hact⟩
      · exact hlive id hid
  · intro k' hk'
    rcases hr with rfl | ⟨k, rfl, hk, -⟩
    · have hne : ¬ (-1 : ℤ) = (k' : ℕ) := by omega
      simp only [members, if_neg hne]
      exact h.recorded k' (by simpa [issued] using hk')
    · by_cases hkk : k = k'
      · subst hkk
        simp only [members, if_true]
        rw [(h.target i d _ hp k hk).2]
        exact .nil
      · have hne : ((k : ℕ) : ℤ) ≠ -1 := by omega
        have hne' : ¬ ((k : ℕ) : ℤ) = (k' : ℕ) := fun heq => hkk (Fin.ext (by omega))
        simp only [issued, if_neg hne, List.mem_cons] at hk'
        simp only [members, if_neg hne']
        exact h.recorded k' (hk'.resolve_left fun heq => hne' heq.symm)

theorem joinSpec_of_slots {g g' : Ghost N P} {p : Proc} {id : ℤ} {q : Prog (Containers N P) ℤ}
    {t : Containers N P} (hg : ∀ k : Fin N, id = (k : ℕ) → g'.slots k = g.slots k)
    (h : q.Obeys (joinSpec g p id).rely (joinSpec g p id).guar (joinSpec g p id).post t) :
    q.Obeys (joinSpec g' p id).rely (joinSpec g' p id).guar (joinSpec g' p id).post t := by
  refine h.mono ?_ ?_
  · rintro s t q ⟨k, c, hk, ht, hframe⟩
    exact ⟨k, c, hk, ht, by rw [hg k hk]; exact hframe⟩
  · rintro r t ⟨hhint, hzero⟩
    refine ⟨hhint, fun hr => ?_⟩
    obtain ⟨k, j, hk, hj, hslot⟩ := hzero hr
    exact ⟨k, j, hk, by rw [hg k hk]; exact hj, hslot⟩

theorem Good.no_create_of_join (h : Good g H s) {p : Proc} {id : ℤ} {q₀ : Prog (Containers N P) ℤ}
    (hp : s.thread i = some (.join p id, q₀)) (j : ι) (d : Container P)
    (q : Prog (Containers N P) ℤ) : s.thread j ≠ some (.create d, q) := by
  intro hj
  by_cases hji : j = i
  · subst hji
    cases hp.symm.trans hj
  · exact h.clear i j _ _ _ q (Ne.symm hji) hp hj trivial

theorem Good.hint_of_join (h : Good g H s) {p : Proc} {id r : ℤ}
    (hp : s.thread i = some (.join p id, .ret r)) (k : Fin N)
    (hno : ∀ j c q, (s.setThread i none).thread j = some (c, q) → ¬ Uses k c) :
    (s.shared.container_table k).HintInv := by
  by_cases hk : id = (k : ℕ)
  · exact (Obeys.ret (h.obeys i _ _ hp)).1 k hk
  · apply h.hint k
    intro j c q hj
    rcases thread_before hp hj with ⟨-, rfl, -⟩ | hj
    · exact hk
    · exact hno j c q hj

theorem Good.live_of_join (h : Good g H s) {p : Proc} {id r : ℤ}
    (hp : s.thread i = some (.join p id, .ret r)) {id' : ℤ} (hid : id' ∈ issued H) :
    s.shared.Live id' ∨
      ∃ j q, (s.setThread i none).thread j = some (.destroy id', q) ∧ q.Only fun r => r = 0 := by
  rcases h.live id' hid with hlive | ⟨j, q, hj, honly⟩
  · exact .inl hlive
  · rcases thread_before hp hj with ⟨-, hc, -⟩ | hj
    · cases hc
    · exact .inr ⟨j, q, hj, honly⟩

theorem Good.done_join_failed (h : Good g H s) {p : Proc} {id r : ℤ} (x : Containers N P)
    (hp : s.thread i = some (.join p id, .ret r)) (hr : r ≠ 0) :
    Good g (((.join p id, r), x) :: H) (s.setThread i none) := by
  have hmembers : ∀ k, members k (((.join p id, r), x) :: H) = members k H :=
    fun k => if_neg fun heq => hr heq.1
  refine ⟨fun j p q hj => h.noLeave j p q (thread_of_done hj).2, h.nodup,
    fun _ hid => h.live_of_join hp hid, fun k hk => ?_, h.slots,
    fun _ => h.pointer (h.no_create_of_join hp), h.hint_of_join hp, h.clear_of_done, ?_, ?_⟩
  · rw [hmembers]
    exact h.recorded k hk
  · exact fun j d q hj => absurd (thread_of_done hj).2 (h.no_create_of_join hp j d q)
  · exact fun j c q hj => h.obeys j c q (thread_of_done hj).2

theorem Good.done_join_zero (h : Good g H s) {p : Proc} {k : Fin N} {j : Fin P}
    (x : Containers N P) (hp : s.thread i = some (.join p (k : ℕ), .ret 0)) (hj : j ∉ g.slots k)
    (hslot : s.shared.Slot k p.pid j) :
    Good (g.count k j) (((.join p (k : ℕ), 0), x) :: H) (s.setThread i none) := by
  refine ⟨fun j p q hj => h.noLeave j p q (thread_of_done hj).2, h.nodup,
    fun _ hid => h.live_of_join hp hid, ?_, ?_, fun _ => h.pointer (h.no_create_of_join hp),
    h.hint_of_join hp, h.clear_of_done, ?_, ?_⟩
  · intro k' hk'
    by_cases hkk : k' = k
    · subst hkk
      simp only [members, true_and, if_true, Ghost.count, update_self]
      exact .cons hslot (h.recorded k' hk')
    · have hmembers : members k' (((.join p (k : ℕ), 0), x) :: H) = members k' H :=
        if_neg fun heq => hkk (Fin.ext (by omega))
      rw [hmembers]
      simp only [Ghost.count, update_of_ne hkk]
      exact h.recorded k' hk'
  · intro k'
    by_cases hkk : k' = k
    · subst hkk
      simp only [Ghost.count, update_self]
      refine ⟨List.nodup_cons.2 ⟨hj, (h.slots k').1⟩, fun j' hj' => ?_⟩
      rcases List.mem_cons.1 hj' with rfl | hj'
      · exact hslot.1
      · exact (h.slots k').2 j' hj'
    · simp only [Ghost.count, update_of_ne hkk]
      exact h.slots k'
  · exact fun j' d q hj' => absurd (thread_of_done hj').2 (h.no_create_of_join hp j' d q)
  · intro j' c q hj'
    obtain ⟨hji, hj'⟩ := thread_of_done hj'
    have hobeys := h.obeys j' c q hj'
    cases c with
    | create d => exact absurd hj' (h.no_create_of_join hp j' d q)
    | leave p' => exact absurd hj' (h.noLeave j' p' q)
    | destroy id' => exact hobeys
    | join p' id' =>
      -- Another join in progress is of another container.
      refine joinSpec_of_slots (fun k' hk' => ?_) hobeys
      have hkk : k' ≠ k := by
        rintro rfl
        exact h.clear i j' _ _ _ q (Ne.symm hji) hp hj' hk'.symm
      simp only [Ghost.count, update_of_ne hkk]

theorem Good.done_join (h : Good g H s) {p : Proc} {id r : ℤ} (x : Containers N P)
    (hp : s.thread i = some (.join p id, .ret r)) :
    ∃ g', Good g' (((.join p id, r), x) :: H) (s.setThread i none) := by
  by_cases hr : r = 0
  · subst hr
    obtain ⟨k, j, rfl, hj, hslot⟩ := (Obeys.ret (h.obeys i _ _ hp)).2 rfl
    exact ⟨_, h.done_join_zero x hp hj hslot⟩
  · exact ⟨g, h.done_join_failed x hp hr⟩

theorem Good.step (hNP : N ≤ P) {s' : Calls ι N P} {e : PoolEvent ι (Call P) ℤ}
    {π : List (PoolEvent ι (Call P) ℤ × Calls ι N P)} (h : Good g (returned π) s)
    (hc : StartsClear s e) (hs : concStep s e s') : ∃ g', Good g' (returned ((e, s') :: π)) s' := by
  obtain ⟨hl, hs⟩ := hs
  cases e with
  | start i c =>
    obtain ⟨hnone, rfl⟩ := hs
    refine h.start hNP hnone (fun p hp => ?_) hc
    rw [hp] at hl
    cases hl
  | access i =>
    obtain ⟨c, p, q, t, hp, hq, rfl⟩ := hs
    exact ⟨g, h.access hp hq⟩
  | done i c r =>
    obtain ⟨hp, rfl⟩ := hs
    cases c with
    | create d => exact ⟨g, h.done_create _ hp⟩
    | destroy id => exact ⟨g, h.done_destroy _ hp⟩
    | join p id => exact h.done_join _ hp
    | leave p => exact absurd hp (h.noLeave i p _)

end Steps

theorem isRun_of_schedule [DecidableEq ι] {s₀ : Calls ι N P} {xs : List (Pool.Turn ι (Call P))}
    {π : List (PoolEvent ι (Call P) ℤ × Calls ι N P)}
    (h : history (Pool.tick Call.prog) s₀ [] xs = some π)
    (hl : (π.all fun x => !startsLeave x.1) = true) : IsRun concStep s₀ π := by
  have hrun : IsRun (Pool.step Call.prog) s₀ π :=
    isRun_of_history (fun _ _ _ _ => Pool.step_of_tick) (π := []) trivial h
  clear h
  induction π with
  | nil => trivial
  | cons x π ih =>
    obtain ⟨hx, hl⟩ := Bool.and_eq_true_iff.1 hl
    exact ⟨⟨by simpa using hx, hrun.1⟩, ih hl hrun.2⟩

def goes (i : Bool) (n : ℕ) : List (Pool.Turn Bool (Call 2)) := List.replicate n (.run i)

/-- In every run in which no call overlaps a `create_container` and no two joins of one container
overlap, at every point the ids that the callers hold are different and every container has its
members in slots of their own. -/
theorem exclusive_of_startsClear [DecidableEq ι] (hN : 0 < N) (hNP : N ≤ P)
    {π : List (PoolEvent ι (Call P) ℤ × Calls ι N P)}
    (h : IsRun concStep (Pool.idle (boot N P)) π)
    (hc : Meets StartsClear (Pool.idle (boot N P)) π) :
    Along (Exclusive (Pool.idle (boot N P))) π := by
  have hgood : Along (fun π => ∃ g, Good g (returned π) (last (Pool.idle (boot N P)) π)) π :=
    IsRun.along_of_meets ⟨_, good_boot hN (by omega)⟩
      (fun e s π ⟨g, hg⟩ hc hs => hg.step hNP hc hs) h hc
  apply hgood.mono
  rintro π ⟨g, hg⟩
  exact ⟨hg.nodup, fun k hk => ⟨g.slots k, (hg.slots k).1, hg.recorded k hk⟩⟩

def joinsAndDestroys : List (Pool.Turn Bool (Call 2)) :=
  [.start true (.create (Container.zero 2))] ++ goes true 15 ++
    [.start false (.create (Container.zero 2))] ++ goes false 17 ++
    [.start true (.join Ptable.initRunning 0), .start false (.destroy 1)] ++
    goes true 3 ++ goes false 5 ++ goes true 8

/-- All four calls return, and the process is recorded in container `0`. -/
theorem exclusive_of_startsClear_overlap :
    ∃ π : List (PoolEvent Bool (Call 2) ℤ × Calls Bool 2 2),
      IsRun concStep (Pool.idle (boot 2 2)) π ∧ Meets StartsClear (Pool.idle (boot 2 2)) π ∧
      (returned π).map (·.1.2) = [0, 0, 1, 0] ∧ issued (returned π) = [0] ∧
      members (0 : Fin 2) (returned π) = [1] ∧ Along (Exclusive (Pool.idle (boot 2 2))) π := by
  have heval : (history (Pool.tick Call.prog) (Pool.idle (boot 2 2)) [] joinsAndDestroys).map
      (fun π => (π.all fun x => !startsLeave x.1,
        decide (Meets StartsClear (Pool.idle (boot 2 2)) π), (returned π).map (·.1.2),
        issued (returned π), members (0 : Fin 2) (returned π))) =
      some (true, true, [0, 0, 1, 0], [0], [1]) := by decide +kernel
  obtain ⟨π, hπ, heq⟩ := Option.map_eq_some_iff.1 heval
  simp only [Prod.mk.injEq, decide_eq_true_eq] at heq
  obtain ⟨hl, hclear, hresults, hissued, hmembers⟩ := heq
  have hrun := isRun_of_schedule hπ hl
  exact ⟨π, hrun, hclear, hresults, hissued, hmembers,
    exclusive_of_startsClear (by decide) (by decide) hrun hclear⟩

def creates : List (Pool.Turn Bool (Call 2)) :=
  [.start true (.create (Container.zero 2)), .start false (.create (Container.zero 2))] ++
    goes true 11 ++ goes false 15 ++ goes true 6

def joins : List (Pool.Turn Bool (Call 2)) :=
  [.start true (.create (Container.zero 2))] ++ goes true 15 ++
    [.start true (.join Ptable.initRunning 0),
      .start false (.join { Ptable.initRunning with pid := 2 } 0)] ++
    goes true 2 ++ goes false 11 ++ goes true 9

/-- Two creates that overlap both return `0`; and two joins of container `0` that overlap both
return `0` although the container has one active slot. -/
theorem overlapping_calls_collide :
    (∃ π : List (PoolEvent Bool (Call 2) ℤ × Calls Bool 2 2),
      IsRun concStep (Pool.idle (boot 2 2)) π ∧ issued (returned π) = [0, 0] ∧
        ¬ Exclusive (Pool.idle (boot 2 2)) π) ∧
    ∃ π : List (PoolEvent Bool (Call 2) ℤ × Calls Bool 2 2),
      IsRun concStep (Pool.idle (boot 2 2)) π ∧ issued (returned π) = [0] ∧
        members (0 : Fin 2) (returned π) = [1, 2] ∧ ¬ Exclusive (Pool.idle (boot 2 2)) π := by
  constructor
  · have heval : (history (Pool.tick Call.prog) (Pool.idle (boot 2 2)) [] creates).map
        (fun π => (π.all fun x => !startsLeave x.1, issued (returned π))) =
          some (true, [0, 0]) := by decide
    obtain ⟨π, hπ, heq⟩ := Option.map_eq_some_iff.1 heval
    obtain ⟨hl, hissued⟩ := Prod.mk.inj heq
    refine ⟨π, isRun_of_schedule hπ hl, hissued, fun hex => ?_⟩
    have hnd := hex.1
    rw [hissued] at hnd
    exact absurd hnd (by decide)
  · have heval : (history (Pool.tick Call.prog) (Pool.idle (boot 2 2)) [] joins).map
        (fun π => (π.all fun x => !startsLeave x.1, issued (returned π),
          members (0 : Fin 2) (returned π),
          ((last (Pool.idle (boot 2 2)) π).shared.container_table 0).process_active 1)) =
          some (true, [0], [1, 2], false) := by decide
    obtain ⟨π, hπ, heq⟩ := Option.map_eq_some_iff.1 heval
    simp only [Prod.mk.injEq] at heq
    obtain ⟨hl, hissued, hmembers, hfree⟩ := heq
    refine ⟨π, isRun_of_schedule hπ hl, hissued, hmembers,
      fun hex => ?_⟩
    -- Two members need two slots, and slot `1` is not active.
    obtain ⟨js, hnd, hslots⟩ := hex.2 0 (by rw [hissued]; simp)
    rw [hmembers] at hslots
    have hzero : ∀ pid j, (last (Pool.idle (boot 2 2)) π).shared.Slot 0 pid j → j = 0 := by
      rintro pid j ⟨hact, -⟩
      by_contra hj
      obtain rfl : j = 1 := by omega
      rw [hfree] at hact
      cases hact
    cases hslots with
    | cons h₁ hrest =>
      cases hrest with
      | cons h₂ hnil =>
        cases hnil
        rw [hzero _ _ h₁, hzero _ _ h₂] at hnd
        exact absurd hnd (by decide)

end Xv6.Containers
