import Xv6.Lib.CArray
import Xv6.Message.Multicast
import Xv6.Proc.Spec

/-!
# `store` and `send_multi`

The table `map` of `proc.c` says for a recipient of multicast messages which process listens for it.
`store` appends to it, without a look at its length. `send_multi` goes through it once for each
recipient and wakes the first process that it finds. What the two are for is that the processes woken
are those that were stored for one of the recipients (`Serves`). They do so exactly if there is room
for all entries and no recipient is given two different listeners.

An access outside the array is `none`. The copy of the message into `mean_buffer` is a part of
`Cast`, and is left out here.
-/

namespace Xv6

open Function

def Ptable.pidChan (t : Ptable) (past : ℕ) (p_pid : ℤ) : Chan :=
  match t.find (fun p => p.pid = p_pid) with
  | some i => .proc i
  | none => .other past

def Ptable.wakeupcustom (t : Ptable) (past : ℕ) (p_pid : ℤ) : Ptable :=
  t.wakeup1 (t.pidChan past p_pid)

/-- `map` and `map_len`; an entry is `b` and `s`. -/
structure Registry where
  map : Fin NPROC → ℤ × ℤ
  map_len : ℕ

namespace Registry

/-- Before the first call. -/
def zero : Registry := ⟨fun _ => (0, 0), 0⟩

def store (brother_pid sister_pid : ℤ) (r : Registry) : Option (ℤ × Registry) :=
  (CArray.wr r.map r.map_len (brother_pid, sister_pid)).map fun map => (0, ⟨map, r.map_len + 1⟩)

def storeAll : List (ℤ × ℤ) → Registry → Option Registry
  | [], r => some r
  | (b, s) :: l, r => (r.store b s).bind fun x => storeAll l x.2

def scan (r : Registry) (pid : ℤ) (j : ℕ) : ℕ → Option (Option ℤ)
  | 0 => some none
  | n + 1 => (CArray.rd r.map j).bind fun e =>
      if e.1 = pid then some (some e.2) else r.scan pid (j + 1) n

def sendMulti (r : Registry) (past : ℕ) : List ℤ → Ptable → Option (List ℤ × Ptable)
  | [], t => some ([], t)
  | pid :: rec_pid, t => (r.scan pid 0 r.map_len).bind fun found =>
      match found with
      | some s => (r.sendMulti past rec_pid (t.wakeupcustom past s)).map fun x => (s :: x.1, x.2)
      | none => r.sendMulti past rec_pid t

/-! ## What they are for -/

def Wakes (past : ℕ) (S : ℤ → Prop) (t t' : Ptable) : Prop :=
  ∀ i, ((t.proc i).state = .SLEEPING ∧ (∃ s, S s ∧ (t.proc i).chan = some (t.pidChan past s)) →
      t'.proc i = { t.proc i with state := .RUNNABLE }) ∧
    (¬ ((t.proc i).state = .SLEEPING ∧ ∃ s, S s ∧ (t.proc i).chan = some (t.pidChan past s)) →
      t'.proc i = t.proc i)

def Serves (past : ℕ) (l : List (ℤ × ℤ)) (rec_pid : List ℤ) (t : Ptable) : Prop :=
  ∃ r ss t', storeAll l zero = some r ∧ r.sendMulti past rec_pid t = some (ss, t') ∧
    (∀ s, s ∈ ss ↔ Cast.Registered l rec_pid s) ∧ Wakes past (Cast.Registered l rec_pid) t t'

/-! ## `store` -/

/-- The table holds the entries of `l`. -/
structure Holds (r : Registry) (l : List (ℤ × ℤ)) : Prop where
  len : r.map_len = l.length
  entry : ∀ k (hk : k < l.length), CArray.rd r.map k = some l[k]

theorem zero_holds : zero.Holds [] := ⟨rfl, fun k hk => absurd hk (Nat.not_lt_zero k)⟩

theorem Holds.store {r : Registry} {l : List (ℤ × ℤ)} (h : r.Holds l) (hroom : l.length < NPROC)
    (b s : ℤ) : ∃ r', r.store b s = some (0, r') ∧ r'.Holds (l ++ [(b, s)]) := by
  have hwr : CArray.wr r.map (r.map_len : ℤ) (b, s) =
      some (update r.map ⟨l.length, hroom⟩ (b, s)) := by
    rw [h.len]
    exact CArray.wr_natCast r.map ⟨l.length, hroom⟩ (b, s)
  refine ⟨⟨update r.map ⟨l.length, hroom⟩ (b, s), r.map_len + 1⟩, ?_, ?_, ?_⟩
  · rw [Registry.store, hwr]
    rfl
  · simp [h.len]
  · intro k hk
    rw [List.length_append, List.length_singleton] at hk
    have hk' : k < NPROC := by omega
    rw [show ((k : ℕ) : ℤ) = ((⟨k, hk'⟩ : Fin NPROC) : ℕ) from rfl, CArray.rd_natCast]
    by_cases hlast : k = l.length
    · subst hlast
      simp
    · have hlt : k < l.length := by omega
      have hne : (⟨k, hk'⟩ : Fin NPROC) ≠ ⟨l.length, hroom⟩ := fun heq => hlast (Fin.mk.inj heq)
      have hold := h.entry k hlt
      rw [show ((k : ℕ) : ℤ) = ((⟨k, hk'⟩ : Fin NPROC) : ℕ) from rfl, CArray.rd_natCast] at hold
      simp only [update_of_ne hne, List.getElem_append_left hlt]
      exact hold

theorem Holds.store_full {r : Registry} {l : List (ℤ × ℤ)} (h : r.Holds l)
    (hfull : NPROC ≤ l.length) (b s : ℤ) : r.store b s = none := by
  unfold Registry.store CArray.wr CArray.upd
  rw [h.len, dif_neg (by omega)]
  rfl

theorem storeAll_spec {r : Registry} {l₀ : List (ℤ × ℤ)} (h : r.Holds l₀) (hroom : l₀.length ≤ NPROC)
    (l : List (ℤ × ℤ)) :
    (l₀.length + l.length ≤ NPROC → ∃ r', storeAll l r = some r' ∧ r'.Holds (l₀ ++ l)) ∧
      (NPROC < l₀.length + l.length → storeAll l r = none) := by
  induction l generalizing r l₀ with
  | nil =>
    refine ⟨fun _ => ⟨r, rfl, ?_⟩, fun hlt => absurd hlt (by simpa using hroom)⟩
    rw [List.append_nil]
    exact h
  | cons x l ih =>
    obtain ⟨b, s⟩ := x
    rw [List.length_cons]
    by_cases hlt : l₀.length < NPROC
    · obtain ⟨r', hstore, hholds⟩ := h.store hlt b s
      have hlen : (l₀ ++ [(b, s)]).length = l₀.length + 1 := by simp
      obtain ⟨hfit, hover⟩ := ih hholds (by omega)
      rw [hlen, List.append_assoc, List.singleton_append] at hfit
      rw [hlen] at hover
      rw [storeAll, hstore, Option.bind_some]
      exact ⟨fun hle => hfit (by omega), fun hgt => hover (by omega)⟩
    · refine ⟨fun hle => absurd hle (by omega), fun _ => ?_⟩
      rw [storeAll, h.store_full (by omega) b s, Option.bind_none]

/-! ## `send_multi` -/

theorem Holds.scan_eq {r : Registry} {l : List (ℤ × ℤ)} (h : r.Holds l) (pid : ℤ) {j n : ℕ}
    (hn : j + n = l.length) : r.scan pid j n = some (Cast.target (l.drop j) pid) := by
  induction n generalizing j with
  | zero =>
    rw [List.drop_eq_nil_of_le (by omega)]
    rfl
  | succ n ih =>
    have hlt : j < l.length := by omega
    unfold scan
    rw [h.entry j hlt, Option.bind_some, List.drop_eq_getElem_cons hlt, Cast.target,
      List.find?_cons]
    by_cases hb : (l[j]).1 = pid
    · simp [hb]
    · simp only [hb, if_false, decide_false]
      exact ih (by omega)

theorem Holds.sendMulti_eq {r : Registry} {l : List (ℤ × ℤ)} (h : r.Holds l) (past : ℕ)
    (rec_pid : List ℤ) (t : Ptable) :
    r.sendMulti past rec_pid t = some (rec_pid.filterMap (Cast.target l),
      (rec_pid.filterMap (Cast.target l)).foldl (fun t s => t.wakeupcustom past s) t) := by
  induction rec_pid generalizing t with
  | nil => rfl
  | cons pid rec_pid ih =>
    have hscan := h.scan_eq pid (j := 0) (n := r.map_len) (by rw [h.len, Nat.zero_add])
    rw [List.drop_zero] at hscan
    unfold sendMulti
    rw [hscan, Option.bind_some]
    cases htarget : Cast.target l pid with
    | none =>
      rw [List.filterMap_cons_none htarget]
      exact ih t
    | some s =>
      rw [List.filterMap_cons_some htarget]
      simp only [ih, Option.map_some, List.foldl_cons]

theorem pidChan_wakeup1 (t : Ptable) (past : ℕ) (chan : Chan) (p_pid : ℤ) :
    (t.wakeup1 chan).pidChan past p_pid = t.pidChan past p_pid := by
  have hpid : ∀ i, ((t.wakeup1 chan).proc i).pid = (t.proc i).pid :=
    fun i => (t.wakeup1_woken chan i).pid
  simp only [Ptable.pidChan, Ptable.find, hpid]

theorem wakes_foldl (past : ℕ) (ss : List ℤ) (t : Ptable) :
    Wakes past (· ∈ ss) t (ss.foldl (fun t s => t.wakeupcustom past s) t) := by
  induction ss generalizing t with
  | nil =>
    refine fun i => ⟨?_, fun _ => rfl⟩
    rintro ⟨-, s, hs, -⟩
    cases hs
  | cons s ss ih =>
    intro i
    rw [List.foldl_cons]
    have hrest := ih (t.wakeupcustom past s) i
    simp only [Ptable.wakeupcustom, pidChan_wakeup1] at hrest ⊢
    simp only [List.mem_cons]
    by_cases hfirst : (t.proc i).state = .SLEEPING ∧ (t.proc i).chan = some (t.pidChan past s)
    · -- Woken here, so it does not sleep any more.
      have hproc : (t.wakeup1 (t.pidChan past s)).proc i =
          { t.proc i with state := .RUNNABLE } := by
        simp only [Ptable.wakeup1, hfirst, and_self, if_true]
      rw [hproc] at hrest
      have hstay := hrest.2 (fun h => absurd h.1 (by simp))
      exact ⟨fun _ => hstay, fun h => absurd ⟨hfirst.1, s, .inl rfl, hfirst.2⟩ h⟩
    · have hproc : (t.wakeup1 (t.pidChan past s)).proc i = t.proc i := by
        simp only [Ptable.wakeup1, hfirst, if_false]
      rw [hproc] at hrest
      refine ⟨?_, fun h => hrest.2 ?_⟩
      · rintro ⟨hsleep, s', rfl | hs', hchan⟩
        · exact absurd ⟨hsleep, hchan⟩ hfirst
        · exact hrest.1 ⟨hsleep, s', hs', hchan⟩
      · rintro ⟨hsleep, s', hs', hchan⟩
        exact h ⟨hsleep, s', .inr hs', hchan⟩

def Functional (l : List (ℤ × ℤ)) : Prop := ∀ b s s', (b, s) ∈ l → (b, s') ∈ l → s = s'

theorem mem_of_target {l : List (ℤ × ℤ)} {b s : ℤ} (h : Cast.target l b = some s) : (b, s) ∈ l := by
  obtain ⟨x, hx, rfl⟩ := Option.map_eq_some_iff.1 h
  have hb : x.1 = b := by simpa using List.find?_some hx
  rw [← hb]
  exact List.mem_of_find?_eq_some hx

theorem target_eq_some_iff {l : List (ℤ × ℤ)} (h : Functional l) {b s : ℤ} :
    Cast.target l b = some s ↔ (b, s) ∈ l := by
  refine ⟨mem_of_target, fun hmem => ?_⟩
  cases htarget : Cast.target l b with
  | none =>
    rw [Cast.target, Option.map_eq_none_iff, List.find?_eq_none] at htarget
    exact absurd (htarget _ hmem) (by simp)
  | some s' => rw [h b s s' hmem (mem_of_target htarget)]

/-- After any number of calls of `store`, and whatever the recipients and the processes are,
`send_multi` wakes exactly the processes stored for one of the recipients, with all accesses in the
array, if and only if there were at most `NPROC` calls and none gave a recipient a second listener. -/
theorem serves_iff (past : ℕ) (l : List (ℤ × ℤ)) :
    (∀ rec_pid t, Serves past l rec_pid t) ↔ l.length ≤ NPROC ∧ Functional l := by
  obtain ⟨hfit, hover⟩ := storeAll_spec zero_holds (Nat.zero_le _) l
  rw [List.length_nil, Nat.zero_add, List.nil_append] at hfit
  rw [List.length_nil, Nat.zero_add] at hover
  constructor
  · intro h
    have hle : l.length ≤ NPROC := by
      by_contra hgt
      obtain ⟨r, -, -, hr, -⟩ := h [] Ptable.userinit
      rw [hover (by omega)] at hr
      cases hr
    refine ⟨hle, fun b s s' hs hs' => ?_⟩
    -- A message to `b` alone wakes one process only.
    obtain ⟨r', hr', hholds⟩ := hfit hle
    obtain ⟨r, ss, t', hr, hsend, hmem, -⟩ := h [b] Ptable.userinit
    cases hr'.symm.trans hr
    rw [hholds.sendMulti_eq] at hsend
    cases hsend
    have hone : ∀ s, (b, s) ∈ l → Cast.target l b = some s := by
      intro s hs
      have hmem' := (hmem s).2 ⟨b, List.mem_singleton_self b, hs⟩
      obtain ⟨b', hb', htarget⟩ := List.mem_filterMap.1 hmem'
      obtain rfl := List.mem_singleton.1 hb'
      exact htarget
    exact Option.some.inj ((hone s hs).symm.trans (hone s' hs'))
  · rintro ⟨hle, hfun⟩ rec_pid t
    obtain ⟨r, hr, hholds⟩ := hfit hle
    have hmem : ∀ s, s ∈ rec_pid.filterMap (Cast.target l) ↔ Cast.Registered l rec_pid s := by
      intro s
      simp only [List.mem_filterMap, target_eq_some_iff hfun, Cast.Registered]
    have hset : (· ∈ rec_pid.filterMap (Cast.target l)) = Cast.Registered l rec_pid :=
      funext fun s => propext (hmem s)
    refine ⟨r, _, _, hr, hholds.sendMulti_eq past rec_pid t, hmem, ?_⟩
    rw [← hset]
    exact wakes_foldl past _ t

/-- The 65th call of `store` writes outside the array. And of the two processes that are stored for
recipient 1, a message to it wakes the first only. -/
theorem store_overruns_and_second_sleeps :
    ¬ Serves 0 (List.replicate 65 (1, 2)) [] Ptable.userinit ∧
      ((storeAll [(1, 2), (1, 3)] zero).bind fun r =>
        (r.sendMulti 0 [1] Ptable.userinit).map Prod.fst) = some [2] ∧
      ¬ Serves 0 [(1, 2), (1, 3)] [1] Ptable.userinit := by
  have hsend : ((storeAll [(1, 2), (1, 3)] zero).bind fun r =>
      (r.sendMulti 0 [1] Ptable.userinit).map Prod.fst) = some [2] := by decide
  refine ⟨?_, hsend, ?_⟩
  · rintro ⟨r, -, -, hr, -⟩
    have hnone := (storeAll_spec zero_holds (Nat.zero_le _) (List.replicate 65 (1, 2))).2
    rw [hnone (by decide)] at hr
    cases hr
  · rintro ⟨r, ss, t', hr, hss, hmem, -⟩
    rw [hr, Option.bind_some, hss, Option.map_some] at hsend
    cases hsend
    exact absurd ((hmem 3).2 (by decide)) (by decide)

end Registry

end Xv6
