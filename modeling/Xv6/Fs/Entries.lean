import Xv6.Fs.Inode

/-!
# The entries of a directory as a finite map

The functions that look at the entries of a directory one by one, `find` and `emptyAt`, and `putEnt`,
which writes one, in terms of the map from names to inode numbers that the entries stand for. The
names of the entries in use have to be `Distinct`, and stay so: an entry is written only after `find`
has not found its name.
-/

namespace Xv6.Fs

open Function

variable {es : List Dirent} {e : Dirent} {name : Name} {inum off k : ℕ}

theorem find_eq_some {name : Name} {es : List Dirent} {inum off : ℕ}
    (h : find name es = some (inum, off)) :
    ∃ e, es[off]? = some e ∧ e.inum = inum ∧ inum ≠ 0 ∧ e.name = name := by
  induction es generalizing off with
  | nil => cases h
  | cons e es ih =>
    simp only [find] at h
    split at h
    · rename_i he
      cases h
      exact ⟨e, rfl, rfl, he.1, he.2⟩
    · obtain ⟨⟨j, k⟩, hf, heq⟩ := Option.map_eq_some_iff.1 h
      cases heq
      obtain ⟨e', he', hrest⟩ := ih hf
      exact ⟨e', by simpa using he', hrest⟩

theorem find_eq_none : find name es = none ↔ ∀ e ∈ es, e.inum ≠ 0 → e.name ≠ name := by
  induction es with
  | nil => exact iff_of_true rfl nofun
  | cons e es ih =>
    rw [find, List.forall_mem_cons]
    by_cases he : e.inum ≠ 0 ∧ e.name = name
    · rw [if_pos he]
      exact iff_of_false nofun fun h => h.1 he.1 he.2
    · rw [if_neg he, Option.map_eq_none_iff, ih]
      exact ⟨fun h => ⟨fun hi hn => he ⟨hi, hn⟩, h⟩, fun h => h.2⟩

def bound (es : List Dirent) (name : Name) : Option ℕ := (find name es).map Prod.fst

theorem bound_eq_none : bound es name = none ↔ find name es = none := Option.map_eq_none_iff

def Distinct (es : List Dirent) : Prop :=
  ∀ ⦃j k : ℕ⦄ ⦃e e' : Dirent⦄, es[j]? = some e → es[k]? = some e' → e.inum ≠ 0 → e'.inum ≠ 0 →
    e.name = e'.name → j = k

theorem Distinct.bound_eq_some (h : Distinct es) :
    bound es name = some inum ↔ inum ≠ 0 ∧ ∃ k : ℕ, es[k]? = some (Dirent.mk inum name) := by
  constructor
  · intro hb
    obtain ⟨⟨inum', off⟩, hfind, rfl⟩ := Option.map_eq_some_iff.1 hb
    obtain ⟨e, he, rfl, hne, rfl⟩ := find_eq_some hfind
    exact ⟨hne, off, he⟩
  · rintro ⟨hne, k, hk⟩
    cases hfind : find name es with
    | none => exact absurd rfl (find_eq_none.1 hfind _ (List.mem_of_getElem? hk) hne)
    | some x =>
      obtain ⟨inum', off⟩ := x
      obtain ⟨e, he, rfl, hne', hname⟩ := find_eq_some hfind
      obtain rfl : off = k := h he hk hne' hne hname
      cases he.symm.trans hk
      rw [bound, hfind]
      rfl

/-! ## Where an entry goes -/

theorem emptyAt_le (es : List Dirent) : emptyAt es ≤ es.length := by
  induction es with
  | nil => exact Nat.le_refl 0
  | cons e es ih =>
    rw [emptyAt, List.length_cons]
    split <;> omega

theorem getElem?_emptyAt (h : es[emptyAt es]? = some e) : e.inum = 0 := by
  induction es with
  | nil => cases h
  | cons e' es ih =>
    rw [emptyAt] at h
    split at h
    · rename_i h0
      cases h
      exact h0
    · exact ih (by simpa using h)

theorem emptyAt_lt_iff : emptyAt es < es.length ↔ ∃ e ∈ es, e.inum = 0 := by
  constructor
  · intro h
    exact ⟨_, List.getElem_mem h, getElem?_emptyAt (List.getElem?_eq_getElem h)⟩
  · rintro ⟨e, he, h0⟩
    induction es with
    | nil => cases he
    | cons e' es ih =>
      rw [emptyAt, List.length_cons]
      split
      · omega
      · rename_i hne
        rcases List.mem_cons.1 he with rfl | he
        · exact absurd h0 hne
        · have := ih he
          omega

theorem getElem?_putEnt (hoff : off ≤ es.length) :
    (putEnt es off e)[k]? = if k = off then some e else es[k]? := by
  unfold putEnt
  by_cases hlt : off < es.length
  · rw [if_pos hlt]
    by_cases hk : k = off
    · subst hk
      rw [if_pos rfl, List.getElem?_set_self hlt]
    · rw [if_neg hk, List.getElem?_set_ne fun h => hk h.symm]
  · obtain rfl : off = es.length := by omega
    rw [if_neg (Nat.lt_irrefl _)]
    rcases Nat.lt_trichotomy k es.length with hk | rfl | hk
    · rw [if_neg (by omega), List.getElem?_append_left hk]
    · rw [if_pos rfl, List.getElem?_concat_length]
    · rw [if_neg (by omega), List.getElem?_eq_none (by rw [List.length_append]; exact hk),
        List.getElem?_eq_none hk.le]

theorem length_putEnt :
    (putEnt es off e).length = if off < es.length then es.length else es.length + 1 := by
  unfold putEnt
  split
  · exact List.length_set
  · exact List.length_append

/-! ## `dirlink` -/

section Link

variable (h : Distinct es) (hnone : find name es = none) (hinum : inum ≠ 0)
include h hnone

theorem Distinct.link : Distinct (putEnt es (emptyAt es) ⟨inum, name⟩) := by
  -- No entry in use elsewhere has the new name.
  have hnew : ∀ {k : ℕ} {e : Dirent}, es[k]? = some e → e.inum ≠ 0 → e.name ≠ name := fun he hne =>
    find_eq_none.1 hnone _ (List.mem_of_getElem? he) hne
  intro j k e e' hj hk he he' hname
  rw [getElem?_putEnt (emptyAt_le es)] at hj hk
  split at hj
  · cases hj
    split at hk
    · omega
    · exact absurd hname.symm (hnew hk he')
  · split at hk
    · cases hk
      exact absurd hname (hnew hj he)
    · exact h hj hk he he' hname

include hinum

theorem Distinct.bound_link :
    bound (putEnt es (emptyAt es) ⟨inum, name⟩) =
      update (bound es) name (some inum) := by
  funext other
  refine Option.ext fun v => ?_
  rw [Distinct.bound_eq_some (h.link hnone)]
  by_cases hother : other = name
  · subst hother
    rw [update_self, Option.some.injEq]
    constructor
    · rintro ⟨hv, k, hk⟩
      rw [getElem?_putEnt (emptyAt_le es)] at hk
      split at hk
      · exact (Dirent.mk.inj (Option.some.inj hk)).1
      · exact absurd rfl (find_eq_none.1 hnone _ (List.mem_of_getElem? hk) hv)
    · rintro rfl
      exact ⟨hinum, emptyAt es, by rw [getElem?_putEnt (emptyAt_le es), if_pos rfl]⟩
  · rw [update_of_ne hother, h.bound_eq_some]
    refine and_congr_right fun hv => exists_congr fun k => ?_
    rw [getElem?_putEnt (emptyAt_le es)]
    split
    · rename_i hk
      subst hk
      refine iff_of_false (fun heq => ?_) fun heq => hv (getElem?_emptyAt heq)
      exact hother (Dirent.mk.inj (Option.some.inj heq)).2.symm
    · exact Iff.rfl

end Link

/-! ## `sys_unlink` -/

section Unlink

variable {junk : Name} (h : Distinct es) (hfind : find name es = some (inum, off))
include h

theorem Distinct.unlink (hoff : off ≤ es.length) : Distinct (putEnt es off ⟨0, junk⟩) := by
  have hold : ∀ {k : ℕ} {e : Dirent}, (putEnt es off ⟨0, junk⟩)[k]? = some e → e.inum ≠ 0 →
      es[k]? = some e := by
    intro k e hk hne
    rw [getElem?_putEnt hoff] at hk
    split at hk
    · cases hk
      exact absurd rfl hne
    · exact hk
  intro j k e e' hj hk he he' hname
  exact h (hold hj he) (hold hk he') he he' hname

include hfind

theorem Distinct.bound_unlink :
    bound (putEnt es off ⟨0, junk⟩) = update (bound es) name none := by
  obtain ⟨e, he, rfl, hne, rfl⟩ := find_eq_some hfind
  have hoff : off ≤ es.length := (List.getElem?_eq_some_iff.1 he).1.le
  funext other
  refine Option.ext fun v => ?_
  rw [Distinct.bound_eq_some (h.unlink hoff)]
  by_cases hother : other = e.name
  · subst hother
    rw [update_self]
    refine iff_of_false ?_ nofun
    rintro ⟨hv, k, hk⟩
    rw [getElem?_putEnt hoff] at hk
    split at hk
    · exact hv (Dirent.mk.inj (Option.some.inj hk)).1.symm
    · rename_i hne'
      exact hne' (h hk he hv hne rfl)
  · rw [update_of_ne hother, h.bound_eq_some]
    refine and_congr_right fun hv => exists_congr fun k => ?_
    rw [getElem?_putEnt hoff]
    split
    · rename_i hk
      subst hk
      refine iff_of_false (fun heq => hv (Dirent.mk.inj (Option.some.inj heq)).1.symm) fun heq => ?_
      rw [he, Option.some.injEq] at heq
      exact hother (by rw [heq])
    · exact Iff.rfl

end Unlink

end Xv6.Fs
