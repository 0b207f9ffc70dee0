import Mathlib.Logic.ExistsUnique

/-!
# Ledgers

What is handed out and who has it: a set of marked items and a relation of owners to items are a
`Ledger` if every marked item has exactly one owner and an item that has an owner is marked. The
lemmas say how the two change together when an item is handed out, given back or moved to another
owner.
-/

namespace Xv6

variable {α β : Type} {marked marked' : β → Prop} {owns owns' : α → β → Prop} {a a' : α} {b : β}

/-- Every marked item has one owner, and only those have one. -/
structure Ledger (marked : β → Prop) (owns : α → β → Prop) : Prop where
  sound : ∀ {a b}, owns a b → marked b
  unique : ∀ {a a' b}, owns a b → owns a' b → a = a'
  complete : ∀ {b}, marked b → ∃ a, owns a b

namespace Ledger

theorem congr (h : Ledger marked owns) (hm : ∀ c, marked' c ↔ marked c)
    (ho : ∀ d c, owns' d c ↔ owns d c) : Ledger marked' owns' where
  sound hd := (hm _).2 (h.sound ((ho _ _).1 hd))
  unique hd hd' := h.unique ((ho _ _).1 hd) ((ho _ _).1 hd')
  complete hc := (h.complete ((hm _).1 hc)).imp fun _ hd => (ho _ _).2 hd

theorem take (h : Ledger marked owns) (hb : ¬ marked b) (hm : ∀ c, marked' c ↔ marked c ∨ c = b)
    (ho : ∀ d c, owns' d c ↔ owns d c ∨ d = a ∧ c = b) : Ledger marked' owns' where
  sound {d c} hd := by
    rcases (ho d c).1 hd with hd | ⟨-, hc⟩
    · exact (hm c).2 (.inl (h.sound hd))
    · exact (hm c).2 (.inr hc)
  unique {d d' c} hd hd' := by
    rcases (ho d c).1 hd with hd | ⟨rfl, rfl⟩ <;> rcases (ho d' c).1 hd' with hd' | ⟨rfl, hc⟩
    · exact h.unique hd hd'
    · exact absurd (h.sound (hc ▸ hd)) hb
    · exact absurd (h.sound hd') hb
    · rfl
  complete {c} hc := by
    rcases (hm c).1 hc with hc | rfl
    · exact (h.complete hc).imp fun d hd => (ho d c).2 (.inl hd)
    · exact ⟨a, (ho a c).2 (.inr ⟨rfl, rfl⟩)⟩

theorem drop (h : Ledger marked owns) (hm : ∀ c, marked' c ↔ marked c ∧ c ≠ b)
    (ho : ∀ d c, owns' d c ↔ owns d c ∧ c ≠ b) : Ledger marked' owns' where
  sound {d c} hd := (hm c).2 (((ho d c).1 hd).imp_left h.sound)
  unique {d d' c} hd hd' := h.unique ((ho d c).1 hd).1 ((ho d' c).1 hd').1
  complete {c} hc := by
    obtain ⟨hc, hne⟩ := (hm c).1 hc
    exact (h.complete hc).imp fun d hd => (ho d c).2 ⟨hd, hne⟩

theorem move (h : Ledger marked owns) (hb : marked b) (hm : ∀ c, marked' c ↔ marked c)
    (ho : ∀ d c, owns' d c ↔ owns d c ∧ c ≠ b ∨ d = a ∧ c = b) : Ledger marked' owns' where
  sound {d c} hd := by
    rcases (ho d c).1 hd with ⟨hd, -⟩ | ⟨-, rfl⟩
    · exact (hm c).2 (h.sound hd)
    · exact (hm c).2 hb
  unique {d d' c} hd hd' := by
    rcases (ho d c).1 hd with ⟨hd, hne⟩ | ⟨rfl, hc⟩ <;>
      rcases (ho d' c).1 hd' with ⟨hd', hne'⟩ | ⟨rfl, hc'⟩
    · exact h.unique hd hd'
    · exact absurd hc' hne
    · exact absurd hc hne'
    · rfl
  complete {c} hc := by
    by_cases hcb : c = b
    · exact ⟨a, (ho a c).2 (.inr ⟨rfl, hcb⟩)⟩
    · exact (h.complete ((hm c).1 hc)).imp fun d hd => (ho d c).2 (.inl ⟨hd, hcb⟩)

theorem give (h : Ledger marked owns) (a' : α) (hb : owns a b) (hne : a' ≠ a)
    (hfrom : ∀ c, owns' a c ↔ owns a c ∧ c ≠ b) (hto : ∀ c, owns' a' c ↔ owns a' c ∨ c = b)
    (hrest : ∀ d, d ≠ a → d ≠ a' → ∀ c, owns' d c ↔ owns d c) : Ledger marked owns' := by
  refine h.move (a := a') (h.sound hb) (fun _ => Iff.rfl) fun d c => ?_
  have hother : d ≠ a → owns d c → c ≠ b := by
    rintro hd hc rfl
    exact hd (h.unique hc hb)
  by_cases hd : d = a
  · subst hd
    rw [hfrom]
    exact ⟨.inl, fun hc => hc.resolve_right fun hx => hne hx.1.symm⟩
  · by_cases hd' : d = a'
    · subst hd'
      rw [hto]
      constructor
      · rintro (hc | rfl)
        · exact .inl ⟨hc, hother hd hc⟩
        · exact .inr ⟨rfl, rfl⟩
      · rintro (⟨hc, -⟩ | ⟨-, rfl⟩)
        · exact .inl hc
        · exact .inr rfl
    · rw [hrest d hd hd']
      exact ⟨fun hc => .inl ⟨hc, hother hd hc⟩, fun hc => hc.elim And.left fun hx => absurd hx.1 hd'⟩

end Ledger

end Xv6
