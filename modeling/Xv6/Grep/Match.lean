import Xv6.Lib.Bytes
import Mathlib.Computability.Language

/-!
# The patterns of `grep`

`match`, `matchhere` and `matchstar` of `grep.c`, and the language of a pattern. A string is the list
of its characters, without the NUL at its end: where the source tests for NUL, the list is empty.

A pattern is a sequence of items, which are characters and starred characters; a character is starred
if the one after it is `*`, whatever it is itself. A `^` at the start and a `$` at the end are not
items. `match` finds out whether there is a substring in the product of the languages of the items,
which starts and ends where these two say.

The user stack is not modelled: it is one page, and a pattern that is long enough overflows it, since
`matchhere` calls itself for each item.
-/

namespace Xv6.Grep

/-- `'^'` -/
def CARET : Byte := 94#8

/-- `'$'` -/
def DOLLAR : Byte := 36#8

/-- `'.'` -/
def DOT : Byte := 46#8

/-- `'*'` -/
def STAR : Byte := 42#8

/-! ## The matcher -/

def matchstar (c : Byte) (here : List Byte → Bool) : List Byte → Bool
  | [] => here []
  | x :: text => here (x :: text) || ((x = c ∨ c = DOT) && matchstar c here text)

def matchchar (c : Byte) (here : List Byte → Bool) : List Byte → Bool
  | [] => false
  | x :: text => (c = DOT ∨ c = x) && here text

def matchhere : List Byte → List Byte → Bool
  | [], _ => true
  | [c], text => if c = DOLLAR then text = [] else matchchar c (matchhere []) text
  | c :: s :: re, text =>
    if s = STAR then matchstar c (matchhere re) text else matchchar c (matchhere (s :: re)) text

def matchFrom (re : List Byte) : List Byte → Bool
  | [] => matchhere re []
  | x :: text => matchhere re (x :: text) || matchFrom re text

def match' (re text : List Byte) : Bool :=
  if re.head? = some CARET then matchhere re.tail text else matchFrom re text

/-! ## The language -/

/-- Of what a pattern consists. -/
inductive Item
  | char (c : Byte)
  | star (c : Byte)

/-- The items of a pattern. -/
def items : List Byte → List Item
  | [] => []
  | [c] => [.char c]
  | c :: s :: re => if s = STAR then .star c :: items re else .char c :: items (s :: re)

def stem (re : List Byte) : List Byte := if re.head? = some CARET then re.tail else re

def Stops (re : List Byte) : Prop := re.getLast? = some DOLLAR

instance (re : List Byte) : Decidable (Stops re) := inferInstanceAs (Decidable (_ = _))

/-- The items before it. -/
def body (re : List Byte) : List Item := items (if Stops re then re.dropLast else re)

def Fits (c x : Byte) : Prop := c = DOT ∨ c = x

def chars (c : Byte) : Language Byte := {w | ∃ x, w = [x] ∧ Fits c x}

def Item.lang : Item → Language Byte
  | .char c => chars c
  | .star c => KStar.kstar (chars c)

def lang (is : List Item) : Language Byte := (is.map Item.lang).prod

def Matches (re text : List Byte) : Prop :=
  ∃ pre w post, text = pre ++ w ++ post ∧ w ∈ lang (body (stem re)) ∧
    (re.head? = some CARET → pre = []) ∧ (Stops (stem re) → post = [])

/-! ## Items -/

variable {c s x : Byte} {re text u w : List Byte} {i : Item} {is : List Item} {stop : Prop}

theorem items_star (c : Byte) (re : List Byte) : items (c :: STAR :: re) = .star c :: items re := by
  rw [items, if_pos rfl]

theorem items_char (c : Byte) (h : re.head? ≠ some STAR) : items (c :: re) = .char c :: items re := by
  cases re with
  | nil => rfl
  | cons s re => rw [items, if_neg (fun hs => h (congrArg some hs))]

theorem stops_cons (c s : Byte) (re : List Byte) : Stops (c :: s :: re) ↔ Stops (s :: re) := by
  unfold Stops
  rw [List.getLast?_cons_cons]

theorem stops_star (c : Byte) (re : List Byte) : Stops (c :: STAR :: re) ↔ Stops re := by
  rw [stops_cons]
  cases re with
  | nil => decide
  | cons s re => exact stops_cons STAR s re

theorem body_star (c : Byte) (re : List Byte) : body (c :: STAR :: re) = .star c :: body re := by
  unfold body
  rw [if_congr (stops_star c re) rfl rfl]
  cases re with
  | nil => rfl
  | cons s re =>
    split
    · exact items_star c _
    · exact items_star c _

theorem body_char (c : Byte) (hs : s ≠ STAR) (re : List Byte) :
    body (c :: s :: re) = .char c :: body (s :: re) := by
  unfold body
  rw [if_congr (stops_cons c s re) rfl rfl]
  split
  · refine items_char c ?_
    cases re with
    | nil => exact nofun
    | cons t re => exact fun h => hs (Option.some.inj h)
  · exact items_char c fun h => hs (Option.some.inj h)

/-! ## Words -/

theorem mem_kstar_chars : u ∈ KStar.kstar (chars c) ↔ ∀ x ∈ u, Fits c x := by
  rw [Language.mem_kstar]
  constructor
  · rintro ⟨L, rfl, hL⟩ x hx
    obtain ⟨w, hw, hxw⟩ := List.mem_flatten.1 hx
    obtain ⟨y, rfl, hy⟩ := hL w hw
    obtain rfl := List.mem_singleton.1 hxw
    exact hy
  · intro h
    have hflat : u = (u.map fun x => [x]).flatten := by
      rw [← List.flatMap_def, List.flatMap_singleton']
    refine ⟨u.map fun x => [x], hflat, fun w hw => ?_⟩
    obtain ⟨x, hx, rfl⟩ := List.mem_map.1 hw
    exact ⟨x, rfl, h x hx⟩

def Here (is : List Item) (stop : Prop) (text : List Byte) : Prop :=
  ∃ w post, text = w ++ post ∧ w ∈ lang is ∧ (stop → post = [])

theorem here_nil : Here [] stop text ↔ (stop → text = []) := by
  constructor
  · rintro ⟨w, post, rfl, hw, hpost⟩
    obtain rfl : w = [] := hw
    exact hpost
  · intro h
    exact ⟨[], text, rfl, rfl, h⟩

theorem here_cons : Here (i :: is) stop text ↔
    ∃ u v, text = u ++ v ∧ u ∈ i.lang ∧ Here is stop v := by
  have hlang : lang (i :: is) = i.lang * lang is := List.prod_cons
  unfold Here
  rw [hlang]
  constructor
  · rintro ⟨_, post, rfl, ⟨u, hu, w, hw, rfl⟩, hpost⟩
    exact ⟨u, w ++ post, List.append_assoc .., hu, w, post, rfl, hw, hpost⟩
  · rintro ⟨u, _, rfl, hu, w, post, rfl, hw, hpost⟩
    exact ⟨u ++ w, post, (List.append_assoc ..).symm, Language.append_mem_mul hu hw, hpost⟩

/-! ## The functions -/

section

variable {here : List Byte → Bool} (hhere : ∀ t, here t = true ↔ Here is stop t)
include hhere

theorem matchchar_iff : matchchar c here text = true ↔ Here (.char c :: is) stop text := by
  rw [here_cons]
  cases text with
  | nil =>
    refine iff_of_false nofun ?_
    rintro ⟨u, v, htext, ⟨x, rfl, -⟩, -⟩
    cases htext
  | cons x text =>
    rw [matchchar, Bool.and_eq_true, decide_eq_true_iff, hhere]
    constructor
    · rintro ⟨hx, htext⟩
      exact ⟨[x], text, rfl, ⟨x, rfl, hx⟩, htext⟩
    · rintro ⟨_, v, htext, ⟨y, rfl, hy⟩, hv⟩
      obtain ⟨rfl, rfl⟩ := List.cons.inj htext
      exact ⟨hy, hv⟩

theorem matchstar_iff : matchstar c here text = true ↔ Here (.star c :: is) stop text := by
  rw [here_cons]
  induction text with
  | nil =>
    rw [matchstar, hhere]
    constructor
    · intro h
      exact ⟨[], [], rfl, mem_kstar_chars.2 nofun, h⟩
    · rintro ⟨u, v, htext, -, hv⟩
      obtain ⟨-, rfl⟩ := List.append_eq_nil_iff.1 htext.symm
      exact hv
  | cons x text ih =>
    rw [matchstar, Bool.or_eq_true, Bool.and_eq_true, decide_eq_true_iff, ih, hhere]
    constructor
    · rintro (h | ⟨hx, u, v, rfl, hu, hv⟩)
      · exact ⟨[], x :: text, rfl, mem_kstar_chars.2 nofun, h⟩
      · refine ⟨x :: u, v, rfl, mem_kstar_chars.2 fun y hy => ?_, hv⟩
        rcases List.mem_cons.1 hy with rfl | hy
        · exact hx.symm.imp_right Eq.symm
        · exact mem_kstar_chars.1 hu y hy
    · rintro ⟨u, v, htext, hu, hv⟩
      cases u with
      | nil =>
        obtain rfl : x :: text = v := htext
        exact .inl hv
      | cons y u =>
        obtain ⟨rfl, rfl⟩ := List.cons.inj htext
        have hfits := mem_kstar_chars.1 hu
        refine .inr ⟨(hfits x List.mem_cons_self).symm.imp_left Eq.symm, u, v, rfl, ?_, hv⟩
        exact mem_kstar_chars.2 fun z hz => hfits z (List.mem_cons_of_mem x hz)

end

theorem matchhere_iff : ∀ re text : List Byte,
    matchhere re text = true ↔ Here (body re) (Stops re) text
  | [], text => iff_of_true rfl (here_nil.2 nofun)
  | [c], text => by
    by_cases hc : c = DOLLAR
    · subst hc
      rw [matchhere, if_pos rfl, decide_eq_true_iff]
      show text = [] ↔ Here [] (Stops [DOLLAR]) text
      rw [here_nil]
      exact ⟨fun htext _ => htext, fun h => h rfl⟩
    · rw [matchhere, if_neg hc, matchchar_iff (matchhere_iff [])]
      have hstops : ¬ Stops [c] := fun h => hc (Option.some.inj h)
      have hsame : Stops [] ↔ Stops [c] := iff_of_false nofun hstops
      rw [hsame]
      unfold body
      rw [if_neg hstops]
      exact Iff.rfl
  | c :: s :: re, text => by
    by_cases hs : s = STAR
    · subst hs
      rw [matchhere, if_pos rfl, matchstar_iff (matchhere_iff re), body_star, stops_star]
    · rw [matchhere, if_neg hs, matchchar_iff (matchhere_iff (s :: re)), body_char c hs, stops_cons]

theorem matchFrom_iff : matchFrom re text = true ↔
    ∃ pre t, text = pre ++ t ∧ matchhere re t = true := by
  induction text with
  | nil =>
    constructor
    · intro h
      exact ⟨[], [], rfl, h⟩
    · rintro ⟨pre, t, htext, ht⟩
      obtain ⟨-, rfl⟩ := List.append_eq_nil_iff.1 htext.symm
      exact ht
  | cons x text ih =>
    rw [matchFrom, Bool.or_eq_true, ih]
    constructor
    · rintro (h | ⟨pre, t, rfl, ht⟩)
      · exact ⟨[], x :: text, rfl, h⟩
      · exact ⟨x :: pre, t, rfl, ht⟩
    · rintro ⟨pre, t, htext, ht⟩
      cases pre with
      | nil =>
        obtain rfl : x :: text = t := htext
        exact .inl ht
      | cons y pre =>
        obtain ⟨rfl, rfl⟩ := List.cons.inj htext
        exact .inr ⟨pre, t, rfl, ht⟩

/-- `match` returns non-zero if and only if some substring of the text is in the language of the
pattern. -/
theorem match_iff (re text : List Byte) : match' re text = true ↔ Matches re text := by
  unfold match' Matches stem
  by_cases hcaret : re.head? = some CARET
  · rw [if_pos hcaret, if_pos hcaret, matchhere_iff]
    constructor
    · rintro ⟨w, post, rfl, hw, hpost⟩
      exact ⟨[], w, post, rfl, hw, fun _ => rfl, hpost⟩
    · rintro ⟨pre, w, post, rfl, hw, hpre, hpost⟩
      obtain rfl := hpre hcaret
      exact ⟨w, post, rfl, hw, hpost⟩
  · rw [if_neg hcaret, if_neg hcaret, matchFrom_iff]
    constructor
    · rintro ⟨pre, t, rfl, ht⟩
      obtain ⟨w, post, rfl, hw, hpost⟩ := (matchhere_iff re t).1 ht
      exact ⟨pre, w, post, (List.append_assoc ..).symm, hw, fun h => absurd h hcaret, hpost⟩
    · rintro ⟨pre, w, post, rfl, hw, -, hpost⟩
      refine ⟨pre, w ++ post, List.append_assoc .., (matchhere_iff re _).2 ?_⟩
      exact ⟨w, post, rfl, hw, hpost⟩

end Xv6.Grep
