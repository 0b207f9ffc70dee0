import Xv6.Bio.Cache
import Xv6.Lib.Sum
import Mathlib.Data.List.Pairwise
import Mathlib.Data.Fintype.Card

/-!
# Coherence of the buffer cache

At every point of a run the list holds every buffer once, no block is in two buffers, and a buffer
that is held has the contents that were marked last for its block.

No buffer is for two blocks at a time, but several may be for one: after `binit` all of them are for
block 0 of device 0. The list keeps them apart. Of two buffers for one block the later in the list
has never been used for it (`Inv.order`): `bget` searches from the front, and `brelse` moves a buffer
that has been used to the front.
-/

namespace Xv6

open Function (update update_of_ne update_self)

open Run

/-- The buffer is not in use, and nothing is known of its contents. -/
structure Buf.Unused {β : Type} (b : Buf β) : Prop where
  refcnt : b.refcnt = 0
  valid : b.valid = false
  dirty : b.dirty = false

def Buf.InUse {β : Type} (b : Buf β) : Prop := 0 < b.refcnt ∨ b.valid = true ∨ b.dirty = true

theorem Buf.InUse.not_unused {β : Type} {b : Buf β} (h : b.InUse) : ¬ b.Unused := by
  rintro ⟨hrefcnt, hvalid, hdirty⟩
  rcases h with h | h | h
  · omega
  · rw [hvalid] at h
    cases h
  · rw [hdirty] at h
    cases h

namespace BufUse

variable {N : ℕ} {β : Type}

def on (b : Fin N) (w : BufUse N) : ℕ := if w.at?.map Prod.fst = some b then 1 else 0

def Ok (buf : Fin N → Buf β) : BufUse N → Prop
  | idle => True
  | waiting b x => (buf b).id = x
  | reading b x => (buf b).id = x ∧ (buf b).valid = false ∧ (buf b).dirty = false
  | holding b x => (buf b).id = x ∧ (buf b).valid = true
  | writing b x => (buf b).id = x ∧ (buf b).valid = true
  | releasing b x => (buf b).id = x

theorem Ok.id {w : BufUse N} {buf : Fin N → Buf β} {b : Fin N} {x : BlockId} (h : w.Ok buf)
    (hw : w.at? = some (b, x)) : (buf b).id = x := by
  cases w with
  | idle => cases hw
  | waiting b' x' | releasing b' x' =>
    cases hw
    exact h
  | reading b' x' | holding b' x' | writing b' x' =>
    cases hw
    exact h.1

theorem of_busy {w : BufUse N} {b : Fin N} {x : BlockId} (h : w = .reading b x ∨ w = .writing b x) :
    w.at? = some (b, x) ∧ w.holdsLock = true := by
  rcases h with rfl | rfl
  · exact ⟨rfl, rfl⟩
  · exact ⟨rfl, rfl⟩

theorem Ok.congr {w : BufUse N} {buf buf' : Fin N → Buf β} (h : w.Ok buf)
    (hbuf : ∀ b x, w.at? = some (b, x) → (buf' b).id = (buf b).id ∧
      (buf' b).valid = (buf b).valid ∧ (buf' b).dirty = (buf b).dirty) : w.Ok buf' := by
  cases w with
  | idle => trivial
  | waiting b x | releasing b x | reading b x | holding b x | writing b x =>
    obtain ⟨hid, hvalid, hdirty⟩ := hbuf b x rfl
    simp only [Ok, hid, hvalid, hdirty]
    exact h

theorem Ok.of_id {w : BufUse N} {buf buf' : Fin N → Buf β} (h : w.Ok buf)
    (hlock : w.holdsLock = false) (hid : ∀ b x, w.at? = some (b, x) → (buf' b).id = (buf b).id) :
    w.Ok buf' := by
  cases w with
  | idle => trivial
  | waiting b x | releasing b x => exact (hid b x rfl).trans h
  | reading b x | holding b x | writing b x => cases hlock

end BufUse

namespace Bcache

variable {N : ℕ} {β : Type} (c : Bcache N β) {b d : Fin N} (x : Buf β)

@[simp] theorem setBuf_self : (c.setBuf b x).buf b = x := by simp only [setBuf, update_self]

theorem setBuf_of_ne (h : d ≠ b) : (c.setBuf b x).buf d = c.buf d := by
  simp only [setBuf, update_of_ne h]

end Bcache

namespace BufSys

variable {N : ℕ} {ι β : Type} [DecidableEq ι] [Fintype ι] {s s' : BufSys N ι β}
  {c : BlockId → β} {l : List (Fin N)}

/-- The invariant: `l` is the list of the buffers, and `c` are the contents of the blocks. -/
structure Inv (s : BufSys N ι β) (c : BlockId → β) (l : List (Fin N)) : Prop where
  list : s.cache.links.IsList l
  all : ∀ b, b ∈ l
  order : l.Pairwise fun b d => (s.cache.buf b).id = (s.cache.buf d).id → (s.cache.buf d).Unused
  refcnt : ∀ b, (s.cache.buf b).refcnt = ∑ u, (s.use u).on b
  locked : ∀ u b x, (s.use u).holdsLock = true → (s.use u).at? = some (b, x) →
    (s.cache.buf b).locked = true
  owner : ∀ u v b x y, (s.use u).holdsLock = true → (s.use v).holdsLock = true →
    (s.use u).at? = some (b, x) → (s.use v).at? = some (b, y) → u = v
  use : ∀ u, (s.use u).Ok s.cache.buf
  dirty : ∀ b, (s.cache.buf b).dirty = true → (s.cache.buf b).valid = true
  data : ∀ b, (s.cache.buf b).valid = true → (s.cache.buf b).data = c (s.cache.buf b).id
  disk : ∀ x, (∀ b, (s.cache.buf b).id = x → (s.cache.buf b).dirty = false) → s.disk x = c x

omit [DecidableEq ι] in
theorem Inv.unique (h : s.Inv c l) {b d : Fin N} (hb : (s.cache.buf b).InUse)
    (hd : (s.cache.buf d).InUse) (hid : (s.cache.buf b).id = (s.cache.buf d).id) : b = d := by
  by_contra hne
  obtain ⟨l₁, l₂, rfl⟩ := List.append_of_mem (h.all b)
  obtain ⟨-, hsecond, hcross⟩ := List.pairwise_append.1 h.order
  rcases List.mem_append.1 (h.all d) with hmem | hmem
  · exact hb.not_unused (hcross d hmem b List.mem_cons_self hid.symm)
  · rcases List.mem_cons.1 hmem with rfl | hmem
    · exact hne rfl
    · exact hd.not_unused ((List.pairwise_cons.1 hsecond).1 d hmem hid)

omit [DecidableEq ι] in
theorem Inv.refcnt_pos (h : s.Inv c l) {u : ι} {b : Fin N} {x : BlockId}
    (hu : (s.use u).at? = some (b, x)) : 0 < (s.cache.buf b).refcnt := by
  have hone : (s.use u).on b = 1 := by
    rw [BufUse.on, hu]
    exact if_pos rfl
  have hle : (s.use u).on b ≤ ∑ v, (s.use v).on b :=
    Finset.single_le_sum (f := fun v => (s.use v).on b) (fun _ _ => Nat.zero_le _)
      (Finset.mem_univ u)
  rw [h.refcnt]
  omega

omit [DecidableEq ι] in
theorem Inv.inUse (h : s.Inv c l) {u : ι} {b : Fin N} {x : BlockId}
    (hu : (s.use u).at? = some (b, x)) : (s.cache.buf b).InUse :=
  .inl (h.refcnt_pos hu)

omit [DecidableEq ι] in
theorem Inv.unused_of_ne (h : s.Inv c l) {b d : Fin N} (hb : (s.cache.buf b).InUse) (hne : d ≠ b)
    (hid : (s.cache.buf d).id = (s.cache.buf b).id) : (s.cache.buf d).Unused := by
  have hnot : ¬ (s.cache.buf d).InUse := fun hd => hne (h.unique hd hb hid)
  rw [Buf.InUse, not_or, not_or] at hnot
  obtain ⟨hrefcnt, hvalid, hdirty⟩ := hnot
  exact ⟨Nat.eq_zero_of_not_pos hrefcnt, Bool.eq_false_iff.2 hvalid, Bool.eq_false_iff.2 hdirty⟩

omit [DecidableEq ι] in
theorem Inv.alone (h : s.Inv c l) {u : ι} {b : Fin N} {x : BlockId}
    (hu : (s.use u).at? = some (b, x)) (hlock : (s.use u).holdsLock = true) (v : ι) (hv : v ≠ u)
    (hvlock : (s.use v).holdsLock = true) (y : BlockId) : (s.use v).at? ≠ some (b, y) :=
  fun hat => hv (h.owner v u b y x hvlock hlock hat hu)

omit [DecidableEq ι] in
theorem Inv.alone_of_free (h : s.Inv c l) {b : Fin N} (hfree : (s.cache.buf b).locked = false) (v : ι)
    (hvlock : (s.use v).holdsLock = true) (y : BlockId) : (s.use v).at? ≠ some (b, y) := by
  intro hat
  rw [h.locked v b y hvlock hat] at hfree
  cases hfree

def replace (s : BufSys N ι β) (b : Fin N) (B : Buf β) (u : ι) (w : BufUse N) (L : Links (Fin N))
    (disk : BlockId → β) : BufSys N ι β :=
  { s with
    cache := { s.cache.setBuf b B with links := L }
    use := update s.use u w
    disk := disk }

theorem Inv.replace {u : ι} {b : Fin N} {B : Buf β} {w : BufUse N} {L : Links (Fin N)}
    {c' disk' : BlockId → β} {l' : List (Fin N)} (h : s.Inv c l) (hlist : L.IsList l')
    (hall : ∀ d, d ∈ l')
    (horder : l'.Pairwise fun d e => ((s.cache.setBuf b B).buf d).id =
      ((s.cache.setBuf b B).buf e).id → ((s.cache.setBuf b B).buf e).Unused)
    (hrefcnt : B.refcnt + (s.use u).on b = (s.cache.buf b).refcnt + w.on b)
    (hon : ∀ d, d ≠ b → (s.use u).on d = w.on d)
    (hothers : ∀ v, v ≠ u → ∀ y, (s.use v).at? = some (b, y) →
      (s.use v).Ok (s.cache.setBuf b B).buf ∧
        ((s.use v).holdsLock = true → B.locked = true ∧ w.holdsLock = false))
    (hwb : ∀ d y, w.holdsLock = true → w.at? = some (d, y) → d = b ∧ B.locked = true)
    (hok : w.Ok (s.cache.setBuf b B).buf)
    (hdirty : B.dirty = true → B.valid = true) (hdata : B.valid = true → B.data = c' B.id)
    (hsame : ∀ d, d ≠ b → (s.cache.buf d).valid = true →
      c' (s.cache.buf d).id = c (s.cache.buf d).id)
    (hdisk : ∀ y, (∀ d, ((s.cache.setBuf b B).buf d).id = y →
      ((s.cache.setBuf b B).buf d).dirty = false) → disk' y = c' y) :
    (s.replace b B u w L disk').Inv c' l' := by
  have hself : (s.cache.setBuf b B).buf b = B := s.cache.setBuf_self B
  have hother : ∀ d, d ≠ b → (s.cache.setBuf b B).buf d = s.cache.buf d :=
    fun d hd => s.cache.setBuf_of_ne B hd
  have huse : ∀ v, v ≠ u → (s.replace b B u w L disk').use v = s.use v :=
    fun v hv => update_of_ne hv ..
  have huse_self : (s.replace b B u w L disk').use u = w := update_self ..
  refine ⟨hlist, hall, horder, fun d => ?_, fun v d y hlock hat => ?_,
    fun v v' d y y' hlock hlock' hat hat' => ?_, fun v => ?_, fun d => ?_, fun d => ?_, hdisk⟩
  · show ((s.cache.setBuf b B).buf d).refcnt = ∑ v, (update s.use u w v).on d
    have hsum := sum_update (BufUse.on d) s.use u w
    have hold := h.refcnt d
    by_cases hd : d = b
    · rw [hd] at hsum hold ⊢
      rw [hself]
      omega
    · rw [hother d hd]
      have := hon d hd
      omega
  · show ((s.cache.setBuf b B).buf d).locked = true
    by_cases hv : v = u
    · rw [hv, huse_self] at hlock hat
      obtain ⟨rfl, hB⟩ := hwb d y hlock hat
      rw [hself]
      exact hB
    · rw [huse v hv] at hlock hat
      by_cases hd : d = b
      · rw [hd] at hat ⊢
        rw [hself]
        exact ((hothers v hv y hat).2 hlock).1
      · rw [hother d hd]
        exact h.locked v d y hlock hat
  · -- One of two that hold a lock is not `u`, and does not hold that of `b`.
    by_cases hv : v = u
    · by_cases hv' : v' = u
      · rw [hv, hv']
      · rw [hv, huse_self] at hlock hat
        rw [huse v' hv'] at hlock' hat'
        rw [(hwb d y hlock hat).1] at hat'
        rw [((hothers v' hv' y' hat').2 hlock').2] at hlock
        cases hlock
    · rw [huse v hv] at hlock hat
      by_cases hv' : v' = u
      · rw [hv', huse_self] at hlock' hat'
        rw [(hwb d y' hlock' hat').1] at hat
        rw [((hothers v hv y hat).2 hlock).2] at hlock'
        cases hlock'
      · rw [huse v' hv'] at hlock' hat'
        exact h.owner v v' d y y' hlock hlock' hat hat'
  · show ((s.replace b B u w L disk').use v).Ok (s.cache.setBuf b B).buf
    by_cases hv : v = u
    · rw [hv, huse_self]
      exact hok
    · rw [huse v hv]
      by_cases hat : ∃ y, (s.use v).at? = some (b, y)
      · obtain ⟨y, hat⟩ := hat
        exact (hothers v hv y hat).1
      · refine (h.use v).congr fun d y hd => ?_
        rw [hother d fun hdb => hat ⟨y, hdb ▸ hd⟩]
        exact ⟨rfl, rfl, rfl⟩
  · show ((s.cache.setBuf b B).buf d).dirty = true → ((s.cache.setBuf b B).buf d).valid = true
    by_cases hd : d = b
    · rw [hd, hself]
      exact hdirty
    · rw [hother d hd]
      exact h.dirty d
  · show ((s.cache.setBuf b B).buf d).valid = true →
      ((s.cache.setBuf b B).buf d).data = c' ((s.cache.setBuf b B).buf d).id
    by_cases hd : d = b
    · rw [hd, hself]
      exact hdata
    · rw [hother d hd]
      intro hvalid
      rw [hsame d hd hvalid]
      exact h.data d hvalid

theorem Inv.touch {u : ι} {b : Fin N} {x : BlockId} {B : Buf β} {w : BufUse N}
    {c' disk' : BlockId → β} (h : s.Inv c l) (hu : (s.use u).at? = some (b, x))
    (hw : w.at? = some (b, x)) (hid : B.id = (s.cache.buf b).id)
    (hrefcnt : B.refcnt = (s.cache.buf b).refcnt)
    (halone : ∀ v, v ≠ u → (s.use v).holdsLock = true → ∀ y, (s.use v).at? ≠ some (b, y))
    (hlocked : w.holdsLock = true → B.locked = true) (hok : w.Ok (s.cache.setBuf b B).buf)
    (hdirty : B.dirty = true → B.valid = true) (hdata : B.valid = true → B.data = c' x)
    (hdisk : B.dirty = false → disk' x = c' x)
    (hc : ∀ y, y ≠ x → c' y = c y ∧ disk' y = s.disk y) :
    (s.replace b B u w s.cache.links disk').Inv c' l := by
  have hx : (s.cache.buf b).id = x := (h.use u).id hu
  have hself : (s.cache.setBuf b B).buf b = B := s.cache.setBuf_self B
  have hother : ∀ d, d ≠ b → (s.cache.setBuf b B).buf d = s.cache.buf d :=
    fun d hd => s.cache.setBuf_of_ne B hd
  have hids : ∀ d, ((s.cache.setBuf b B).buf d).id = (s.cache.buf d).id := by
    intro d
    by_cases hd : d = b
    · rw [hd, hself, hid]
    · rw [hother d hd]
  have hon : ∀ d, (s.use u).on d = w.on d := fun d => by rw [BufUse.on, BufUse.on, hw, hu]
  refine h.replace h.list h.all (h.order.imp fun {d e} hde heq => ?_) (by rw [hrefcnt, hon])
    (fun d _ => hon d) (fun v hv y hat => ?_) (fun d y hlock hat => ?_) hok hdirty ?_
    (fun d hd hvalid => ?_) fun y hy => ?_
  · -- The buffer itself is not unused before.
    have hunused := hde ((hids d).symm.trans (heq.trans (hids e)))
    by_cases he : e = b
    · rw [he] at hunused
      exact absurd hunused (h.inUse hu).not_unused
    · rw [hother e he]
      exact hunused
  · have hlock : (s.use v).holdsLock = false := by
      by_contra htrue
      exact halone v hv (Bool.eq_true_of_not_eq_false htrue) y hat
    refine ⟨(h.use v).of_id hlock fun d _ _ => hids d, fun htrue => ?_⟩
    rw [hlock] at htrue
    cases htrue
  · rw [hw] at hat
    exact ⟨(Prod.mk.inj (Option.some.inj hat)).1.symm, hlocked hlock⟩
  · rw [hid, hx]
    exact hdata
  · -- Another buffer that is valid is for another block.
    refine (hc _ fun heq => ?_).1
    have hunused := h.unused_of_ne (h.inUse hu) hd (heq.trans hx.symm)
    rw [hunused.valid] at hvalid
    cases hvalid
  · by_cases hyx : y = x
    · rw [hyx]
      have hb := hy b ((hids b).trans (hx.trans hyx.symm))
      rw [hself] at hb
      exact hdisk hb
    · rw [(hc y hyx).1, (hc y hyx).2]
      refine h.disk y fun d hd => ?_
      have hdb : d ≠ b := by
        rintro rfl
        exact hyx (hd.symm.trans hx)
      have hdirty' := hy d ((hids d).trans hd)
      rwa [hother d hdb] at hdirty'

/-! ## `bget` and `brelse` -/

/-- What `bget` finds. -/
inductive Found (s : BufSys N ι β) (x : BlockId) (l : List (Fin N)) :
    Option (Fin N × Bcache N β) → Prop
  | hit {b : Fin N} {l₁ l₂ : List (Fin N)} : l = l₁ ++ b :: l₂ → (s.cache.buf b).id = x →
      (∀ d ∈ l₁, (s.cache.buf d).id ≠ x) → Found s x l (some (b, s.cache.setBuf b
        { s.cache.buf b with refcnt := (s.cache.buf b).refcnt + 1 }))
  | recycled {b : Fin N} : (∀ d, (s.cache.buf d).id ≠ x) → (s.cache.buf b).refcnt = 0 →
      (s.cache.buf b).dirty = false → Found s x l (some (b, s.cache.setBuf b
        { s.cache.buf b with
          dev := x.dev
          blockno := x.blockno
          valid := false
          dirty := false
          refcnt := 1 }))
  | panics : (∀ d, (s.cache.buf d).id ≠ x) →
      (∀ d, (s.cache.buf d).refcnt ≠ 0 ∨ (s.cache.buf d).dirty = true) → Found s x l none

omit [DecidableEq ι] in
theorem Inv.bget (h : s.Inv c l) (x : BlockId) : ∃ r, s.cache.bget x = some r ∧ Found s x l r := by
  have hfuel : l.length < N + 1 := by
    have hle := h.list.nodup.length_le_card
    rw [Fintype.card_fin] at hle
    omega
  rw [Bcache.bget, h.list.walk_next _ hfuel, h.list.walk_prev _ hfuel]
  cases hfind : l.find? fun b => decide ((s.cache.buf b).id = x) with
  | some b =>
    obtain ⟨hid, l₁, l₂, hl, hfirst⟩ := List.find?_eq_some_iff_append.1 hfind
    refine ⟨_, rfl, .hit hl (of_decide_eq_true hid) fun d hd => ?_⟩
    simpa using hfirst d hd
  | none =>
    have hmiss : ∀ d, (s.cache.buf d).id ≠ x := fun d => by
      simpa using List.find?_eq_none.1 hfind d (h.all d)
    cases hfree : l.reverse.find? fun b => decide ((s.cache.buf b).refcnt = 0 ∧
        (s.cache.buf b).dirty = false) with
    | some b =>
      have hb := List.find?_some hfree
      obtain ⟨hrefcnt, hdirty⟩ := of_decide_eq_true hb
      exact ⟨_, rfl, .recycled hmiss hrefcnt hdirty⟩
    | none =>
      refine ⟨_, rfl, .panics hmiss fun d => ?_⟩
      have hd := List.find?_eq_none.1 hfree d (List.mem_reverse.2 (h.all d))
      rw [decide_eq_true_eq, not_and_or] at hd
      simpa using hd

omit [DecidableEq ι] in
theorem Inv.not_at (h : s.Inv c l) {b : Fin N} (hb : (s.cache.buf b).refcnt = 0) (v : ι)
    (y : BlockId) : (s.use v).at? ≠ some (b, y) := by
  intro hat
  have hzero : ∑ u, (s.use u).on b = 0 := (h.refcnt b).symm.trans hb
  have hv := Finset.sum_eq_zero_iff.1 hzero v (Finset.mem_univ v)
  rw [BufUse.on, hat] at hv
  exact absurd hv (by simp)

theorem Inv.recount {u : ι} {b : Fin N} {n : ℕ} {w : BufUse N} {L : Links (Fin N)}
    {l' : List (Fin N)} (h : s.Inv c l) (hlist : L.IsList l') (hall : ∀ d, d ∈ l')
    (horder : l'.Pairwise fun d e => (s.cache.buf d).id = (s.cache.buf e).id →
      (s.cache.buf e).Unused ∧ e ≠ b)
    (hn : n + (s.use u).on b = (s.cache.buf b).refcnt + w.on b)
    (hon : ∀ d, d ≠ b → (s.use u).on d = w.on d) (hlock : w.holdsLock = false)
    (hok : w.Ok s.cache.buf) :
    (s.replace b { s.cache.buf b with refcnt := n } u w L s.disk).Inv c l' := by
  obtain ⟨B, hB⟩ : ∃ B, B = { s.cache.buf b with refcnt := n } := ⟨_, rfl⟩
  rw [← hB]
  have hother : ∀ d, d ≠ b → (s.cache.setBuf b B).buf d = s.cache.buf d :=
    fun d hd => s.cache.setBuf_of_ne B hd
  have hflags : ∀ d, ((s.cache.setBuf b B).buf d).id = (s.cache.buf d).id ∧
      ((s.cache.setBuf b B).buf d).valid = (s.cache.buf d).valid ∧
      ((s.cache.setBuf b B).buf d).dirty = (s.cache.buf d).dirty := by
    intro d
    by_cases hd : d = b
    · rw [hd, s.cache.setBuf_self B, hB]
      exact ⟨rfl, rfl, rfl⟩
    · rw [hother d hd]
      exact ⟨rfl, rfl, rfl⟩
  refine h.replace hlist hall (horder.imp fun {d e} hde heq => ?_) (by rw [hB]; exact hn) hon
    (fun v _ y hat => ⟨(h.use v).congr fun d _ _ => hflags d, fun hv => ⟨?_, hlock⟩⟩)
    (fun d y hw => ?_) (hok.congr fun d _ _ => hflags d) ?_ ?_ (fun d _ _ => rfl) fun y hy => ?_
  · obtain ⟨hunused, hne⟩ := hde ((hflags d).1.symm.trans (heq.trans (hflags e).1))
    rw [hother e hne]
    exact hunused
  · rw [hB]
    exact h.locked v b y hv hat
  · rw [hlock] at hw
    cases hw
  · rw [hB]
    exact h.dirty b
  · rw [hB]
    exact h.data b
  · refine h.disk y fun d hd => ?_
    rw [← (hflags d).2.2]
    exact hy d ((hflags d).1.trans hd)

theorem Inv.hit {u : ι} {b : Fin N} {x : BlockId} {l₁ l₂ : List (Fin N)} (h : s.Inv c l)
    (hu : s.use u = .idle) (hl : l = l₁ ++ b :: l₂) (hx : (s.cache.buf b).id = x)
    (hfirst : ∀ d ∈ l₁, (s.cache.buf d).id ≠ x) :
    (s.replace b { s.cache.buf b with refcnt := (s.cache.buf b).refcnt + 1 } u (.waiting b x)
      s.cache.links s.disk).Inv c l := by
  have hon : ∀ d, (s.use u).on d = 0 := fun d => by rw [hu]; rfl
  refine h.recount h.list h.all ?_ ?_ (fun d hd => ?_) rfl hx
  · -- All buffers for the block are after `b`.
    have horder := h.order.and h.list.nodup
    rw [hl, List.pairwise_append, List.pairwise_cons] at horder ⊢
    obtain ⟨hl₁, ⟨hb, hl₂⟩, hcross⟩ := horder
    have hmem : ∀ d e, (((s.cache.buf d).id = (s.cache.buf e).id → (s.cache.buf e).Unused) ∧ d ≠ e) →
        e ≠ b → (s.cache.buf d).id = (s.cache.buf e).id → (s.cache.buf e).Unused ∧ e ≠ b :=
      fun d e hde he heq => ⟨hde.1 heq, he⟩
    have hnot₁ : ∀ e ∈ l₁, e ≠ b := by
      rintro e he rfl
      exact hfirst e he hx
    have hnot₂ : ∀ e ∈ l₂, e ≠ b := fun e he => (hb e he).2.symm
    refine ⟨hl₁.imp_of_mem fun {d e} _ he hde => hmem d e hde (hnot₁ e he),
      ⟨fun e he => hmem b e (hb e he) (hnot₂ e he),
        hl₂.imp_of_mem fun {d e} _ he hde => hmem d e hde (hnot₂ e he)⟩, fun d hd e he => ?_⟩
    rcases List.mem_cons.1 he with rfl | he'
    · exact fun heq => absurd (heq.trans hx) (hfirst d hd)
    · exact hmem d e (hcross d hd e he) (hnot₂ e he')
  · rw [hon, show (BufUse.waiting b x).on b = 1 from if_pos rfl]
  · rw [hon]
    exact (if_neg fun heq => hd (Option.some.inj heq).symm).symm

theorem Inv.recycled {u : ι} {b : Fin N} {x : BlockId} (h : s.Inv c l) (hu : s.use u = .idle)
    (hmiss : ∀ d, (s.cache.buf d).id ≠ x) (hrefcnt : (s.cache.buf b).refcnt = 0)
    (hclean : (s.cache.buf b).dirty = false) :
    (s.replace b
      { s.cache.buf b with
        dev := x.dev
        blockno := x.blockno
        valid := false
        dirty := false
        refcnt := 1 } u (.waiting b x) s.cache.links s.disk).Inv c l := by
  obtain ⟨B, hB⟩ : ∃ B : Buf β, B =
      { s.cache.buf b with
        dev := x.dev
        blockno := x.blockno
        valid := false
        dirty := false
        refcnt := 1 } := ⟨_, rfl⟩
  rw [← hB]
  have hself : (s.cache.setBuf b B).buf b = B := s.cache.setBuf_self B
  have hother : ∀ d, d ≠ b → (s.cache.setBuf b B).buf d = s.cache.buf d :=
    fun d hd => s.cache.setBuf_of_ne B hd
  have hid : B.id = x := by
    rw [hB]
    rfl
  have hon : ∀ d, (s.use u).on d = 0 := fun d => by rw [hu]; rfl
  refine h.replace h.list h.all ((h.order.and h.list.nodup).imp fun {d e} hde heq => ?_) ?_
    (fun d hd => ?_) (fun v _ y hat => absurd hat (h.not_at hrefcnt v y)) (fun d y hw => by cases hw)
    ?_ ?_ ?_ (fun d _ _ => rfl) fun y hy => ?_
  · -- No other buffer is for the block.
    by_cases hd : d = b
    · have he : e ≠ b := fun he => hde.2 (hd.trans he.symm)
      rw [hd, hself, hid, hother e he] at heq
      exact absurd heq.symm (hmiss e)
    · by_cases he : e = b
      · rw [he, hself, hid, hother d hd] at heq
        exact absurd heq (hmiss d)
      · rw [hother d hd, hother e he] at heq
        rw [hother e he]
        exact hde.1 heq
  · rw [hon, hrefcnt, hB, show (BufUse.waiting b x).on b = 1 from if_pos rfl]
  · rw [hon]
    exact (if_neg fun heq => hd (Option.some.inj heq).symm).symm
  · show ((s.cache.setBuf b B).buf b).id = x
    rw [hself, hid]
  · rw [hB]
    exact nofun
  · rw [hB]
    exact nofun
  · -- The buffer was not dirty, so that the disk has what it held.
    refine h.disk y fun d hd => ?_
    by_cases hdb : d = b
    · rw [hdb]
      exact hclean
    · have hdirty := hy d
      rw [hother d hdb] at hdirty
      exact hdirty hd

theorem Inv.brelse {u : ι} {b : Fin N} {x : BlockId} (h : s.Inv c l)
    (hu : s.use u = .releasing b x) :
    ∃ l', Inv { s with cache := s.cache.brelse b, use := update s.use u .idle } c l' := by
  have hat : (s.use u).at? = some (b, x) := by
    rw [hu]
    rfl
  have hinUse := h.inUse hat
  have hpos := h.refcnt_pos hat
  have hone : (s.use u).on b = 1 := by
    rw [BufUse.on, hat]
    exact if_pos rfl
  have hzero : ∀ d, d ≠ b → (s.use u).on d = BufUse.idle.on d := by
    intro d hd
    rw [BufUse.on, hat]
    exact if_neg fun heq => hd (Option.some.inj heq).symm
  have hidle : BufUse.idle.on b = 0 := rfl
  -- Where a buffer has to be unused it is not this one.
  have hother : ∀ d e, ((s.cache.buf d).id = (s.cache.buf e).id → (s.cache.buf e).Unused) →
      (s.cache.buf d).id = (s.cache.buf e).id → (s.cache.buf e).Unused ∧ e ≠ b := by
    intro d e hde heq
    refine ⟨hde heq, ?_⟩
    rintro rfl
    exact hinUse.not_unused (hde heq)
  have hself : (s.cache.setBuf b { s.cache.buf b with refcnt := (s.cache.buf b).refcnt - 1 }).buf b =
      { s.cache.buf b with refcnt := (s.cache.buf b).refcnt - 1 } := s.cache.setBuf_self _
  rw [Bcache.brelse]
  simp only [hself]
  split
  · obtain ⟨l₁, l₂, rfl⟩ := List.append_of_mem (h.all b)
    have hnodup := h.list.nodup
    have hnot : b ∉ l₁ ++ l₂ := by
      rw [List.nodup_append, List.nodup_cons] at hnodup
      obtain ⟨-, ⟨hb₂, -⟩, hdisj⟩ := hnodup
      intro hmem
      rcases List.mem_append.1 hmem with hb₁ | hmem
      · exact hdisj b hb₁ b List.mem_cons_self rfl
      · exact hb₂ hmem
    have hsub : List.Sublist (l₁ ++ l₂) (l₁ ++ b :: l₂) :=
      (List.Sublist.refl l₁).append (List.sublist_cons_self b l₂)
    refine ⟨b :: (l₁ ++ l₂), h.recount (h.list.unlink.pushFront hnot) (fun d => ?_) ?_ ?_ hzero rfl
      trivial⟩
    · have hd := h.all d
      rw [List.mem_append, List.mem_cons] at hd
      rw [List.mem_cons, List.mem_append]
      tauto
    · refine List.pairwise_cons.2 ⟨fun e he heq => ?_, (h.order.sublist hsub).imp fun {d e} => hother d e⟩
      have hne : e ≠ b := by
        rintro rfl
        exact hnot he
      exact ⟨h.unused_of_ne hinUse hne heq.symm, hne⟩
    · omega
  · refine ⟨l, h.recount h.list h.all (h.order.imp fun {d e} => hother d e) ?_ hzero rfl trivial⟩
    omega

/-! ## Steps -/

/-- What a step does. -/
inductive Stepped (s : BufSys N ι β) : BufEvent ι β → BufSys N ι β → Prop
  | found {u : ι} {x : BlockId} {b : Fin N} {c : Bcache N β} : s.use u = .idle →
      s.cache.bget x = some (some (b, c)) →
      Stepped s (.bread u x) { s with cache := c, use := update s.use u (.waiting b x) }
  | panics {u : ι} {x : BlockId} : s.use u = .idle → s.cache.bget x = some none →
      Stepped s (.bread u x) { s with panicked := true }
  | acquires {u : ι} {b : Fin N} {x : BlockId} : s.use u = .waiting b x →
      (s.cache.buf b).locked = false →
      Stepped s (.acquiresleep u) (s.replace b { s.cache.buf b with locked := true } u
        (if (s.cache.buf b).valid then .holding b x else .reading b x) s.cache.links s.disk)
  | reads {u : ι} {b : Fin N} {x : BlockId} : s.use u = .reading b x ∨ s.use u = .writing b x →
      (s.cache.buf b).dirty = false →
      Stepped s (.ideintr u) (s.replace b
        { s.cache.buf b with data := s.disk (s.cache.buf b).id, valid := true, dirty := false } u
        (.holding b x) s.cache.links s.disk)
  | writes {u : ι} {b : Fin N} {x : BlockId} : s.use u = .reading b x ∨ s.use u = .writing b x →
      (s.cache.buf b).dirty = true →
      Stepped s (.ideintr u) (s.replace b { s.cache.buf b with valid := true, dirty := false } u
        (.holding b x) s.cache.links
        (update s.disk (s.cache.buf b).id (s.cache.buf b).data))
  | bwrite {u : ι} {b : Fin N} {x : BlockId} {data : β} : s.use u = .holding b x →
      Stepped s (.bwrite u data) (s.replace b
        { s.cache.buf b with data := data, dirty := true } u (.writing b x) s.cache.links s.disk)
  | logWrite {u : ι} {b : Fin N} {x : BlockId} {data : β} : s.use u = .holding b x →
      Stepped s (.logWrite u data) (s.replace b
        { s.cache.buf b with data := data, dirty := true } u (.holding b x) s.cache.links s.disk)
  | releases {u : ι} {b : Fin N} {x : BlockId} : s.use u = .holding b x →
      Stepped s (.releasesleep u) (s.replace b { s.cache.buf b with locked := false } u
        (.releasing b x) s.cache.links s.disk)
  | brelse {u : ι} {b : Fin N} {x : BlockId} : s.use u = .releasing b x →
      Stepped s (.brelse u)
        { s with cache := s.cache.brelse b, use := update s.use u .idle }

omit [Fintype ι] in
theorem stepped_of_step {e : BufEvent ι β} (hs : s.step e s') : s.Stepped e s' := by
  replace hs : s.next e = some s' := hs.2
  cases e with
  | bread u x =>
    simp only [next] at hs
    split at hs
    · rename_i hu
      split at hs
      · rename_i b c hget
        cases hs
        exact .found hu hget
      · rename_i hget
        cases hs
        exact .panics hu hget
      · cases hs
    · cases hs
  | acquiresleep u =>
    simp only [next] at hs
    split at hs
    · rename_i b x hu
      split at hs
      · cases hs
      · rename_i hfree
        cases hs
        exact .acquires hu (Bool.eq_false_iff.2 hfree)
    · cases hs
  | ideintr u =>
    -- The two requests are served alike.
    have hserved : ∀ b x, s.use u = .reading b x ∨ s.use u = .writing b x →
        (if (s.cache.buf b).dirty = true then
          { s.put b { s.cache.buf b with
              data := if (s.cache.buf b).dirty = true then (s.cache.buf b).data
                else s.disk (s.cache.buf b).id
              valid := true
              dirty := false } u (.holding b x) with
            disk := update s.disk (s.cache.buf b).id (s.cache.buf b).data }
        else s.put b { s.cache.buf b with
              data := if (s.cache.buf b).dirty = true then (s.cache.buf b).data
                else s.disk (s.cache.buf b).id
              valid := true
              dirty := false } u (.holding b x)) = s' → s.Stepped (.ideintr u) s' := by
      rintro b x hu rfl
      cases hdirty : (s.cache.buf b).dirty with
      | true => exact .writes hu hdirty
      | false => exact .reads hu hdirty
    simp only [next] at hs
    split at hs
    · rename_i b x hu
      exact hserved b x (.inl hu) (Option.some.inj hs)
    · rename_i b x hu
      exact hserved b x (.inr hu) (Option.some.inj hs)
    · cases hs
  | bwrite u data =>
    simp only [next] at hs
    split at hs
    · rename_i b x hu
      cases hs
      exact .bwrite hu
    · cases hs
  | logWrite u data =>
    simp only [next] at hs
    split at hs
    · rename_i b x hu
      cases hs
      exact .logWrite hu
    · cases hs
  | releasesleep u =>
    simp only [next] at hs
    split at hs
    · rename_i b x hu
      cases hs
      exact .releases hu
    · cases hs
  | brelse u =>
    simp only [next] at hs
    split at hs
    · rename_i b x hu
      cases hs
      exact .brelse hu
    · cases hs

omit [DecidableEq ι] in
theorem Inv.disk_eq (h : s.Inv c l) {u : ι} {b : Fin N} {x : BlockId}
    (hat : (s.use u).at? = some (b, x)) (hclean : (s.cache.buf b).dirty = false) :
    s.disk x = c x := by
  have hx := (h.use u).id hat
  refine h.disk x fun d hd => ?_
  by_cases hdb : d = b
  · rw [hdb]
    exact hclean
  · -- No other buffer for the block is dirty either.
    exact (h.unused_of_ne (h.inUse hat) hdb (hd.trans hx.symm)).dirty

theorem Inv.acquires {u : ι} {b : Fin N} {x : BlockId} (h : s.Inv c l)
    (hu : s.use u = .waiting b x) (hfree : (s.cache.buf b).locked = false) :
    (s.replace b { s.cache.buf b with locked := true } u
      (if (s.cache.buf b).valid then .holding b x else .reading b x) s.cache.links s.disk).Inv c l := by
  have hat : (s.use u).at? = some (b, x) := by
    rw [hu]
    rfl
  have hx : (s.cache.buf b).id = x := (h.use u).id hat
  have hself : (s.cache.setBuf b { s.cache.buf b with locked := true }).buf b =
      { s.cache.buf b with locked := true } := s.cache.setBuf_self _
  have hclean : (s.cache.buf b).valid = false → (s.cache.buf b).dirty = false := by
    intro hvalid
    refine Bool.eq_false_iff.2 fun hdirty => ?_
    rw [h.dirty b hdirty] at hvalid
    cases hvalid
  refine h.touch hat ?_ rfl rfl (fun v _ => h.alone_of_free hfree v) (fun _ => rfl) ?_ (h.dirty b)
    (fun hvalid => hx ▸ h.data b hvalid) (h.disk_eq hat) fun _ _ => ⟨rfl, rfl⟩
  · split
    · rfl
    · rfl
  · split
    · rename_i hvalid
      rw [BufUse.Ok, hself]
      exact ⟨hx, hvalid⟩
    · rename_i hvalid
      rw [BufUse.Ok, hself]
      exact ⟨hx, Bool.eq_false_iff.2 hvalid, hclean (Bool.eq_false_iff.2 hvalid)⟩

theorem Inv.reads {u : ι} {b : Fin N} {x : BlockId} (h : s.Inv c l)
    (hu : s.use u = .reading b x ∨ s.use u = .writing b x)
    (hclean : (s.cache.buf b).dirty = false) :
    (s.replace b
      { s.cache.buf b with data := s.disk (s.cache.buf b).id, valid := true, dirty := false } u
      (.holding b x) s.cache.links s.disk).Inv c l := by
  obtain ⟨hat, hlock⟩ := BufUse.of_busy hu
  have hx : (s.cache.buf b).id = x := (h.use u).id hat
  refine h.touch hat rfl rfl rfl (h.alone hat hlock) (fun _ => h.locked u b x hlock hat) ?_
    (fun _ => rfl) (fun _ => ?_) (fun _ => h.disk_eq hat hclean) fun _ _ => ⟨rfl, rfl⟩
  · rw [BufUse.Ok, s.cache.setBuf_self]
    exact ⟨hx, rfl⟩
  · show s.disk (s.cache.buf b).id = c x
    rw [hx]
    exact h.disk_eq hat hclean

theorem Inv.writes {u : ι} {b : Fin N} {x : BlockId} (h : s.Inv c l)
    (hu : s.use u = .reading b x ∨ s.use u = .writing b x)
    (hdirty : (s.cache.buf b).dirty = true) :
    (s.replace b { s.cache.buf b with valid := true, dirty := false } u (.holding b x) s.cache.links
      (update s.disk (s.cache.buf b).id (s.cache.buf b).data)).Inv c l := by
  obtain ⟨hat, hlock⟩ := BufUse.of_busy hu
  have hx : (s.cache.buf b).id = x := (h.use u).id hat
  have hdata : (s.cache.buf b).data = c x := hx ▸ h.data b (h.dirty b hdirty)
  refine h.touch hat rfl rfl rfl (h.alone hat hlock) (fun _ => h.locked u b x hlock hat) ?_
    (fun _ => rfl) (fun _ => hdata) (fun _ => ?_) fun y hy => ⟨rfl, ?_⟩
  · rw [BufUse.Ok, s.cache.setBuf_self]
    exact ⟨hx, rfl⟩
  · rw [hx, update_self, hdata]
  · rw [hx, update_of_ne hy]

theorem Inv.marks {u : ι} {b : Fin N} {x : BlockId} {w : BufUse N} (h : s.Inv c l)
    (hu : s.use u = .holding b x) (hw : w = .holding b x ∨ w = .writing b x) (data : β) :
    (s.replace b { s.cache.buf b with data := data, dirty := true } u w s.cache.links s.disk).Inv
      (update c x data) l := by
  have hat : (s.use u).at? = some (b, x) := by
    rw [hu]
    rfl
  have hlock : (s.use u).holdsLock = true := by
    rw [hu]
    rfl
  have hx : (s.cache.buf b).id = x := (h.use u).id hat
  have hvalid : (s.cache.buf b).valid = true := by
    have hok := h.use u
    rw [hu] at hok
    exact hok.2
  have hself := s.cache.setBuf_self (b := b) { s.cache.buf b with data := data, dirty := true }
  refine h.touch hat ?_ rfl rfl (h.alone hat hlock) (fun _ => h.locked u b x hlock hat) ?_
    (fun _ => hvalid) (fun _ => ?_) nofun fun y hy => ⟨update_of_ne hy .., rfl⟩
  · rcases hw with rfl | rfl
    · rfl
    · rfl
  · rcases hw with rfl | rfl
    · rw [BufUse.Ok, hself]
      exact ⟨hx, hvalid⟩
    · rw [BufUse.Ok, hself]
      exact ⟨hx, hvalid⟩
  · rw [update_self]

theorem Inv.releases {u : ι} {b : Fin N} {x : BlockId} (h : s.Inv c l)
    (hu : s.use u = .holding b x) :
    (s.replace b { s.cache.buf b with locked := false } u (.releasing b x) s.cache.links
      s.disk).Inv c l := by
  have hat : (s.use u).at? = some (b, x) := by
    rw [hu]
    rfl
  have hlock : (s.use u).holdsLock = true := by
    rw [hu]
    rfl
  have hx : (s.cache.buf b).id = x := (h.use u).id hat
  refine h.touch hat rfl rfl rfl (h.alone hat hlock) nofun ?_ (h.dirty b)
    (fun hvalid => hx ▸ h.data b hvalid) (h.disk_eq hat) fun _ _ => ⟨rfl, rfl⟩
  rw [BufUse.Ok, s.cache.setBuf_self]
  exact hx

theorem Inv.step {e : BufEvent ι β} (h : s.Inv c l) (hs : s.step e s') :
    ∃ l', s'.Inv (mark c (s.marks e)) l' := by
  cases stepped_of_step hs with
  | found hu hget =>
    rename_i u x b c'
    obtain ⟨r, hr, hfound⟩ := h.bget x
    cases hget.symm.trans hr
    cases hfound with
    | hit hl hx hfirst => exact ⟨l, h.hit hu hl hx hfirst⟩
    | recycled hmiss hrefcnt hclean => exact ⟨l, h.recycled hu hmiss hrefcnt hclean⟩
  | panics hu hget =>
    exact ⟨l, h.list, h.all, h.order, h.refcnt, h.locked, h.owner, h.use, h.dirty, h.data, h.disk⟩
  | acquires hu hfree => exact ⟨l, h.acquires hu hfree⟩
  | reads hu hclean => exact ⟨l, h.reads hu hclean⟩
  | writes hu hdirty => exact ⟨l, h.writes hu hdirty⟩
  | bwrite hu =>
    rename_i u b x data
    have hmark : s.marks (.bwrite u data) = some (x, data) := by
      rw [BufSys.marks, hu]
      rfl
    rw [hmark]
    exact ⟨l, h.marks hu (.inr rfl) data⟩
  | logWrite hu =>
    rename_i u b x data
    have hmark : s.marks (.logWrite u data) = some (x, data) := by
      rw [BufSys.marks, hu]
      rfl
    rw [hmark]
    exact ⟨l, h.marks hu (.inl rfl) data⟩
  | releases hu => exact ⟨l, h.releases hu⟩
  | brelse hu => exact h.brelse hu

theorem Inv.id_eq {e : BufEvent ι β} {b : Fin N} (h : s.Inv c l) (hs : s.step e s')
    (hne : (s'.cache.buf b).id ≠ (s.cache.buf b).id) :
    (s.cache.buf b).refcnt = 0 ∧ (s.cache.buf b).dirty = false := by
  -- A buffer that keeps its block when it changes.
  have hkeeps : ∀ {d : Fin N} {B : Buf β}, B.id = (s.cache.buf d).id →
      ((s.cache.setBuf d B).buf b).id = (s.cache.buf b).id := by
    intro d B hid
    by_cases hd : b = d
    · rw [hd, s.cache.setBuf_self, hid]
    · rw [s.cache.setBuf_of_ne _ hd]
  cases stepped_of_step hs with
  | found hu hget =>
    rename_i u x d c'
    obtain ⟨r, hr, hfound⟩ := h.bget x
    cases hget.symm.trans hr
    cases hfound with
    | hit hl hx hfirst => exact (hne (hkeeps rfl)).elim
    | recycled hmiss hrefcnt hclean =>
      by_cases hd : b = d
      · rw [hd]
        exact ⟨hrefcnt, hclean⟩
      · refine absurd ?_ hne
        simp only [s.cache.setBuf_of_ne _ hd]
  | panics => exact absurd rfl hne
  | acquires | reads | writes | bwrite | logWrite | releases => exact (hne (hkeeps rfl)).elim
  | brelse hu =>
    refine absurd ?_ hne
    simp only [Bcache.brelse]
    split
    · exact hkeeps rfl
    · exact hkeeps rfl

/-! ## Runs -/

theorem isList_foldl_pushFront {L : Links (Fin N)} {l : List (Fin N)} (h : L.IsList l)
    (bs : List (Fin N)) (hbs : bs.Nodup) (hdisj : ∀ b ∈ bs, b ∉ l) :
    (bs.foldl (fun L b => L.pushFront b) L).IsList (bs.reverse ++ l) := by
  induction bs generalizing L l with
  | nil => exact h
  | cons b bs ih =>
    obtain ⟨hb, hbs⟩ := List.nodup_cons.1 hbs
    rw [List.foldl_cons, List.reverse_cons, List.append_assoc]
    refine ih (h.pushFront (hdisj b List.mem_cons_self)) hbs fun d hd => ?_
    intro hmem
    rcases List.mem_cons.1 hmem with rfl | hmem
    · exact hb hd
    · exact hdisj d (List.mem_cons_of_mem b hd) hmem

omit [DecidableEq ι] in
theorem boot_inv (data : Fin N → β) (links : Links (Fin N)) (disk : BlockId → β) :
    (boot data links disk : BufSys N ι β).Inv disk (List.finRange N).reverse := by
  have hlist := isList_foldl_pushFront links.isList_clear (List.finRange N) (List.nodup_finRange N)
    fun _ _ => List.not_mem_nil
  rw [List.append_nil] at hlist
  refine ⟨hlist, fun b => List.mem_reverse.2 (List.mem_finRange b), ?_, fun b => ?_, nofun, nofun,
    fun _ => trivial, nofun, nofun, fun _ _ => rfl⟩
  · exact List.pairwise_of_forall fun _ _ _ => ⟨rfl, rfl, rfl⟩
  · exact (Finset.sum_eq_zero fun _ _ => rfl).symm

/-- What the cache is for, at a point of a run. -/
structure Coherent (s₀ : BufSys N ι β) (π : List (BufEvent ι β × BufSys N ι β)) : Prop where
  /-- The list holds every buffer once. -/
  list : ∃ l, (last s₀ π).cache.links.IsList l ∧ ∀ b, b ∈ l
  inverse : ∀ x, (last s₀ π).cache.links.prev ((last s₀ π).cache.links.next x) = x ∧
    (last s₀ π).cache.links.next ((last s₀ π).cache.links.prev x) = x
  /-- The loops of `bget` end. -/
  ends : ∀ x, (last s₀ π).cache.bget x ≠ none
  /-- No two buffers that are in use, valid or dirty are for the same block. -/
  unique : ∀ b d, ((last s₀ π).cache.buf b).InUse → ((last s₀ π).cache.buf d).InUse →
    ((last s₀ π).cache.buf b).id = ((last s₀ π).cache.buf d).id → b = d
  /-- A buffer that is in use or dirty is not given to another block. -/
  kept : ∀ e s π', π = (e, s) :: π' → ∀ b,
    0 < ((last s₀ π').cache.buf b).refcnt ∨ ((last s₀ π').cache.buf b).dirty = true →
    (s.cache.buf b).id = ((last s₀ π').cache.buf b).id
  /-- A buffer that `bread` has returned is for the block, and has the contents marked last. -/
  bread : ∀ u b x, (last s₀ π).use u = .holding b x →
    ((last s₀ π).cache.buf b).id = x ∧ ((last s₀ π).cache.buf b).data = contents s₀ π x

/-- The buffer cache is coherent, for any number of buffers and uses. -/
theorem coherent_along_run {data : Fin N → β} {links : Links (Fin N)} {disk : BlockId → β}
    {π : List (BufEvent ι β × BufSys N ι β)} (h : IsRun step (boot data links disk) π) :
    Along (Coherent (boot data links disk)) π := by
  have hinv : ∀ π, IsRun step (boot data links disk : BufSys N ι β) π →
      ∃ l, (last (boot data links disk) π).Inv (contents (boot data links disk) π) l := by
    intro π hπ
    induction π with
    | nil => exact ⟨_, boot_inv data links disk⟩
    | cons x π ih =>
      obtain ⟨l, hl⟩ := ih hπ.2
      exact hl.step hπ.1
  have hall : ∀ π, IsRun step (boot data links disk : BufSys N ι β) π →
      Coherent (boot data links disk) π := by
    intro π hπ
    obtain ⟨l, hl⟩ := hinv π hπ
    refine ⟨⟨l, hl.list, hl.all⟩, hl.list.inverse hl.all, fun x hx => ?_, fun b d => hl.unique, ?_,
      fun u b x hu => ?_⟩
    · obtain ⟨r, hr, -⟩ := hl.bget x
      rw [hr] at hx
      cases hx
    · rintro e s π' rfl b hb
      obtain ⟨l', hl'⟩ := hinv π' hπ.2
      by_contra hne
      obtain ⟨hrefcnt, hclean⟩ := hl'.id_eq hπ.1 hne
      rcases hb with hb | hb
      · omega
      · rw [hclean] at hb
        cases hb
    · have hok := hl.use u
      rw [hu] at hok
      obtain ⟨hid, hvalid⟩ := hok
      exact ⟨hid, hid ▸ hl.data b hvalid⟩
  refine (h.along (P := fun π => IsRun step (boot data links disk) π) trivial ?_).mono hall
  exact fun e s π hπ _ hstep => ⟨hstep, hπ⟩

/-- Two buffers: one use logs a block and lets go of it, another reads a block into the other buffer,
and a third use of the first block finds what was logged. -/
theorem coherent_along_run_logged :
    ∃ π : List (BufEvent Bool ℕ × BufSys 2 Bool ℕ),
      IsRun step (boot (fun _ => 0) ⟨id, id⟩ fun _ => 0) π ∧
      contents (boot (fun _ => 0) ⟨id, id⟩ fun _ => 0) π ⟨1, 5⟩ = 7 ∧
      (∃ b, (last (boot (fun _ => 0) ⟨id, id⟩ fun _ => 0) π).use true = .holding b ⟨1, 5⟩) ∧
      Along (Coherent (boot (fun _ => 0) ⟨id, id⟩ fun _ => 0)) π := by
  have heval : (history (tick fun s e => if s.panicked = false then s.next e
        else none) (boot (fun _ => 0) ⟨id, id⟩ fun _ => 0) []
      [.bread true ⟨1, 5⟩, .acquiresleep true, .ideintr true, .logWrite true 7, .releasesleep true,
        .brelse true, .bread false ⟨1, 6⟩, .acquiresleep false, .ideintr false, .bread true ⟨1, 5⟩,
        .acquiresleep true]).map (fun π =>
          (contents (boot (fun _ => 0) ⟨id, id⟩ fun _ => 0) π ⟨1, 5⟩,
            (last (boot (fun _ => 0) ⟨id, id⟩ fun _ => 0) π).use true)) =
      some (7, (.holding ⟨0, Nat.two_pos⟩ ⟨1, 5⟩ : BufUse 2)) := by
    decide +kernel
  obtain ⟨π, hrun, heq⟩ := exists_run_tick_if heval
  obtain ⟨hcontents, huse⟩ := Prod.mk.inj heq
  exact ⟨π, hrun, hcontents, ⟨_, huse⟩, coherent_along_run hrun⟩

end BufSys

end Xv6
