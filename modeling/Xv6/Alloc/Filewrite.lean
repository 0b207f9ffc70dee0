import Xv6.Alloc.ReadWrite

/-!
# `filewrite` in several transactions

`filewrite` cuts what it writes into chunks, each of them a `writei` in a transaction of its own, and
small enough for the log. If the array that the file is can be written to as a whole, and there are
blocks for it, then the chunks together do that. If not, the chunks up to the one that `writei`
refuses stay written, though the result is -1: the call is all or nothing only if the first chunk is
the one refused.
-/

namespace Xv6.Alloc

open Function
open Fs (BSIZE MAXFILE Itype)

variable {n : ℕ} {ι : Type} {sb : Super} {s s' : Store n ι} {p : ι} {f : ℕ} {i : Fin n}
  {a src : List Byte} {off : ℕ}

section Wp

variable [DecidableEq ι] [Fintype ι] {D : String → Store n ι → Prop}

/-- `ilock` has made a copy of the inode, which process `p` holds. -/
structure Ilocked (p : ι) (i : Fin n) (s s' : Store n ι) : Prop where
  files : SameFiles s s'
  valid : s'.valid i = true
  lock : s'.lock = update s.lock i (some p)
  trans : s'.trans = s.trans
  lh : s'.lh = s.lh
  off : s'.off = s.off

omit [Fintype ι] [DecidableEq ι] in
theorem sameFiles_load (hv : s.valid i ≠ true) :
    SameFiles s ((s.setMem i (s.disk i)).setValid i true) := by
  refine ⟨rfl, rfl, fun j => ?_⟩
  by_cases hj : j = i
  · subst hj
    simp [Store.cur, Store.setMem, Store.setValid, hv]
  · simp [Store.cur, Store.setMem, Store.setValid, update_of_ne hj]

theorem Op.perform_acquiresleep_of_none (h : s.lock i = none) :
    (Op.acquiresleep i).perform sb p s = some ((), s.setLock i (some p)) := by
  unfold Op.perform
  dsimp only
  rw [h]

theorem ilock_ends {Q : Unit → Store n ι → Prop} (hlock : s.lock i = none)
    (hty : (s.cur i).type ≠ .free) (hQ : ∀ s', Ilocked p i s s' → Q () s') :
    Ends sb p D (ilock i) Q s := by
  unfold ilock
  refine Task.wp_bind.2 (call_ends (Op.perform_acquiresleep_of_none hlock) ?_)
  by_cases hv : s.valid i = true
  · exact Task.wp_bind.2 (call_ends (if_pos hv)
      (hQ _ ⟨⟨rfl, rfl, fun _ => rfl⟩, hv, rfl, rfl, rfl, rfl⟩))
  · have hdisk : (s.disk i).type ≠ .free := by
      rwa [Store.cur, if_neg hv] at hty
    have hfiles := sameFiles_load (s := s.setLock i (some p)) hv
    exact Task.wp_bind.2 (call_ends ((if_neg hv).trans (if_pos hdisk))
      (hQ _ ⟨⟨rfl, rfl, hfiles.cur⟩, update_self .., rfl, rfl, rfl, rfl⟩))

/-! ## A chunk -/

/-- File `f` is at offset `off` of the regular file that inode `i` is and that nobody has locked; its
bytes are `a`. Nobody is in a transaction. -/
structure FileAt (sb : Super) (f : ℕ) (i : Fin n) (a : List Byte) (off : ℕ) (s : Store n ι) :
    Prop where
  sane : Sane sb s
  lock : s.lock i = none
  type : (s.cur i).type = .file
  content : Content s i a
  off : s.off f = off
  idle : ∀ q, s.trans q = false
  lh : s.lh = ∅

omit [DecidableEq ι] [Fintype ι] in
theorem SameFiles.spent {P : Finset Place} (h : SameFiles s s') (hs : Sane sb s) :
    Spent sb i P s s' := .of_ref hs h.bits (by rw [h.cur, h.blk])

/-- The inode is locked and in memory, in the transaction of a chunk. -/
structure Started (p : ι) (i : Fin n) (s s' : Store n ι) : Prop where
  files : SameFiles s s'
  valid : s'.valid i = true
  trans : s'.trans = update s.trans p true
  lh : s'.lh = s.lh
  off : s'.off = s.off

/-- The end of a chunk. -/
def chunkEnd (f : ℕ) (i : Fin n) (r : Option ℕ) : Sys n (Option ℕ) := do
  match r with
  | some (r + 1) => call (.addOff f (r + 1))
  | _ => pure ()
  call (.releasesleep i)
  call .endOp
  return r

theorem filewriteChunk_starts {Q : Option ℕ → Store n ι → Prop} (h : FileAt sb f i a off s)
    (hQ : ∀ s₁, Started p i s s₁ →
      Ends sb p D (writei sb i src off) (fun r s₂ => Ends sb p D (chunkEnd f i r) Q s₂) s₁) :
    Ends sb p D (filewriteChunk sb f i src) Q s := by
  have hty : (s.cur i).type ≠ .free := by
    rw [h.type]
    nofun
  unfold filewriteChunk
  refine Task.wp_bind.2 (call_ends rfl (Task.wp_bind.2 (ilock_ends h.lock hty fun s₁ h₁ => ?_)))
  refine Task.wp_bind.2 (call_ends rfl (Task.wp_bind.2 ?_))
  rw [(congrFun h₁.off f).trans h.off]
  exact hQ s₁ ⟨⟨h₁.files.bits, h₁.files.blk, h₁.files.cur⟩, h₁.valid, h₁.trans, h₁.lh, h₁.off⟩

theorem chunkEnd_ends {Q : Option ℕ → Store n ι → Prop} {r : Option ℕ} (hidle : ∀ q, s.trans q = false)
    (htrans : s'.trans = update s.trans p true) (hsane : Sane sb s')
    (htype : (s'.cur i).type = .file) (hcontent : Content s' i a)
    (hQ : ∀ s'', SameFiles s' s'' → FileAt sb f i a (s'.off f + r.getD 0) s'' → Q r s'') :
    Ends sb p D (chunkEnd f i r) Q s' := by
  have hclear : ∀ q, update s'.trans p false q = false := by
    intro q
    by_cases hq : q = p
    · rw [hq, update_self]
    · rw [update_of_ne hq, htrans, update_of_ne hq]
      exact hidle q
  have hlast : ¬ ∃ q, q ≠ p ∧ s'.trans q = true := by
    rintro ⟨q, hq, hon⟩
    have := hclear q
    rw [update_of_ne hq, hon] at this
    cases this
  -- The offset is moved or not, and then the two cases are the same.
  have hrest : ∀ s₁ : Store n ι, SameFiles s' s₁ → s₁.trans = s'.trans →
      s₁.off f = s'.off f + r.getD 0 →
      Ends sb p D (do
        call (.releasesleep i)
        call .endOp
        return r) Q s₁ := by
    intro s₁ hfiles ht hoff
    refine Task.wp_bind.2 (call_ends rfl (Task.wp_bind.2 (call_ends rfl (hQ _ ?_ ?_))))
    · exact ⟨hfiles.bits, hfiles.blk, hfiles.cur⟩
    · have hsame : SameFiles s₁ { s₁ with
          lock := update s₁.lock i none
          trans := update s₁.trans p false
          lh := if ∃ q, q ≠ p ∧ s₁.trans q = true then s₁.lh else ∅ } := ⟨rfl, rfl, fun _ => rfl⟩
      refine ⟨hsame.sane (hfiles.sane hsane), update_self .., ?_,
        hsame.content (hfiles.content hcontent), hoff, ?_, ?_⟩
      · exact (congrArg Dinode.type (hfiles.cur i)).trans htype
      · exact ht ▸ hclear
      · exact if_neg (ht ▸ hlast)
  unfold chunkEnd
  rcases r with _ | _ | r
  · exact Task.wp_bind.2 (hrest s' ⟨rfl, rfl, fun _ => rfl⟩ rfl rfl)
  · exact Task.wp_bind.2 (hrest s' ⟨rfl, rfl, fun _ => rfl⟩ rfl rfl)
  · exact Task.wp_bind.2 (call_ends rfl (hrest _ ⟨rfl, rfl, fun _ => rfl⟩ rfl
      (update_self ..)))

theorem filewriteChunk_ends_of_none {Q : Option ℕ → Store n ι → Prop} (h : FileAt sb f i a off s)
    (hoff : off < 4294967296) (hlen : src.length < 4294967296)
    (hnone : arrayWrite a src off = none) (hQ : ∀ s', FileAt sb f i a off s' → Q none s') :
    Ends sb p D (filewriteChunk sb f i src) Q s := by
  refine filewriteChunk_starts h fun s₁ h₁ => ?_
  have hty : (s₁.cur i).type = .file := by rw [h₁.files.cur, h.type]
  have hcontent := h₁.files.content h.content
  refine writei_ends_of_none h₁.valid (by rw [← cur_of_valid h₁.valid, hty]; nofun) hcontent hoff hlen
    hnone (chunkEnd_ends h.idle h₁.trans (h₁.files.sane h.sane) hty hcontent fun s' _ hs' => hQ s' ?_)
  rwa [h₁.off, h.off] at hs'

theorem filewriteChunk_ends {Q : Option ℕ → Store n ι → Prop} {a' : List Byte}
    (hlog : 11 ≤ sb.logMax) (h : FileAt sb f i a off s) (hlen : src.length ≤ maxChunk)
    (hsome : arrayWrite a src off = some a')
    (hD : (s.unmarked sb).card < (s.lacking i (places off src.length)).card → MayRunOut sb D)
    (hQ : ∀ s', FileAt sb f i a' (off + src.length) s' →
      Spent sb i (places off src.length) s s' → s'.lacking i (places off src.length) = ∅ →
      Q (some src.length) s') :
    Ends sb p D (filewriteChunk sb f i src) Q s := by
  refine filewriteChunk_starts h fun s₁ h₁ => ?_
  have hsane := h₁.files.sane h.sane
  have hspent₁ : Spent sb i (places off src.length) s s₁ := h₁.files.spent h.sane
  have hmem : (s₁.mem i).type = .file := by
    rw [← cur_of_valid h₁.valid, h₁.files.cur]
    exact h.type
  have ht₁ : s₁.trans p = true := by
    rw [h₁.trans]
    exact update_self ..
  refine writei_ends hsane h₁.valid (by rw [hmem]; nofun) (by rw [hmem]; nofun) ht₁
    (h₁.files.content h.content) hsome ((writeUse_le (h₁.lh.trans h.lh) hlen).trans hlog)
    (fun hfew => hD (hspent₁.lt_of_lt (subset_refl _) hfew)) fun s₂ h₂ hspent₂ hlack => ?_
  have hv₂ : s₂.valid i = true := by rw [h₂.valid, h₁.valid]
  refine chunkEnd_ends h.idle (h₂.trans.trans h₁.trans) h₂.sane
    (by rw [cur_of_valid hv₂, h₂.type, hmem]) h₂.content fun s₃ hfiles hs₃ => hQ s₃ ?_ ?_ ?_
  · rwa [h₂.off, h₁.off, h.off] at hs₃
  · exact (hspent₁.trans hspent₂).trans (hfiles.spent h₂.sane)
  · rw [← hlack]
    exact Store.lacking_congr (by rw [hfiles.cur, hfiles.blk])

/-! ## The loop -/

theorem arrayWrite_append {xs ys b : List Byte} (h : arrayWrite a xs off = some b) :
    arrayWrite b ys (off + xs.length) = arrayWrite a (xs ++ ys) off := by
  obtain ⟨hoff, -, rfl⟩ := arrayWrite_eq_some.1 h
  have htake : (a.take off).length = off := by rw [List.length_take, Nat.min_eq_left hoff]
  have hfst : (a.take off ++ xs).length = off + xs.length := by rw [List.length_append, htake]
  refine Option.ext fun c => ?_
  have hboth : off + (xs ++ ys).length = off + xs.length + ys.length := by
    rw [List.length_append, Nat.add_assoc]
  rw [arrayWrite_eq_some, arrayWrite_eq_some, hboth]
  have hle : off + xs.length ≤ (a.take off ++ xs ++ a.drop (off + xs.length)).length := by
    rw [List.length_append, hfst]
    omega
  have hkeep : (a.take off ++ xs ++ a.drop (off + xs.length)).take (off + xs.length) =
      a.take off ++ xs := List.take_left' hfst
  have hrest : (a.take off ++ xs ++ a.drop (off + xs.length)).drop (off + xs.length + ys.length) =
      a.drop (off + xs.length + ys.length) := by
    rw [← hfst, List.drop_length_add_append, List.drop_drop, hfst]
  rw [hkeep, hrest, ← List.append_assoc (a.take off)]
  exact ⟨fun hc => ⟨hoff, hc.2⟩, fun hc => ⟨hle, hc.2⟩⟩

omit [DecidableEq ι] [Fintype ι] in
theorem drop_length_take (m : ℕ) : src.drop (src.take m).length = src.drop m := by
  rw [List.length_take]
  rcases Nat.le_total m src.length with hle | hle
  · rw [Nat.min_eq_left hle]
  · rw [Nat.min_eq_right hle, List.drop_length, List.drop_of_length_le hle]

theorem filewriteLoop_ends {a' : List Byte} (hlog : 11 ≤ sb.logMax) (fuel : ℕ) :
    ∀ {s : Store n ι} {a src : List Byte} {off : ℕ}, FileAt sb f i a off s → src.length ≤ fuel →
      arrayWrite a src off = some a' →
      ((s.unmarked sb).card < (s.lacking i (places off src.length)).card → MayRunOut sb D) →
      Ends sb p D (filewriteLoop sb f i fuel src)
        (fun r s' => r = true ∧ FileAt sb f i a' (off + src.length) s' ∧
          (s.lacking i (places off src.length)).card ≤ (s.unmarked sb).card) s := by
  have hend : ∀ {s : Store n ι} {a : List Byte} {off : ℕ}, FileAt sb f i a off s →
      arrayWrite a [] off = some a' → FileAt sb f i a' (off + 0) s ∧
        (s.lacking i (places off 0)).card ≤ (s.unmarked sb).card := by
    intro s a off h hsome
    obtain ⟨-, -, rfl⟩ := arrayWrite_eq_some.1 hsome
    rw [List.append_nil, List.length_nil, Nat.add_zero, List.take_append_drop, places,
      blocksOf_zero]
    exact ⟨h, Nat.zero_le _⟩
  -- The buffer is `a'` less what is still to be written.
  induction fuel with
  | zero =>
    intro s a src off h hfuel hsome hD
    obtain rfl : src = [] := List.eq_nil_of_length_eq_zero (Nat.le_zero.1 hfuel)
    exact ⟨rfl, hend h hsome⟩
  | succ fuel ih =>
    intro s a src off h hfuel hsome hD
    unfold filewriteLoop
    by_cases h0 : src = []
    · subst h0
      rw [if_pos rfl]
      exact ⟨rfl, hend h hsome⟩
    · rw [if_neg h0]
      obtain ⟨hoff, hfits, -⟩ := arrayWrite_eq_some.1 hsome
      have hlen : (src.take maxChunk).length = min maxChunk src.length := List.length_take
      have hmax : maxChunk = 1536 := rfl
      have hpos : src.length ≠ 0 := fun h => h0 (List.eq_nil_of_length_eq_zero h)
      obtain ⟨b, hb⟩ : ∃ b, arrayWrite a (src.take maxChunk) off = some b :=
        ⟨_, arrayWrite_eq_some.2 ⟨hoff, by omega, rfl⟩⟩
      have hplaces := places_add off (src.take maxChunk).length (src.drop maxChunk).length
      have hsplit : (src.take maxChunk).length + (src.drop maxChunk).length = src.length := by
        rw [← List.length_append, List.take_append_drop]
      rw [hsplit] at hplaces
      have hsub : places off (src.take maxChunk).length ⊆ places off src.length := by
        rw [hplaces]
        exact Finset.subset_union_left
      refine Task.wp_bind.2 (filewriteChunk_ends hlog h (by omega) hb (fun hfew => hD ?_)
        fun s₁ h₁ hspent hlack => ?_)
      · exact hfew.trans_le (Finset.card_le_card (Finset.filter_subset_filter _ hsub))
      dsimp only
      rw [panicUnless, if_pos rfl, drop_length_take]
      have hrest : arrayWrite b (src.drop maxChunk) (off + (src.take maxChunk).length) =
          some a' := by
        rw [arrayWrite_append hb, List.take_append_drop]
        exact hsome
      -- What is lacking after the chunk is lacking for the rest.
      have hlack₁ : s₁.lacking i (places off src.length) =
          s₁.lacking i (places (off + (src.take maxChunk).length) (src.drop maxChunk).length) := by
        rw [hplaces, Store.lacking_union, hlack, Finset.empty_union]
      have hcount := hspent.count _ hsub
      rw [hlack₁] at hcount
      refine Task.Wp.mono (ih h₁ (by omega) hrest fun hfew => hD (by omega)) ?_
      rintro r s' ⟨hr, hs', hle⟩
      rw [Nat.add_assoc, hsplit] at hs'
      exact ⟨hr, hs', by omega⟩

theorem filewriteLoop_ends_of_none {fuel : ℕ} (h : FileAt sb f i a off s) (hoff : off < 4294967296)
    (hne : src ≠ []) (hnone : arrayWrite a (src.take maxChunk) off = none) :
    Ends sb p D (filewriteLoop sb f i (fuel + 1) src)
      (fun r s' => r = false ∧ FileAt sb f i a off s') s := by
  unfold filewriteLoop
  rw [if_neg hne]
  have hlen : (src.take maxChunk).length ≤ maxChunk := List.length_take_le ..
  have hmax : maxChunk = 1536 := rfl
  refine Task.wp_bind.2 (filewriteChunk_ends_of_none h hoff (by omega) hnone fun s₁ h₁ => ?_)
  exact ⟨rfl, h₁⟩

theorem filewriteLoop_ends_of_long (hlog : 11 ≤ sb.logMax) (fuel : ℕ) :
    ∀ {s : Store n ι} {a src : List Byte} {off : ℕ}, FileAt sb f i a off s → src.length ≤ fuel →
      off ≤ MAXFILE * BSIZE → MAXFILE * BSIZE < off + src.length →
      Ends sb p (fun _ _ => True) (filewriteLoop sb f i fuel src) (fun r s' => r = false ∧
        off ≤ s'.off f ∧ (arrayWrite a (src.take maxChunk) off ≠ none → off < s'.off f)) s := by
  have hbig : MAXFILE * BSIZE = 71680 := rfl
  have hmax : maxChunk = 1536 := rfl
  induction fuel with
  | zero =>
    intro s a src off h hfuel hoff hlong
    omega
  | succ fuel ih =>
    intro s a src off h hfuel hoff hlong
    have hne : src ≠ [] := by
      rintro rfl
      rw [List.length_nil] at hlong
      omega
    have hlen : (src.take maxChunk).length = min maxChunk src.length := List.length_take
    cases hchunk : arrayWrite a (src.take maxChunk) off with
    | none =>
      refine (filewriteLoop_ends_of_none h (by omega) hne hchunk).mono ?_
      rintro r s' ⟨rfl, hs'⟩
      exact ⟨rfl, hs'.off.ge, fun hsome => absurd rfl hsome⟩
    | some b =>
      obtain ⟨-, hfits, -⟩ := arrayWrite_eq_some.1 hchunk
      unfold filewriteLoop
      rw [if_neg hne]
      refine Task.wp_bind.2 (filewriteChunk_ends hlog h (by omega) hchunk
        (fun _ _ _ _ => trivial) fun s₁ h₁ _ _ => ?_)
      dsimp only
      rw [panicUnless, if_pos rfl, drop_length_take]
      refine Task.Wp.mono (ih h₁ (by rw [List.length_drop]; omega) (by omega)
        (by rw [List.length_drop]; omega)) ?_
      rintro r s' ⟨hr, hs', -⟩
      exact ⟨hr, by omega, fun _ => by omega⟩

/-! ## All or nothing -/

def AllOrNothing (sb : Super) (p : ι) (f : ℕ) (i : Fin n) (a : List Byte) (off : ℕ) (src : List Byte)
    (s : Store n ι) : Prop :=
  (∃ s', (filewrite sb f i src).exec (Op.perform sb p) s = some (.inl true, s') ∧
    FileAt sb f i ((arrayWrite a src off).getD a) (off + src.length) s') ∨
  ∃ s', (filewrite sb f i src).exec (Op.perform sb p) s = some (.inl false, s') ∧
    FileAt sb f i a off s'

/-- `filewrite` by a process that nobody interrupts is all or nothing just if there is nothing to
write, or the first chunk is refused, or the end of the buffer is within the largest file and there
are free blocks for all of it. -/
theorem filewrite_all_or_nothing (h : FileAt sb f i a off s) (hoff : off < 4294967296)
    (hlog : 11 ≤ sb.logMax) :
    AllOrNothing sb p f i a off src s ↔
      src = [] ∨ a.length < off ∨ MAXFILE * BSIZE < off + min src.length maxChunk ∨
      off + src.length ≤ MAXFILE * BSIZE ∧
        (s.lacking i (places off src.length)).card ≤ (s.unmarked sb).card := by
  have hmax : maxChunk = 1536 := rfl
  have hbig : MAXFILE * BSIZE = 71680 := rfl
  have hlen : (src.take maxChunk).length = min maxChunk src.length := List.length_take
  by_cases h0 : src = []
  · subst h0
    refine iff_of_true (.inl ⟨s, rfl, ?_⟩) (.inl rfl)
    have hsame : (arrayWrite a [] off).getD a = a := by
      unfold arrayWrite
      split
      · rfl
      · rw [Option.getD_some, List.append_nil, List.length_nil, Nat.add_zero,
          List.take_append_drop]
    rw [hsame]
    exact h
  have hpos : src.length ≠ 0 := fun h => h0 (List.eq_nil_of_length_eq_zero h)
  obtain ⟨m, hm⟩ := Nat.exists_eq_succ_of_ne_zero hpos
  by_cases hfirst : a.length < off ∨ MAXFILE * BSIZE < off + min src.length maxChunk
  · refine iff_of_true (.inr ?_) (.inr (hfirst.imp_right .inl))
    have hnone : arrayWrite a (src.take maxChunk) off = none := by
      rw [arrayWrite, if_pos (by omega)]
    have hend : Ends sb p (fun _ _ => False) (filewrite sb f i src)
        (fun r s' => r = false ∧ FileAt sb f i a off s') s := by
      unfold filewrite
      rw [hm]
      exact filewriteLoop_ends_of_none h hoff h0 hnone
    rcases hend.exec (fun _ => rfl) with ⟨r, s', hexec, rfl, hs'⟩ | ⟨why, s', -, hfalse⟩
    · exact ⟨s', hexec, hs'⟩
    · exact hfalse.elim
  rw [not_or, Nat.not_lt, Nat.not_lt] at hfirst
  rw [or_iff_right h0, or_iff_right (Nat.not_lt.2 hfirst.1), or_iff_right (Nat.not_lt.2 hfirst.2)]
  by_cases hfits : off + src.length ≤ MAXFILE * BSIZE
  · rw [and_iff_right hfits]
    obtain ⟨a', hsome⟩ : ∃ a', arrayWrite a src off = some a' :=
      ⟨_, arrayWrite_eq_some.2 ⟨hfirst.1, hfits, rfl⟩⟩
    have hend := filewriteLoop_ends (f := f) (p := p) hlog src.length h le_rfl hsome
      (D := fun _ _ => (s.unmarked sb).card < (s.lacking i (places off src.length)).card)
      fun hfew _ _ _ => hfew
    rcases hend.exec (fun _ => rfl) with ⟨r, s', hexec, rfl, hs', henough⟩ | ⟨why, s', hexec, hfew⟩
    · refine iff_of_true (.inl ⟨s', hexec, ?_⟩) henough
      rw [hsome]
      exact hs'
    · refine iff_of_false ?_ (Nat.not_le.2 hfew)
      rintro (⟨s'', hexec', -⟩ | ⟨s'', hexec', -⟩)
      · cases hexec.symm.trans hexec'
      · cases hexec.symm.trans hexec'
  · -- The first chunk is written and a later one refused: the offset has moved.
    refine iff_of_false ?_ fun hc => hfits hc.1
    have hchunk : arrayWrite a (src.take maxChunk) off ≠ none := by
      rw [arrayWrite, if_neg (by omega)]
      exact Option.some_ne_none _
    have hend := filewriteLoop_ends_of_long (f := f) (p := p) hlog src.length h le_rfl (by omega)
      (Nat.not_le.1 hfits)
    rcases hend.exec (fun _ => rfl) with ⟨r, s', hexec, rfl, -, hmoved⟩ | ⟨why, s', hexec, -⟩
    · rintro (⟨s'', hexec', -⟩ | ⟨s'', hexec', hs''⟩)
      · cases hexec.symm.trans hexec'
      · cases hexec.symm.trans hexec'
        exact absurd hs''.off (hmoved hchunk).ne'
    · rintro (⟨s'', hexec', -⟩ | ⟨s'', hexec', -⟩)
      · cases hexec.symm.trans hexec'
      · cases hexec.symm.trans hexec'

end Wp

theorem fileAt_oneFile : FileAt eightBlocks 0 0 [0#8, 0#8, 0#8] 0 (oneFile 3) := by
  have hsame : SameFiles openFile (oneFile 3) := ⟨rfl, rfl, fun _ => rfl⟩
  exact ⟨hsame.sane openFile_sane, rfl, rfl, hsame.content openFile_content, rfl, fun _ => rfl, rfl⟩

/-- The first byte of a file is written. -/
theorem filewrite_all_or_nothing_oneFile :
    ∃ s', (filewrite eightBlocks 0 0 [7#8]).exec (Op.perform eightBlocks true) (oneFile 3) =
      some (.inl true, s') ∧ FileAt eightBlocks 0 0 [7#8, 0#8, 0#8] 1 s' := by
  have hfree : ((oneFile 3).lacking 0 (places 0 1)).card ≤ ((oneFile 3).unmarked eightBlocks).card := by
    decide +kernel
  have h := (filewrite_all_or_nothing (p := true) fileAt_oneFile (by decide) (by decide)).2
    (.inr (.inr (.inr ⟨show 0 + [7#8].length ≤ MAXFILE * BSIZE by decide, hfree⟩)))
  rcases h with h | ⟨s', hexec, -⟩
  · exact h
  · have heval : ((filewrite eightBlocks 0 0 [7#8]).exec (Op.perform eightBlocks true)
        (oneFile 3)).map Prod.fst = some (.inl true) := by decide +kernel
    rw [hexec] at heval
    cases heval

/-! ## A later chunk is refused -/

theorem fileAt_largest : FileAt hugeDisk 0 0 (List.replicate 71680 0#8) 70144 largest :=
  ⟨largest_sane, rfl, rfl, largest_content, rfl, fun _ => rfl, rfl⟩

/-- Four blocks are written to it where three fit: the result is -1, but the first chunk of three
blocks is in the file, and the offset has moved past it. -/
theorem filewrite_keeps_first_chunk :
    FileAt hugeDisk 0 0 (List.replicate 71680 0#8) 70144 largest ∧
    ∃ s', (filewrite hugeDisk 0 0 (List.replicate 2048 7#8)).exec (Op.perform hugeDisk true)
        largest = some (.inl false, s') ∧ s'.off 0 = 71680 ∧ s'.At 0 70144 7#8 := by
  refine ⟨fileAt_largest, ?_⟩
  have heval : ((filewrite hugeDisk 0 0 (List.replicate 2048 7#8)).exec
      (Op.perform hugeDisk true) largest).map (fun x => decide (x.1 = .inl false ∧
        x.2.off 0 = 71680 ∧ (x.2.cur 0).addrs NDIRECT = 22 ∧ (x.2.cur 0).type = .file ∧
        (x.2.blk 22).word 125 = 155 ∧ x.2.blk 155 0 = 7#8)) = some true := by decide +kernel
  obtain ⟨⟨r, s'⟩, hexec, htrue⟩ := Option.map_eq_some_iff.1 heval
  obtain ⟨rfl, hoff, hind, hty, hword, hbyte⟩ := of_decide_eq_true htrue
  refine ⟨s', hexec, hoff, 155, ?_, hbyte⟩
  show (s'.cur 0).type ≠ .free ∧ 125 < NINDIRECT ∧ (s'.cur 0).addrs NDIRECT ≠ 0 ∧
    (s'.blk ((s'.cur 0).addrs NDIRECT)).word 125 = 155 ∧ 155 ≠ 0
  rw [hty, hind]
  exact ⟨nofun, by decide, nofun, hword, nofun⟩

end Xv6.Alloc
