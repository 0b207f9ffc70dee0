import Xv6.Alloc.Bitmap

/-!
# Files have no holes

In every run from a file system whose bitmap is exact and whose files have no holes, no file has one
unless a process is at work on it with the inode locked. So `bmap` never allocates when `readi`
calls it, and a read never logs a block, in a transaction or not. The bitmap has to be exact: a
block that is the indirect block of one file and holds contents of another is changed by writes to
the other.
-/

namespace Xv6.Alloc

open Function
open Run (IsRun last)
open Tasks (step calling)

variable {n : ℕ} {ι : Type} {sb : Super} {s₀ : Store n ι}
  {π : List (Tasks.Event ι (Call n) × Tasks (Store n ι) ι (Op n) Op.Answer Unit)}

/-! ## A read does not begin a transaction -/

def Op.Transacts : Op n → Prop
  | .beginOp _ | .inTrans => True
  | _ => False

abbrev Plain {α : Type} (p : Sys n α) : Prop := p.Avoids Op.Transacts

theorem plain_panicUnless {c : Prop} [Decidable c] {why : String} :
    Plain (panicUnless c why : Sys n Unit) := by
  unfold panicUnless
  split <;> trivial

theorem plain_logWrite {b : ℕ} : Plain (logWrite b : Sys n Unit) := by
  unfold logWrite
  refine Task.avoids_bind (Task.avoids_call id) fun _ => Task.avoids_bind plain_panicUnless fun _ => ?_
  exact Task.avoids_bind (Task.avoids_call id) fun _ => plain_panicUnless

theorem plain_ballocFrom (bbs : List ℕ) : Plain (ballocFrom sb bbs : Sys n ℕ) := by
  induction bbs with
  | nil => trivial
  | cons bb bbs ih =>
    unfold ballocFrom
    refine Task.avoids_bind (Task.avoids_call id) fun r => ?_
    cases r with
    | none => exact ih
    | some b =>
      refine Task.avoids_bind plain_logWrite fun _ => ?_
      refine Task.avoids_bind ?_ fun _ => trivial
      exact Task.avoids_bind (Task.avoids_call id) fun _ => plain_logWrite

theorem plain_bmapAddr {i : Fin n} {k : ℕ} : Plain (bmapAddr sb i k) := by
  unfold bmapAddr
  refine Task.avoids_bind (Task.avoids_call id) fun ip => ?_
  split
  · refine Task.avoids_bind (plain_ballocFrom _) fun b => ?_
    exact Task.avoids_bind (Task.avoids_call id) fun _ => trivial
  · trivial

theorem plain_bmap {i : Fin n} {bn : ℕ} : Plain (bmap sb i bn) := by
  unfold bmap
  split
  · exact plain_bmapAddr
  · split
    · refine Task.avoids_bind plain_bmapAddr fun a => ?_
      refine Task.avoids_bind (Task.avoids_call id) fun e => ?_
      split
      · refine Task.avoids_bind (plain_ballocFrom _) fun b => ?_
        refine Task.avoids_bind (Task.avoids_call id) fun _ => ?_
        exact Task.avoids_bind plain_logWrite fun _ => trivial
      · trivial
    · trivial

theorem plain_readLoop {i : Fin n} (fuel : ℕ) : ∀ off left, Plain (readLoop sb i fuel off left) := by
  induction fuel with
  | zero => exact fun _ _ => trivial
  | succ fuel ih =>
    intro off left
    unfold readLoop
    split
    · trivial
    · refine Task.avoids_bind plain_bmap fun b => ?_
      refine Task.avoids_bind (Task.avoids_call id) fun bs => ?_
      exact Task.avoids_bind (ih _ _) fun _ => trivial

theorem plain_readi {i : Fin n} {off len : ℕ} : Plain (prog sb (.readi i off len)) := by
  refine Task.avoids_bind (Task.avoids_call id) fun _ => Task.avoids_bind ?_ fun _ => trivial
  unfold readi
  refine Task.avoids_bind (Task.avoids_call id) fun ip => ?_
  split_ifs
  · trivial
  · trivial
  all_goals exact Task.avoids_bind (plain_readLoop _ _ _) fun _ => trivial

theorem next_writes {g : Ghost n} {o : Op n} {r : o.Answer} (ho : ¬ o.Transacts)
    (h : g.writes = false) : (g.next o r).writes = false := by
  cases o with
  | beginOp pass | inTrans => exact absurd trivial ho
  | endOp => rfl
  | holding i | acquiresleep i | releasesleep i | freeInode i | logFull | logWrite b => exact h
  | load i | valid i =>
    simp only [Ghost.next]
    split <;> exact h
  | inode i | setAddr i k b | setSize i size | setNlink i nlink | iupdate i | ialloc i type | evict i
  | balloc bb | bzero b | bfree place b | word site b k | setWord b k v | copyout b pos m
  | copyin b pos src | off f | addOff f m =>
    simp only [Ghost.next]
    split <;> exact h

/-! ## Runs -/

variable [DecidableEq ι]

def Reads (π : List (Tasks.Event ι (Call n) × Tasks (Store n ι) ι (Op n) Op.Answer Unit))
    (T : Tasks (Store n ι) ι (Op n) Op.Answer Unit) (G : ι → Ghost n) : Prop :=
  ∀ p i off len, calling π p = some (.readi i off len) →
    (G p).writes = false ∧ ∃ t, T.task p = some t ∧ Plain t

variable [Fintype ι]

theorem Reads.step {T T' : Tasks (Store n ι) ι (Op n) Op.Answer Unit} {G G' : ι → Ghost n}
    {e : Tasks.Event ι (Call n)} (h : Reads π T G) (hstep : T.step (machine n ι sb) e T')
    (hmoves : (protocol n).Moves .rest .rest T G e G') : Reads ((e, T') :: π) T' G' := by
  intro p i off len hp
  cases e with
  | start q c =>
    obtain ⟨-, -, -, rfl⟩ := Tasks.start_eq hstep
    obtain rfl : G' = update G q .rest := hmoves
    by_cases hpq : p = q
    · subst hpq
      obtain rfl : c = .readi i off len := Option.some.inj ((if_pos rfl).symm.trans hp)
      rw [update_self]
      exact ⟨rfl, _, update_self .., plain_readi⟩
    · have hp : calling π p = some (.readi i off len) := (if_neg hpq).symm.trans hp
      rw [update_of_ne hpq]
      obtain ⟨hw, t, ht, hplain⟩ := h p i off len hp
      exact ⟨hw, t, (update_of_ne hpq ..).trans ht, hplain⟩
  | run q =>
    obtain ⟨o, k, r, s, -, htask, -, rfl⟩ := Tasks.run_eq hstep
    obtain ⟨o', k', r', htask', -, rfl⟩ := hmoves
    obtain ⟨hw, t, ht, hplain⟩ := h p i off len hp
    by_cases hpq : p = q
    · subst hpq
      rw [update_self]
      obtain rfl : t = .op o' k' := Option.some.inj (ht.symm.trans htask')
      exact ⟨next_writes hplain.1 hw, _, update_self .., by
        obtain ⟨rfl, hk⟩ := Task.op.inj (Option.some.inj (htask'.symm.trans htask))
        exact eq_of_heq hk ▸ hplain.2 r⟩
    · rw [update_of_ne hpq]
      exact ⟨hw, t, (update_of_ne hpq ..).trans ht, hplain⟩
  | done q =>
    obtain ⟨a, -, -, rfl⟩ := Tasks.done_eq hstep
    obtain rfl : G' = update G q .rest := hmoves
    by_cases hpq : p = q
    · cases (if_pos hpq).symm.trans hp
    · have hp : calling π p = some (.readi i off len) := (if_neg hpq).symm.trans hp
      rw [update_of_ne hpq]
      obtain ⟨hw, t, ht, hplain⟩ := h p i off len hp
      exact ⟨hw, t, (update_of_ne hpq ..).trans ht, hplain⟩

/-- From a file system without holes whose bitmap is exact: a file has no hole unless a process is
in a call with the inode locked; a process that reads allocates no block and logs none; and no block
is logged outside of a transaction. -/
theorem whole_of_exact (h₀ : Booted s₀) (hexact : Exact sb s₀) (hwhole : Whole s₀)
    (hrun : IsRun (step (machine n ι sb)) (.idle s₀) π) :
    (∀ i, (∀ p, (last (.idle s₀) π).shared.lock i = some p → (last (.idle s₀) π).task p = none) →
      ((last (.idle s₀) π).shared.cur i).Full (last (.idle s₀) π).shared.blk) ∧
    ((∀ p, (last (.idle s₀) π).task p = none) → Whole (last (.idle s₀) π).shared) ∧
    (∀ p i off len, calling π p = some (.readi i off len) →
      (∀ bb, (last (.idle s₀) π).pending p ≠ some (.balloc bb)) ∧
      ∀ b, (last (.idle s₀) π).pending p ≠ some (.logWrite b)) ∧
    (last (.idle s₀) π).panicked ≠ some "log_write outside of trans" := by
  obtain ⟨G, hW, hgood, hreads⟩ := protocol_keeps.run_history
    (J := fun π G => Reads π (last (.idle s₀) π) G) (h₀.good hexact hwhole) nofun
    (fun π e T' G G' _ h hstep hmoves => h.step hstep hmoves) hrun
    (Run.meets_of_forall fun _ _ => trivial)
  refine ⟨fun i hi => (hgood.inv.rest i ?_).2, fun hT => hgood.inv.whole (stages_idle hW hT),
    fun p i off len hp => ?_, fun hwhy => (hW.panicked _ hwhy).2.2 rfl⟩
  · rintro ⟨p, w, hp, rfl⟩
    have hidle := hW.idle p (hi p (hgood.inv.lock p w.i (by rw [hp]; rfl)))
    rw [stages, hidle] at hp
    cases hp
  · obtain ⟨hw, t, ht, -⟩ := hreads p i off len hp
    have hnot : ∀ o, (last (.idle s₀) π).pending p = some o → (G p).Allows o := by
      intro o ho
      obtain ⟨k, hk⟩ := Tasks.task_of_pending ho
      exact (hW.follows p _ hk).1
    refine ⟨fun bb hbb => ?_, fun b hb => ?_⟩
    · cases hw.symm.trans (hnot _ hbb).1
    · cases hw.symm.trans (hnot _ hb).1

def reading : List (Tasks.Event Bool (Call 1)) :=
  wholeCalls [(true, .ilock ⟨0, Nat.one_pos⟩, 2)] ++
    .start true (.readi ⟨0, Nat.one_pos⟩ 0 512) :: List.replicate 4 (.run true)

/-- A file is read to its end. -/
theorem whole_of_exact_read :
    ∃ π, IsRun (step (machine 1 Bool eightBlocks)) (.idle (oneFile 512)) π ∧
      calling π true = some (.readi 0 0 512) ∧ Whole (oneFile 512) ∧
      (∀ b, (last (.idle (oneFile 512)) π).pending true ≠ some (.logWrite b)) ∧
      (last (.idle (oneFile 512)) π).panicked ≠ some "log_write outside of trans" := by
  have heval : (Tasks.run (machine 1 Bool eightBlocks) (oneFile 512) reading).map
      (fun π => calling π true) = some (some (.readi 0 0 512)) := by
    decide +kernel
  obtain ⟨π, hrun, hcalling⟩ := Tasks.exists_run heval
  obtain ⟨-, -, hreads, hpanic⟩ := whole_of_exact (files_booted 1 512) (files_exact (by decide) 512)
    (files_whole le_rfl) hrun
  exact ⟨π, hrun, hcalling, files_whole le_rfl, (hreads true _ _ _ hcalling).2, hpanic⟩

def crossLinked : Store 2 Bool where
  bits bb j := if bb = 0 ∧ j = 2 then 223#8 else 255#8
  blk b := if b = 20 then Bytes.zero.setWord 0 17 else .zero
  disk i := if i = 0 then ⟨.file, 1, 512, fun k => if k = 0 then 20 else 0⟩
    else ⟨.file, 1, 6656, fun k => if k = 12 then 20 else k + 5⟩
  mem _ := ⟨.free, 0, 0, fun _ => 0⟩
  valid _ := false
  lock _ := none
  trans _ := false
  pass _ := false
  logged _ := ∅
  lh := ∅
  off _ := 0

theorem crossLinked_whole : Whole crossLinked := by
  refine Fin.forall_fin_two.2 ⟨fun _ _ bn hbn => ?_, fun _ _ bn hbn => ?_⟩
  · have hbn : bn * 512 < 512 := hbn
    obtain rfl : bn = 0 := by omega
    exact ⟨by decide, fun _ => nofun, fun h => absurd h (by decide)⟩
  · have hbn : bn * 512 < 6656 := hbn
    refine ⟨(by omega : bn < 13).trans (by decide), fun hlt => ?_, fun hge => ?_⟩
    · show (if bn = 12 then 20 else bn + 5) ≠ 0
      split <;> omega
    · have hge : 12 ≤ bn := hge
      obtain rfl : bn = 12 := by omega
      decide

def manyBlocks : Super :=
  { eightBlocks with size := 24, size_lt := by decide, datastart_le := by decide }

def clobbering : List (Tasks.Event Bool (Call 2)) :=
  wholeCalls [(true, .beginOp, 1), (true, .ilock 0, 2),
    (true, .writei 0 [0#8, 0#8, 0#8, 0#8] 0, 8), (true, .iunlock 0, 2), (true, .endOp, 2),
    (true, .ilock 1, 2)] ++ .start true (.readi 1 6144 1) :: List.replicate 7 (.run true)

/-- Zeros are written to the first file, which makes a hole in the other; reading that panics. -/
theorem hole_made :
    Booted crossLinked ∧ Whole crossLinked ∧
      ∃ π, IsRun (step (machine 2 Bool manyBlocks)) (.idle crossLinked) π ∧
        ¬ Whole (last (.idle crossLinked) π).shared ∧
        (last (.idle crossLinked) π).panicked = some "log_write outside of trans" := by
  have heval : (Tasks.run (machine 2 Bool manyBlocks) crossLinked clobbering).map (fun π =>
      ((last (.idle crossLinked) π).panicked,
        ((last (.idle crossLinked) π).shared.disk 1).size,
        ((last (.idle crossLinked) π).shared.disk 1).type,
        ((last (.idle crossLinked) π).shared.blk
          (((last (.idle crossLinked) π).shared.disk 1).addrs NDIRECT)).word 0)) =
      some (some "log_write outside of trans", 6656, .file, 0) := by
    decide +kernel
  obtain ⟨π, hrun, heq⟩ := Tasks.exists_run heval
  obtain ⟨hpanic, hrest⟩ := Prod.mk.inj heq
  obtain ⟨hsize, hrest⟩ := Prod.mk.inj hrest
  obtain ⟨htype, hword⟩ := Prod.mk.inj hrest
  refine ⟨⟨fun _ => rfl, fun _ => rfl, fun _ => rfl⟩, crossLinked_whole, π, hrun,
    fun hwhole => ?_, hpanic⟩
  have hfull := hwhole 1 (by rw [htype]; nofun) (by rw [htype]; nofun) 12 (by rw [hsize]; decide)
  exact (hfull.2.2 le_rfl).2 hword

/-! ## What a pass of `filewrite` logs -/

/-- In every run from a file system without holes whose bitmap is exact, whatever the offset, the
length and the number of bitmap blocks: a pass of `filewrite` has logged at most `MAXOPBLOCKS`
blocks, and the block that it is about to log is within that, too. -/
theorem card_logged_le (h₀ : Booted s₀) (hexact : Exact sb s₀) (hwhole : Whole s₀)
    (hrun : IsRun (step (machine n ι sb)) (.idle s₀) π) {p : ι}
    (htrans : (last (.idle s₀) π).shared.trans p = true)
    (hpass : (last (.idle s₀) π).shared.pass p = true) :
    ((last (.idle s₀) π).shared.logged p).card ≤ MAXOPBLOCKS ∧
      ∀ b, (last (.idle s₀) π).pending p = some (.logWrite b) →
        (insert b ((last (.idle s₀) π).shared.logged p)).card ≤ MAXOPBLOCKS := by
  obtain ⟨G, hW, hgood⟩ := protocol_keeps.run_invariant (h₀.good hexact hwhole) hrun
    (Run.meets_of_forall fun _ _ => trivial)
  have hghost := (hgood.logs p).pass htrans hpass
  obtain ⟨hlog, hcard⟩ := (hgood.logs p).log hghost
  rw [hlog]
  refine ⟨hcard, fun b hb => ?_⟩
  obtain ⟨k, hk⟩ := Tasks.task_of_pending hb
  exact (hW.follows p _ hk).1.2 hghost

/-- A byte is written over the first one, and its block has been logged. -/
theorem card_logged_le_filewrite :
    ∃ π, IsRun (step (machine 1 Bool eightBlocks)) (.idle (oneFile 512)) π ∧
      ((last (.idle (oneFile 512)) π).shared.logged true).card = 1 ∧
      ∀ b, (last (.idle (oneFile 512)) π).pending true = some (.logWrite b) →
        (insert b ((last (.idle (oneFile 512)) π).shared.logged true)).card ≤ MAXOPBLOCKS := by
  have heval : (Tasks.run (machine 1 Bool eightBlocks) (oneFile 512)
      (.start true (.filewrite 0 ⟨0, Nat.one_pos⟩ [7#8]) :: List.replicate 9 (.run true))).map
      (fun π => (((last (.idle (oneFile 512)) π).shared.logged true).card,
        (last (.idle (oneFile 512)) π).shared.trans true,
        (last (.idle (oneFile 512)) π).shared.pass true)) = some (1, true, true) := by
    decide +kernel
  obtain ⟨π, hrun, heq⟩ := Tasks.exists_run heval
  obtain ⟨hcard, heq⟩ := Prod.mk.inj heq
  obtain ⟨htrans, hpass⟩ := Prod.mk.inj heq
  exact ⟨π, hrun, hcard, (card_logged_le (files_booted 1 512) (files_exact (by decide) 512)
    (files_whole le_rfl) hrun htrans hpass).2⟩

/-! ## What is written to -/

def Op.writes : Op n → Option ℕ
  | .bzero b | .setWord b _ _ | .copyin b _ _ => some b
  | _ => none

omit [DecidableEq ι] [Fintype ι] in
theorem Inv.holds_of_writes {s : Store n ι} {S : ι → Stage n} {p : ι} {w : Work n} {o : Op n}
    {b : ℕ} (h : Inv sb s S) (hp : S p = .work w) (hallow : w.Allows o) (ho : o.writes = some b) :
    ∃ x, w.Holds s.blk x b := by
  have hknown := (h.work p w hp).2.2.2
  cases o with
  | bzero b' =>
    cases ho
    obtain ⟨z, hole, hφ⟩ := hallow
    exact ⟨none, (Work.holds_of_fresh hφ none).2 (.inr ⟨rfl, rfl⟩)⟩
  | setWord a k b' =>
    cases ho
    obtain ⟨rfl, h0, -, z, hφ⟩ := hallow
    exact ⟨some (.addr NDIRECT),
      (Work.holds_of_fresh hφ _).2 (.inl ⟨_, rfl, hknown.type, le_rfl, rfl, h0⟩)⟩
  | copyin b' pos src =>
    cases ho
    obtain ⟨hq, hseen | ⟨k, hk, hb, h0⟩⟩ := hallow
    · have hphase := hknown.phase
      rw [hseen] at hphase
      obtain ⟨k, hk⟩ := hphase
      exact ⟨some (.entry k), (Work.holds_of_quiet hq _).2 ⟨_, rfl, hk⟩⟩
    · exact ⟨some (.addr k),
        (Work.holds_of_quiet hq _).2 ⟨_, rfl, hknown.type, hk.le, hb, h0⟩⟩
  | _ => cases ho

/-- In every run from a file system without holes whose bitmap is exact: the block that a process is
about to zero, or to write contents or block numbers to, is marked and in the data area, and no
inode that is not being worked on refers to it. So no call damages another file. -/
theorem write_isolated (h₀ : Booted s₀) (hexact : Exact sb s₀) (hwhole : Whole s₀)
    (hrun : IsRun (step (machine n ι sb)) (.idle s₀) π) {p : ι} {o : Op n} {b : ℕ}
    (hpending : (last (.idle s₀) π).pending p = some o) (ho : o.writes = some b) :
    (last (.idle s₀) π).shared.InUse sb b ∧
      ∀ j, (∀ q, (last (.idle s₀) π).shared.lock j = some q → (last (.idle s₀) π).task q = none) →
        ∀ pl, ¬ ((last (.idle s₀) π).shared.cur j).Ref (last (.idle s₀) π).shared.blk pl b := by
  obtain ⟨G, hW, hgood⟩ := protocol_keeps.run_invariant (h₀.good hexact hwhole) hrun
    (Run.meets_of_forall fun _ _ => trivial)
  obtain ⟨k, hk⟩ := Tasks.task_of_pending hpending
  have hallow : (G p).Allows o := (hW.follows p _ hk).1
  obtain ⟨w, hw, hallow⟩ : ∃ w, (G p).stage = .work w ∧ w.Allows o := by
    cases o with
    | bzero b | setWord a k b | copyin b pos src => exact hallow
    | _ => cases ho
  obtain ⟨x, hx⟩ := hgood.inv.holds_of_writes hw hallow ho
  have howns := (hgood.inv.owns_own hw x).2 hx
  refine ⟨hgood.inv.ledger.sound howns, fun j hj pl href => ?_⟩
  -- a process that works on `j` would be in a call
  have hrest : ∀ q v, stages G q = .work v → v.i ≠ j := by
    rintro q v hv rfl
    have hidle := hW.idle q (hj q (hgood.inv.lock q v.i (by rw [hv]; rfl)))
    rw [stages, hidle] at hv
    cases hv
  have hplace : Owns (last (.idle s₀) π).shared (stages G) (.place j pl) b := by
    refine ⟨href, ?_⟩
    rintro ⟨q, v, hv, hi, -⟩
    exact hrest q v hv hi
  cases x with
  | none => cases hgood.inv.ledger.unique howns hplace
  | some pl' => exact hrest p w hw (Owner.place.inj (hgood.inv.ledger.unique howns hplace)).1

/-- Of two files, one is about to be written to, and the other is at rest. -/
theorem write_isolated_filewrite :
    ∃ π, IsRun (step (machine 2 Bool eightBlocks)) (.idle (files 2 512)) π ∧
      (last (.idle (files 2 512)) π).shared.InUse eightBlocks 4 ∧
      ((last (.idle (files 2 512)) π).shared.cur 1).addrs 0 = 5 ∧
      ∀ pl, ¬ ((last (.idle (files 2 512)) π).shared.cur 1).Ref
        (last (.idle (files 2 512)) π).shared.blk pl 4 := by
  have heval : (Tasks.run (machine 2 Bool eightBlocks) (files 2 512)
      (.start true (.filewrite 0 ⟨0, Nat.two_pos⟩ [7#8]) :: List.replicate 6 (.run true))).map
      (fun π => (((last (.idle (files 2 512)) π).pending true).bind Op.writes,
        ((last (.idle (files 2 512)) π).shared.cur 1).addrs 0,
        (last (.idle (files 2 512)) π).shared.lock 1)) = some (some 4, 5, none) := by
    decide +kernel
  obtain ⟨π, hrun, heq⟩ := Tasks.exists_run heval
  simp only [Prod.mk.injEq] at heq
  obtain ⟨hwrites, haddr, hlock⟩ := heq
  obtain ⟨o, ho, hwrites⟩ := Option.bind_eq_some_iff.1 hwrites
  obtain ⟨huse, hothers⟩ := write_isolated (files_booted 2 512) (files_exact (by decide) 512)
    (files_whole le_rfl) hrun ho hwrites
  exact ⟨π, hrun, huse, haddr, hothers 1 fun q hq => by cases hlock.symm.trans hq⟩

end Xv6.Alloc
