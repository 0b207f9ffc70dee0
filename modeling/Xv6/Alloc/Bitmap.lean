import Xv6.Alloc.Run

/-!
# The free bitmap

In every run from a file system whose bitmap is exact and whose files have no holes, the bitmap is
exact whenever nobody is in a call, and `bfree` never finds its block free. Holes matter because
`readi` allocates a block for one, and does not write the inode back.
-/

namespace Xv6.Alloc

open Run (IsRun last)
open Tasks (step)

variable {n : ℕ} {ι : Type} {sb : Super} {s₀ : Store n ι}
  {π : List (Tasks.Event ι (Call n) × Tasks (Store n ι) ι (Op n) Op.Answer Unit)}

theorem stages_idle {T : Tasks (Store n ι) ι (Op n) Op.Answer Unit} {G : ι → Ghost n}
    (h : (protocol n).Within Ghost.Quits .rest T G) (hT : ∀ p, T.task p = none) (p : ι) :
    stages G p = .idle := by
  rw [stages, h.idle p (hT p)]
  rfl

variable [DecidableEq ι] [Fintype ι]

/-- From a file system without holes whose bitmap is exact, the bitmap is exact again whenever no
call is in progress, and no block is freed twice. -/
theorem exact_of_whole (h₀ : Booted s₀) (hexact : Exact sb s₀) (hwhole : Whole s₀)
    (hrun : IsRun (step (machine n ι sb)) (.idle s₀) π) :
    (last (.idle s₀) π).panicked ≠ some "freeing free block" ∧
      ((∀ p, (last (.idle s₀) π).task p = none) → Exact sb (last (.idle s₀) π).shared) := by
  obtain ⟨G, hW, hgood⟩ := protocol_keeps.run_invariant (h₀.good hexact hwhole) hrun
    (Run.meets_of_forall fun _ _ => trivial)
  refine ⟨fun hwhy => ?_, fun hT => hgood.inv.exact (stages_idle hW hT)⟩
  exact (hW.panicked _ hwhy).1 rfl

/-! ## A small file system -/

def eightBlocks : Super := ⟨8, 2, 3, 4, 30, by decide, by decide, by decide⟩

def files (n size : ℕ) : Store n Bool where
  bits bb j := if bb = 0 ∧ j = 0 then 255#8 >>> (4 - n) else 0#8
  blk _ := .zero
  disk i := ⟨.file, 1, size, fun k => if k = 0 then 4 + i else 0⟩
  mem _ := ⟨.free, 0, 0, fun _ => 0⟩
  valid _ := false
  lock _ := none
  trans _ := false
  pass _ := false
  logged _ := ∅
  lh := ∅
  off _ := 0

/-- With one file. -/
abbrev oneFile (size : ℕ) : Store 1 Bool := files 1 size

theorem files_booted (n size : ℕ) : Booted (files n size) :=
  ⟨fun _ => rfl, fun _ => rfl, fun _ => rfl⟩

theorem files_ref {size b : ℕ} {i : Fin n} {pl : Place} :
    ((files n size).disk i).Ref (files n size).blk pl b ↔ pl = .addr 0 ∧ b = 4 + i := by
  constructor
  · intro h
    cases pl with
    | addr k =>
      obtain ⟨-, -, hk, hb⟩ := h
      by_cases h0 : k = 0
      · subst h0
        exact ⟨rfl, hk.symm⟩
      · exact absurd (hk.symm.trans (if_neg h0)) hb
    | entry j => exact absurd rfl h.2.2.1
  · rintro ⟨rfl, rfl⟩
    exact ⟨nofun, Nat.zero_le _, rfl, by omega⟩

theorem files_marked {size b : ℕ} (hn : n ≤ 4) (hb : b < 8) :
    (files n size).marked b = decide (b < 4 + n) := by
  have hall : ∀ n ≤ 4, ∀ b < 8, (files n 0).marked b = decide (b < 4 + n) := by decide
  exact hall n hn b hb

theorem files_exact (hn : n ≤ 4) (size : ℕ) : Exact eightBlocks (files n size) := by
  refine ⟨fun b hb => ?_, fun b x y hx hy => ?_, fun b x hx => ?_⟩
  · rw [files_marked hn hb, decide_eq_true_iff]
    constructor
    · intro hlt
      by_cases hboot : b < 4
      · exact .inl hboot
      · refine .inr ⟨(⟨b - 4, by omega⟩, .addr 0), files_ref.2 ⟨rfl, ?_⟩, fun y hy => ?_⟩
        · exact (Nat.add_sub_cancel' (Nat.le_of_not_lt hboot)).symm
        · obtain ⟨hpl, rfl⟩ := files_ref.1 hy
          exact Prod.ext (Fin.ext (Nat.add_sub_cancel_left ..).symm) hpl
    · rintro (hlt | ⟨x, hx, -⟩)
      · exact hlt.trans_le (Nat.le_add_right ..)
      · obtain ⟨-, rfl⟩ := files_ref.1 hx
        omega
  · obtain ⟨hpl, rfl⟩ := files_ref.1 hx
    obtain ⟨hpl', hi⟩ := files_ref.1 hy
    exact Prod.ext (Fin.ext (Nat.add_left_cancel hi)) (hpl.trans hpl'.symm)
  · obtain ⟨-, rfl⟩ := files_ref.1 hx
    have hi := x.1.isLt
    exact ⟨Nat.le_add_right .., show 4 + x.1.val < 8 by omega⟩

theorem files_whole {size : ℕ} (h : size ≤ 512) : Whole (files n size) := by
  intro i _ _ bn hbn
  have hbn : bn * 512 < size := hbn
  obtain rfl : bn = 0 := by omega
  exact ⟨by decide, fun _ => (show 4 + i.val ≠ 0 by omega), fun h => absurd h (by decide)⟩

def wholeCalls (ops : List (Bool × Call n × ℕ)) : List (Tasks.Event Bool (Call n)) :=
  ops.flatMap fun x => .start x.1 x.2.1 :: (List.replicate x.2.2 (.run x.1) ++ [.done x.1])

def appending : List (Tasks.Event Bool (Call 1)) :=
  wholeCalls [(true, .beginOp, 1), (true, .ilock 0, 2), (true, .writei 0 [7#8] 512, 19),
    (true, .iunlock 0, 2), (true, .endOp, 2)]

def leaking : List (Tasks.Event Bool (Call 1)) :=
  wholeCalls [(false, .beginOp, 1), (true, .ilock 0, 2), (true, .readi 0 0 1024, 13),
    (true, .iunlock 0, 2), (true, .evict 0, 1), (false, .endOp, 2)]

/-- A byte is written past the end of the file, which takes another block. -/
theorem exact_of_whole_append :
    ∃ π, IsRun (step (machine 1 Bool eightBlocks)) (.idle (oneFile 512)) π ∧
      (last (.idle (oneFile 512)) π).shared.marked 5 = true ∧
      Exact eightBlocks (last (.idle (oneFile 512)) π).shared := by
  have heval : (Tasks.run (machine 1 Bool eightBlocks) (oneFile 512) appending).map (fun π =>
      ((last (.idle (oneFile 512)) π).shared.marked 5,
        ((last (.idle (oneFile 512)) π).task true).isNone &&
        ((last (.idle (oneFile 512)) π).task false).isNone)) = some (true, true) := by
    decide +kernel
  obtain ⟨π, hrun, heq⟩ := Tasks.exists_run heval
  obtain ⟨hmark, hnone⟩ := Prod.mk.inj heq
  rw [Bool.and_eq_true, Option.isNone_iff_eq_none, Option.isNone_iff_eq_none] at hnone
  refine ⟨π, hrun, hmark, (exact_of_whole (files_booted 1 512) (files_exact (by decide) 512)
    (files_whole le_rfl) hrun).2 fun p => ?_⟩
  cases p with
  | true => exact hnone.1
  | false => exact hnone.2

/-- A process reads a file with a hole, while another is in a transaction, so that `readi` can
allocate a block for it; then the inode is dropped from the cache. The block is marked, and nothing
refers to it. -/
theorem block_leaked :
    Booted (oneFile 1024) ∧ Exact eightBlocks (oneFile 1024) ∧
      ∃ π, IsRun (step (machine 1 Bool eightBlocks)) (.idle (oneFile 1024)) π ∧
        (∀ p, (last (.idle (oneFile 1024)) π).task p = none) ∧
        ¬ Exact eightBlocks (last (.idle (oneFile 1024)) π).shared := by
  have heval : (Tasks.run (machine 1 Bool eightBlocks) (oneFile 1024) leaking).map (fun π =>
      ((last (.idle (oneFile 1024)) π).shared.marked 5,
        ((last (.idle (oneFile 1024)) π).task true).isNone &&
        ((last (.idle (oneFile 1024)) π).task false).isNone,
        (List.range 13).all fun k =>
          ((last (.idle (oneFile 1024)) π).shared.disk 0).addrs k != 5,
        ((last (.idle (oneFile 1024)) π).shared.disk 0).addrs NDIRECT)) =
      some (true, true, true, 0) := by
    decide +kernel
  obtain ⟨π, hrun, heq⟩ := Tasks.exists_run heval
  obtain ⟨hmark, hrest⟩ := Prod.mk.inj heq
  obtain ⟨hnone, hrest⟩ := Prod.mk.inj hrest
  obtain ⟨haddrs, hind⟩ := Prod.mk.inj hrest
  rw [Bool.and_eq_true, Option.isNone_iff_eq_none, Option.isNone_iff_eq_none] at hnone
  refine ⟨files_booted .., files_exact (by decide) _, π, hrun, fun p => ?_, fun hexact => ?_⟩
  · cases p with
    | true => exact hnone.1
    | false => exact hnone.2
  · obtain hlt | ⟨⟨i, pl⟩, hx, -⟩ := (hexact.marked_iff 5 (by decide)).1 hmark
    · exact absurd hlt (by decide)
    · obtain rfl : i = 0 := Subsingleton.elim i 0
      cases pl with
      | addr k =>
        have hk : k ∈ List.range 13 := List.mem_range.2 (Nat.lt_succ_of_le hx.2.1)
        exact bne_iff_ne.1 (List.all_eq_true.1 haddrs k hk) hx.2.2.1
      | entry j => exact hx.2.2.1 hind

end Xv6.Alloc
