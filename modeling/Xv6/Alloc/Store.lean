import Xv6.Fs.Inode
import Xv6.Lib.Bytes
import Mathlib.Data.Fintype.Sets

/-!
# The blocks of the disk

The state that `balloc`, `bfree`, `bmap`, `itrunc`, `readi` and `writei` work on: the blocks of the
free bitmap, the inodes on the disk with the copies of them in memory, and the contents of the other
blocks. Bitmap blocks and the others are bytes; the bit arithmetic of `balloc` and `bfree` and the
words of an indirect block are those of the source.

A block is read and changed with its buffer locked, and a copy of an inode with the inode locked, so
what is done in between is one operation of `Op`, and `Op.perform` says what it does. Block numbers
and sizes are `uint`s; they are kept as natural numbers.

Of the log there is which processes are in a transaction and which blocks are in `log.lh`: that is
what the two panics of `log_write` are about. `begin_op` does not wait here; that it does is in
`Xv6.Log.Operations`. The blocks that each process has logged (`pass` and `logged`) are a record that
no operation depends on.
-/

namespace Xv6.Alloc

open Function
open Fs (BSIZE MAXFILE Itype)

def NDIRECT : ℕ := 12

def NINDIRECT : ℕ := BSIZE / 4

/-- Bits of a bitmap block. -/
def BPB : ℕ := BSIZE * 8

/-- Inodes of a block. -/
def IPB : ℕ := BSIZE / 64

/-- What the superblock says: the size of the file system in blocks, and where the inodes and the
bitmap start; and where the blocks of the files start. -/
structure Super where
  size : ℕ
  inodestart : ℕ
  bmapstart : ℕ
  /-- Boot block, superblock, log, inodes and bitmap come before it. -/
  datastart : ℕ
  /-- The blocks of the log, with its header. -/
  nlog : ℕ
  /-- Sizes are `uint`s. -/
  size_lt : size < 4294967296
  /-- There is a boot block. -/
  datastart_pos : 0 < datastart
  datastart_le : datastart ≤ size

/-- `IBLOCK(i, sb)` -/
def Super.iblock (sb : Super) (i : ℕ) : ℕ := i / IPB + sb.inodestart

/-- `BBLOCK(b, sb)` -/
def Super.bblock (sb : Super) (b : ℕ) : ℕ := b / BPB + sb.bmapstart

def Super.TooBig (sb : Super) (k : ℕ) : Prop := LOGSIZE ≤ k ∨ sb.nlog - 1 ≤ k

instance (sb : Super) (k : ℕ) : Decidable (sb.TooBig k) :=
  inferInstanceAs (Decidable (LOGSIZE ≤ k ∨ sb.nlog - 1 ≤ k))

/-- `struct dinode`, less the numbers of a device; `addrs` has `NDIRECT + 1` elements. -/
structure Dinode where
  type : Itype
  nlink : ℤ
  size : ℕ
  addrs : ℕ → ℕ

/-- Where in the source an operation is, as far as it matters to say so. -/
inductive Site
  | bmap
  | itrunc
  deriving DecidableEq

/-- The place of the block that `itrunc` frees. -/
inductive Place
  /-- `ip->addrs[k]` -/
  | addr (k : ℕ)
  /-- `a[j]`, in the indirect block. -/
  | entry (j : ℕ)
  deriving DecidableEq

/-- The atomic operations, with inodes in `Fin n`. -/
inductive Op (n : ℕ)
  /-- `begin_op`, which is made by a pass of `filewrite` or not. -/
  | beginOp (pass : Bool)
  | endOp
  /-- A function is called that writes: the process is in a transaction. -/
  | inTrans
  /-- A function is called that wants inode `i` locked. -/
  | holding (i : Fin n)
  | acquiresleep (i : Fin n)
  | releasesleep (i : Fin n)
  /-- The rest of `ilock`. -/
  | load (i : Fin n)
  /-- `iput` looks at `ip->valid`. -/
  | valid (i : Fin n)
  /-- A read of the fields of the copy of a locked inode. -/
  | inode (i : Fin n)
  /-- `ip->addrs[k] = b` -/
  | setAddr (i : Fin n) (k b : ℕ)
  | setSize (i : Fin n) (size : ℕ)
  | setNlink (i : Fin n) (nlink : ℤ)
  /-- The copy that `iupdate` makes. -/
  | iupdate (i : Fin n)
  /-- The end of `iput`: `type = 0`, `iupdate` and `valid = 0`. -/
  | freeInode (i : Fin n)
  /-- One pass of the loop of `ialloc`. -/
  | ialloc (i : Fin n) (type : Itype)
  /-- `iget` uses the cache entry of an inode that nobody refers to for another. -/
  | evict (i : Fin n)
  /-- One pass of the outer loop of `balloc`: the block found in bitmap block `bb` and marked. -/
  | balloc (bb : ℕ)
  /-- `bzero`, up to its `log_write`. -/
  | bzero (b : ℕ)
  /-- `bfree`, up to its `log_write`; `false` if the block is free. -/
  | bfree (place : Place) (b : ℕ)
  /-- A read of `a[k]` in the indirect block `b`. -/
  | word (site : Site) (b k : ℕ)
  /-- `a[k] = v` -/
  | setWord (b k v : ℕ)
  /-- `memmove` of `m` bytes out of a block. -/
  | copyout (b off m : ℕ)
  /-- `memmove` into a block. -/
  | copyin (b off : ℕ) (src : List Byte)
  /-- The first test of `log_write`: the transaction is too big. -/
  | logFull
  /-- The rest of `log_write`; `false` if it is outside of a transaction. -/
  | logWrite (b : ℕ)
  /-- A read of `f->off`. -/
  | off (f : ℕ)
  /-- `f->off += r` -/
  | addOff (f r : ℕ)

abbrev Op.Answer {n : ℕ} : Op n → Type
  | .load _ | .valid _ | .ialloc _ _ | .bfree _ _ | .logFull | .logWrite _ => Bool
  | .inode _ => Dinode
  | .balloc _ => Option ℕ
  | .word _ _ _ | .off _ => ℕ
  | .copyout _ _ _ => List Byte
  | .beginOp _ | .endOp | .inTrans | .holding _ | .acquiresleep _ | .releasesleep _ | .setAddr _ _ _
  | .setSize _ _ | .setNlink _ _ | .iupdate _ | .freeInode _ | .evict _ | .bzero _
  | .setWord _ _ _ | .copyin _ _ _ | .addOff _ _ => Unit

/-- The shared state, of `n` inodes and processes in `ι`. -/
structure Store (n : ℕ) (ι : Type) where
  /-- The blocks of the bitmap. -/
  bits : ℕ → Bytes
  /-- The other blocks, by number. -/
  blk : ℕ → Bytes
  /-- The inodes on the disk, as `bread` gives them. -/
  disk : Fin n → Dinode
  /-- Their copies in memory. -/
  mem : Fin n → Dinode
  valid : Fin n → Bool
  /-- The process that holds `ip->lock`. -/
  lock : Fin n → Option ι
  /-- The process is between `begin_op` and `end_op`. -/
  trans : ι → Bool
  /-- The transaction is that of a pass of `filewrite`. -/
  pass : ι → Bool
  /-- The blocks that it has logged since `begin_op`. -/
  logged : ι → Finset ℕ
  /-- The blocks in `log.lh`. -/
  lh : Finset ℕ
  /-- `f->off` of the open files. -/
  off : ℕ → ℕ

namespace Store

variable {n : ℕ} {ι : Type}

def marked (s : Store n ι) (b : ℕ) : Bool := (s.bits (b / BPB)).bit (b % BPB)

def findFree (sb : Super) (s : Store n ι) (bb : ℕ) : Option ℕ :=
  (List.range BPB).find? fun bi => bb * BPB + bi < sb.size ∧ (s.bits bb).bit bi = false

def setMark (s : Store n ι) (b : ℕ) : Store n ι :=
  { s with bits := update s.bits (b / BPB) ((s.bits (b / BPB)).setBit (b % BPB)) }

def clearMark (s : Store n ι) (b : ℕ) : Store n ι :=
  { s with bits := update s.bits (b / BPB) ((s.bits (b / BPB)).clearBit (b % BPB)) }

def setMem (s : Store n ι) (i : Fin n) (x : Dinode) : Store n ι :=
  { s with mem := update s.mem i x }

def setDisk (s : Store n ι) (i : Fin n) (x : Dinode) : Store n ι :=
  { s with disk := update s.disk i x }

def setValid (s : Store n ι) (i : Fin n) (v : Bool) : Store n ι :=
  { s with valid := update s.valid i v }

def setLock (s : Store n ι) (i : Fin n) (p : Option ι) : Store n ι :=
  { s with lock := update s.lock i p }

def setBlk (s : Store n ι) (b : ℕ) (d : Bytes) : Store n ι :=
  { s with blk := update s.blk b d }

def note [DecidableEq ι] (s : Store n ι) (p : ι) (b : ℕ) : Store n ι :=
  { s with logged := update s.logged p (insert b (s.logged p)), lh := insert b s.lh }

end Store

def Op.perform {n : ℕ} {ι : Type} [DecidableEq ι] [Fintype ι] (sb : Super) (p : ι) :
    (o : Op n) → Store n ι → Option (o.Answer × Store n ι)
  | .beginOp pass, s =>
    some ((), { s with
      trans := update s.trans p true
      pass := update s.pass p pass
      logged := update s.logged p ∅ })
  | .endOp, s =>
    some ((), { s with
      trans := update s.trans p false
      lh := if ∃ q, q ≠ p ∧ s.trans q = true then s.lh else ∅ })
  | .inTrans, s => if s.trans p = true then some ((), s) else none
  | .holding i, s => if s.lock i = some p then some ((), s) else none
  | .acquiresleep i, s =>
    match s.lock i with
    | none => some ((), s.setLock i (some p))
    | some _ => none
  | .releasesleep i, s => some ((), s.setLock i none)
  | .load i, s =>
    if s.valid i = true then some (true, s)
    else if (s.disk i).type ≠ .free then
      some (true, (s.setMem i (s.disk i)).setValid i true)
    else some (false, s)
  | .valid i, s => some (s.valid i, s)
  | .inode i, s => some (s.mem i, s)
  | .setAddr i k b, s =>
    some ((), s.setMem i { s.mem i with addrs := update (s.mem i).addrs k b })
  | .setSize i size, s => some ((), s.setMem i { s.mem i with size := size })
  | .setNlink i nlink, s => some ((), s.setMem i { s.mem i with nlink := nlink })
  | .iupdate i, s => some ((), s.setDisk i (s.mem i))
  | .freeInode i, s =>
    some ((), ((s.setMem i { s.mem i with type := .free }).setDisk i
      { s.mem i with type := .free }).setValid i false)
  | .ialloc i type, s =>
    if (s.disk i).type = .free then some (true, s.setDisk i ⟨type, 0, 0, fun _ => 0⟩)
    else some (false, s)
  | .evict i, s => if s.lock i = none then some ((), s.setValid i false) else none
  | .balloc bb, s =>
    match s.findFree sb bb with
    | some bi => some (some (bb * BPB + bi), s.setMark (bb * BPB + bi))
    | none => some (none, s)
  | .bzero b, s => some ((), s.setBlk b .zero)
  | .bfree _ b, s => if s.marked b = true then some (true, s.clearMark b) else some (false, s)
  | .word _ b k, s => some ((s.blk b).word k, s)
  | .setWord b k v, s => some ((), s.setBlk b ((s.blk b).setWord k v))
  | .copyout b pos m, s => some ((s.blk b).slice pos m, s)
  | .copyin b pos src, s => some ((), s.setBlk b ((s.blk b).splice pos src))
  | .logFull, s => some (decide (sb.TooBig s.lh.card), s)
  | .logWrite b, s => if ∃ q, s.trans q = true then some (true, s.note p b) else some (false, s)
  | .off f, s => some (s.off f, s)
  | .addOff f r, s => some ((), { s with off := update s.off f (s.off f + r) })

/-! ## What the operations with several outcomes do -/

namespace Op

variable {n : ℕ} {ι : Type} [DecidableEq ι] [Fintype ι] {sb : Super} {p : ι} {s s' : Store n ι}
  {i : Fin n} {b : ℕ}

theorem perform_inTrans {r : Unit} (h : (inTrans : Op n).perform sb p s = some (r, s')) :
    s.trans p = true ∧ s = s' := by
  have h : (if s.trans p = true then some ((), s) else none) = some (r, s') := h
  split at h
  · rename_i ht
    exact ⟨ht, (Prod.mk.inj (Option.some.inj h)).2⟩
  · cases h

theorem perform_holding {r : Unit} (h : (holding i).perform sb p s = some (r, s')) :
    s.lock i = some p ∧ s = s' := by
  have h : (if s.lock i = some p then some ((), s) else none) = some (r, s') := h
  split at h
  · rename_i hl
    exact ⟨hl, (Prod.mk.inj (Option.some.inj h)).2⟩
  · cases h

theorem perform_acquiresleep {r : Unit} (h : (acquiresleep i).perform sb p s = some (r, s')) :
    s.lock i = none ∧ s.setLock i (some p) = s' := by
  have h : (match s.lock i with
    | none => some ((), s.setLock i (some p))
    | some _ => none) = some (r, s') := h
  split at h
  · rename_i hl
    exact ⟨hl, (Prod.mk.inj (Option.some.inj h)).2⟩
  · cases h

theorem perform_load {r : Bool} (h : (load i).perform sb p s = some (r, s')) :
    s.valid i = true ∧ true = r ∧ s = s' ∨
    s.valid i ≠ true ∧ (s.disk i).type ≠ .free ∧ true = r ∧
      (s.setMem i (s.disk i)).setValid i true = s' ∨
    s.valid i ≠ true ∧ (s.disk i).type = .free ∧ false = r ∧ s = s' := by
  have h : (if s.valid i = true then some (true, s)
    else if (s.disk i).type ≠ .free then some (true, (s.setMem i (s.disk i)).setValid i true)
    else some (false, s)) = some (r, s') := h
  split at h
  · rename_i hv
    exact .inl ⟨hv, Prod.mk.inj (Option.some.inj h)⟩
  · rename_i hv
    split at h
    · rename_i ht
      exact .inr (.inl ⟨hv, ht, Prod.mk.inj (Option.some.inj h)⟩)
    · rename_i ht
      exact .inr (.inr ⟨hv, not_not.1 ht, Prod.mk.inj (Option.some.inj h)⟩)

theorem perform_ialloc {type : Itype} {r : Bool}
    (h : (ialloc i type).perform sb p s = some (r, s')) :
    (s.disk i).type = .free ∧ true = r ∧ s.setDisk i ⟨type, 0, 0, fun _ => 0⟩ = s' ∨
    (s.disk i).type ≠ .free ∧ false = r ∧ s = s' := by
  have h : (if (s.disk i).type = .free then some (true, s.setDisk i ⟨type, 0, 0, fun _ => 0⟩)
    else some (false, s)) = some (r, s') := h
  split at h
  · rename_i ht
    exact .inl ⟨ht, Prod.mk.inj (Option.some.inj h)⟩
  · rename_i ht
    exact .inr ⟨ht, Prod.mk.inj (Option.some.inj h)⟩

theorem perform_evict {r : Unit} (h : (evict i).perform sb p s = some (r, s')) :
    s.lock i = none ∧ s.setValid i false = s' := by
  have h : (if s.lock i = none then some ((), s.setValid i false) else none) = some (r, s') := h
  split at h
  · rename_i hl
    exact ⟨hl, (Prod.mk.inj (Option.some.inj h)).2⟩
  · cases h

theorem perform_balloc {bb : ℕ} {r : Option ℕ}
    (h : (balloc bb : Op n).perform sb p s = some (r, s')) :
    (∃ bi, s.findFree sb bb = some bi ∧ some (bb * BPB + bi) = r ∧
      s.setMark (bb * BPB + bi) = s') ∨
    s.findFree sb bb = none ∧ none = r ∧ s = s' := by
  unfold perform at h
  dsimp only at h
  split at h
  · rename_i bi hf
    exact .inl ⟨bi, hf, Prod.mk.inj (Option.some.inj h)⟩
  · rename_i hf
    exact .inr ⟨hf, Prod.mk.inj (Option.some.inj h)⟩

theorem perform_balloc_of_some {bb bi : ℕ} (h : s.findFree sb bb = some bi) :
    (balloc bb : Op n).perform sb p s =
      some (some (bb * BPB + bi), s.setMark (bb * BPB + bi)) := by
  unfold perform
  dsimp only
  rw [h]

theorem perform_balloc_of_none {bb : ℕ} (h : s.findFree sb bb = none) :
    (balloc bb : Op n).perform sb p s = some (none, s) := by
  unfold perform
  dsimp only
  rw [h]

theorem perform_bfree {place : Place} {r : Bool}
    (h : (bfree place b : Op n).perform sb p s = some (r, s')) :
    s.marked b = true ∧ true = r ∧ s.clearMark b = s' ∨
    s.marked b ≠ true ∧ false = r ∧ s = s' := by
  have h : (if s.marked b = true then some (true, s.clearMark b) else some (false, s)) =
    some (r, s') := h
  split at h
  · rename_i hm
    exact .inl ⟨hm, Prod.mk.inj (Option.some.inj h)⟩
  · rename_i hm
    exact .inr ⟨hm, Prod.mk.inj (Option.some.inj h)⟩

theorem perform_logWrite {r : Bool} (h : (logWrite b : Op n).perform sb p s = some (r, s')) :
    (∃ q, s.trans q = true) ∧ true = r ∧ s.note p b = s' ∨
    (¬ ∃ q, s.trans q = true) ∧ false = r ∧ s = s' := by
  have h : (if ∃ q, s.trans q = true then some (true, s.note p b) else some (false, s)) =
    some (r, s') := h
  split at h
  · rename_i ht
    exact .inl ⟨ht, Prod.mk.inj (Option.some.inj h)⟩
  · rename_i ht
    exact .inr ⟨ht, Prod.mk.inj (Option.some.inj h)⟩

end Op

end Xv6.Alloc
