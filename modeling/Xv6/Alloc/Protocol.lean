import Xv6.Alloc.Content
import Xv6.Lib.Ledger

/-!
# What a process may do to blocks

The protocol that the functions of `Xv6.Alloc.Content` keep to, one process at a time. Its ghost
state says which inode the process has locked and what it knows of it: the copy in memory, how many
entries of the indirect block are in use without a gap, and what it is in the middle of (`Phase`). A
block that has been allocated is the process's own until it stores the number; a block that has been
freed is not the inode's any more, though its number is still there until it is cleared.
-/

namespace Xv6.Alloc

open Fs (BSIZE MAXFILE Itype)

variable {n : ℕ}

/-- Where the process is in the functions that change the blocks of an inode. -/
inductive Phase
  | calm
  /-- Entry `k` of the indirect block is 0. -/
  | hole (k : ℕ)
  /-- Block `b` is in the indirect block. -/
  | seen (b : ℕ)
  /-- Block `b` has been allocated and is zeroed or not; entry `hole` of the indirect block is 0. -/
  | fresh (zeroed : Bool) (hole : Option ℕ) (b : ℕ)
  /-- The block of `ip->addrs[k]` has been freed. -/
  | gone (k : ℕ)
  /-- The blocks in the first `j` entries of the indirect block have been freed. -/
  | cut (j : ℕ)
  /-- Likewise, and the next entry is `b`. -/
  | entry (j b : ℕ)

namespace Phase

/-- No block is in between. -/
def Quiet : Phase → Prop
  | calm | hole _ | seen _ => True
  | fresh _ _ _ | gone _ | cut _ | entry _ _ => False

def zero : Phase → Option ℕ
  | hole k => some k
  | _ => none

def Dropped : Phase → Place → Prop
  | gone k, .addr l => l = k
  | gone k, .entry _ => k = NDIRECT
  | cut j, .entry l | entry j _, .entry l => l < j
  | _, _ => False

def Fresh : Phase → ℕ → Prop
  | fresh _ _ b, c => c = b
  | _, _ => False

end Phase

/-- What a process knows of the inode that it works on. -/
structure Work (n : ℕ) where
  i : Fin n
  /-- The copy in memory. -/
  ip : Dinode
  /-- So many entries of the indirect block are not 0. -/
  lead : ℕ
  phase : Phase
  /-- The inode on the disk is the copy. -/
  sync : Bool

/-- The inode that a process has locked. -/
inductive Stage (n : ℕ)
  | idle
  /-- It has the lock; the copy need not be valid. -/
  | locking (i : Fin n)
  /-- The copy is valid. -/
  | held (i : Fin n)
  | work (w : Work n)

/-- The ghost state. -/
structure Ghost (n : ℕ) where
  stage : Stage n
  /-- It is in a transaction. -/
  writes : Bool
  /-- The transaction is that of a pass of `filewrite`. -/
  pass : Bool
  /-- What has been logged in it. -/
  log : Finset ℕ

/-- Outside of a call. -/
def Ghost.rest : Ghost n := ⟨.idle, false, false, ∅⟩

namespace Work

def Has (w : Work n) (bn : ℕ) : Prop :=
  if bn < NDIRECT then w.ip.addrs bn ≠ 0 else bn - NDIRECT < w.lead

def Covers (w : Work n) (size : ℕ) : Prop := ∀ bn, bn * BSIZE < size → w.Has bn

def Data (w : Work n) (b : ℕ) : Prop :=
  w.phase = .seen b ∨ ∃ k < NDIRECT, w.ip.addrs k = b ∧ b ≠ 0

/-- Nothing is left to do. -/
def Clean (w : Work n) : Prop :=
  w.phase.Quiet ∧ w.sync = true ∧ (w.ip.type ≠ .dev → w.Covers w.ip.size)

def start (i : Fin n) (ip : Dinode) : Work n :=
  ⟨i, ip, if ip.type = .dev then 0 else (ip.size + BSIZE - 1) / BSIZE - NDIRECT, .calm, true⟩

def Allows (w : Work n) : Op n → Prop
  | .balloc _ => w.phase.Quiet
  | .bzero b => ∃ z h, w.phase = .fresh z h b
  | .setAddr i k b =>
    i = w.i ∧ k ≤ NDIRECT ∧
      ((∃ h, w.phase = .fresh true h b) ∧ w.ip.addrs k = 0 ∨ w.phase = .gone k ∧ b = 0)
  | .setSize i size => i = w.i ∧ w.phase.Quiet ∧ w.Covers size
  | .setNlink i _ => i = w.i ∧ w.phase.Quiet
  | .iupdate i => i = w.i ∧ w.phase.Quiet
  | .freeInode i => i = w.i ∧ w.phase.Quiet ∧ ∀ k ≤ NDIRECT, w.ip.addrs k = 0
  | .bfree (.addr k) b =>
    w.ip.addrs k = b ∧ b ≠ 0 ∧
      (k < NDIRECT ∧ w.phase.Quiet ∨ k = NDIRECT ∧ w.phase = .cut NINDIRECT)
  | .bfree (.entry j) b => w.phase = .entry j b
  | .word .bmap a k => a = w.ip.addrs NDIRECT ∧ a ≠ 0 ∧ k < NINDIRECT ∧ w.phase.Quiet
  | .word .itrunc a j =>
    a = w.ip.addrs NDIRECT ∧ a ≠ 0 ∧ j < NINDIRECT ∧ (j = 0 ∧ w.phase.Quiet ∨ w.phase = .cut j)
  | .setWord a k b =>
    a = w.ip.addrs NDIRECT ∧ a ≠ 0 ∧ k < NINDIRECT ∧ ∃ z, w.phase = .fresh z (some k) b
  | .copyin b _ _ => w.phase.Quiet ∧ w.Data b
  | .copyout _ _ _ => True
  | _ => False

/-- What it is told. -/
def Answers (w : Work n) : (o : Op n) → o.Answer → Prop
  | .balloc _, r => ∀ b, r = some b → b ≠ 0
  | .bfree _ _, r => r = true
  | .word .bmap _ k, r => k < w.lead → r ≠ 0
  | _, _ => True

/-- What it knows then. -/
def next (w : Work n) : (o : Op n) → o.Answer → Work n
  | .balloc _, some b => { w with phase := .fresh false w.phase.zero b }
  | .bzero b, _ =>
    match w.phase with
    | .fresh _ h _ => { w with phase := .fresh true h b }
    | _ => w
  | .setAddr _ k b, _ =>
    { w with
      ip := { w.ip with addrs := Function.update w.ip.addrs k b }
      lead := if k = NDIRECT then 0 else w.lead
      phase := .calm
      sync := false }
  | .setSize _ size, _ => { w with ip := { w.ip with size := size }, sync := false }
  | .setNlink _ nlink, _ => { w with ip := { w.ip with nlink := nlink }, sync := false }
  | .iupdate _, _ => { w with sync := true }
  | .bfree (.addr k) _, _ => { w with lead := 0, phase := .gone k }
  | .bfree (.entry j) _, _ => { w with phase := .cut (j + 1) }
  | .word .bmap _ k, r =>
    if r = 0 then { w with phase := .hole k }
    else { w with lead := if k = w.lead then k + 1 else w.lead, phase := .seen r }
  | .word .itrunc _ j, r =>
    { w with lead := 0, phase := if r = 0 then .cut (j + 1) else .entry j r }
  | .setWord _ k b, _ =>
    { w with lead := if k = w.lead then k + 1 else w.lead, phase := .seen b }
  | _, _ => w

end Work

namespace Ghost

def Allows (g : Ghost n) : Op n → Prop
  | .beginOp _ | .endOp | .inTrans | .holding _ | .acquiresleep _ | .evict _ => g.stage = .idle
  | .ialloc _ _ => g.stage = .idle ∧ g.writes = true
  | .load i | .valid i => g.stage = .locking i
  | .releasesleep i =>
    g.stage = .locking i ∨ g.stage = .held i ∨ ∃ w, g.stage = .work w ∧ w.i = i ∧ w.Clean
  | .inode i => g.stage = .held i ∨ ∃ w, g.stage = .work w ∧ w.i = i
  | .logWrite b =>
    g.writes = true ∧ (g.pass = true → (insert b g.log).card ≤ MAXOPBLOCKS)
  | .balloc bb => g.writes = true ∧ ∃ w, g.stage = .work w ∧ w.Allows (.balloc bb)
  | .logFull | .off _ | .addOff _ _ => True
  | o => ∃ w, g.stage = .work w ∧ w.Allows o

/-- What it is told. -/
def Answers (g : Ghost n) : (o : Op n) → o.Answer → Prop
  | .inode _, r =>
    match g.stage with
    | .work w => r = w.ip
    | _ =>
      r.type ≠ .free ∧ (r.type ≠ .dev → ∀ bn, bn * BSIZE < r.size →
        bn < MAXFILE ∧ (bn < NDIRECT → r.addrs bn ≠ 0) ∧ (NDIRECT ≤ bn → r.addrs NDIRECT ≠ 0))
  | .logWrite _, r => r = true
  | o, r => ∀ w, g.stage = .work w → w.Answers o r

/-- Its ghost state then. -/
def next (g : Ghost n) : (o : Op n) → o.Answer → Ghost n
  | .beginOp pass, _ => { g with writes := true, pass := pass, log := ∅ }
  | .endOp, _ => { g with writes := false, pass := false }
  | .inTrans, _ => { g with writes := true }
  | .holding i, _ => { g with stage := .held i }
  | .acquiresleep i, _ => { g with stage := .locking i }
  | .releasesleep _, _ => { g with stage := .idle }
  | .load i, r => if r = true then { g with stage := .held i } else g
  | .valid i, r => if r = true then { g with stage := .held i } else g
  | .freeInode i, _ => { g with stage := .locking i }
  | .inode i, r =>
    match g.stage with
    | .work _ => g
    | _ => { g with stage := .work (.start i r) }
  | .logFull, _ => g
  | .logWrite b, _ => { g with log := insert b g.log }
  | o, r =>
    match g.stage with
    | .work w => { g with stage := .work (w.next o r) }
    | _ => g

/-- Where a call may end. -/
def Quits (g : Ghost n) : Prop :=
  g.pass = false ∧ (∀ i, g.stage ≠ .locking i) ∧ ∀ w, g.stage = .work w → w.Clean

end Ghost

def protocol (n : ℕ) : Task.Protocol (Op n) Op.Answer (Ghost n) where
  allow := Ghost.Allows
  answer := Ghost.Answers
  next := Ghost.next
  dies why := why ≠ "freeing free block" ∧ why ≠ "bmap: out of range" ∧
    why ≠ "log_write outside of trans"

end Xv6.Alloc
