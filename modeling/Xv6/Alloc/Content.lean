import Xv6.Lib.Task
import Xv6.Alloc.Store

/-!
# Blocks and the contents of files

The functions of `fs.c` on blocks and on the contents of inodes, and `filewrite`, as programs over
the operations of `Xv6.Alloc.Op`; `machine` lets any number of processes call them in any order.

The calls are those that the system calls make of `fs.c`. They have arbitrary arguments, and are
held to what every system call does: `readi`, `writei` and `iupdate` are called with the inode
locked, and whatever may write (`writei`, `iupdate`, `ialloc` and `iput`) between `begin_op` and
`end_op`. When `iput` frees an inode depends on its links and references, which are left open here.
-/

namespace Xv6.Alloc

open Fs (BSIZE MAXFILE Itype)

variable {n : ℕ}

abbrev Sys (n : ℕ) := Task (Op n) Op.Answer

/-- One operation. -/
abbrev call (o : Op n) : Sys n o.Answer := Task.call o

/-- `if(!c) panic(why)` -/
def panicUnless (c : Prop) [Decidable c] (why : String) : Sys n Unit :=
  if c then pure () else .panic why

def logWrite (b : ℕ) : Sys n Unit := do
  let full ← call .logFull
  panicUnless (full = false) "too big a transaction"
  let ok ← call (.logWrite b)
  panicUnless (ok = true) "log_write outside of trans"

/-! ## Blocks -/

def bzero (b : ℕ) : Sys n Unit := do
  call (.bzero b)
  logWrite b

def ballocFrom (sb : Super) : List ℕ → Sys n ℕ
  | [] => .panic "balloc: out of blocks"
  | bb :: bbs => do
    match ← call (.balloc bb) with
    | some b => do
      logWrite (sb.bblock (bb * BPB))
      bzero b
      return b
    | none => ballocFrom sb bbs

def balloc (sb : Super) : Sys n ℕ := ballocFrom sb (List.range ((sb.size + BPB - 1) / BPB))

def bfree (sb : Super) (place : Place) (b : ℕ) : Sys n Unit := do
  let ok ← call (.bfree place b)
  panicUnless (ok = true) "freeing free block"
  logWrite (sb.bblock b)

/-! ## Inodes -/

def iupdate (sb : Super) (i : Fin n) : Sys n Unit := do
  call (.iupdate i)
  logWrite (sb.iblock i)

def bmapAddr (sb : Super) (i : Fin n) (k : ℕ) : Sys n ℕ := do
  let ip ← call (.inode i)
  if ip.addrs k = 0 then do
    let b ← balloc sb
    call (.setAddr i k b)
    return b
  else return ip.addrs k

def bmap (sb : Super) (i : Fin n) (bn : ℕ) : Sys n ℕ :=
  if bn < NDIRECT then bmapAddr sb i bn
  else if bn - NDIRECT < NINDIRECT then do
    let a ← bmapAddr sb i NDIRECT
    let e ← call (.word .bmap a (bn - NDIRECT))
    if e = 0 then do
      let b ← balloc sb
      call (.setWord a (bn - NDIRECT) b)
      logWrite a
      return b
    else return e
  else .panic "bmap: out of range"

def truncDirect (sb : Super) (i : Fin n) : List ℕ → Sys n Unit
  | [] => pure ()
  | k :: ks => do
    let ip ← call (.inode i)
    if ip.addrs k ≠ 0 then do
      bfree sb (.addr k) (ip.addrs k)
      call (.setAddr i k 0)
    truncDirect sb i ks

def truncIndirect (sb : Super) (a : ℕ) : List ℕ → Sys n Unit
  | [] => pure ()
  | j :: js => do
    let e ← call (.word .itrunc a j)
    if e ≠ 0 then bfree sb (.entry j) e
    truncIndirect sb a js

def itrunc (sb : Super) (i : Fin n) : Sys n Unit := do
  truncDirect sb i (List.range NDIRECT)
  let ip ← call (.inode i)
  if ip.addrs NDIRECT ≠ 0 then do
    truncIndirect sb (ip.addrs NDIRECT) (List.range NINDIRECT)
    bfree sb (.addr NDIRECT) (ip.addrs NDIRECT)
    call (.setAddr i NDIRECT 0)
  call (.setSize i 0)
  iupdate sb i

def ilock (i : Fin n) : Sys n Unit := do
  call (.acquiresleep i)
  let ok ← call (.load i)
  panicUnless (ok = true) "ilock: no type"

def iput (sb : Super) (i : Fin n) (unused : Bool) : Sys n Unit := do
  call (.acquiresleep i)
  let valid ← call (.valid i)
  if valid = true ∧ unused = true then do
    itrunc sb i
    call (.freeInode i)
    logWrite (sb.iblock i)
  call (.releasesleep i)

def iallocFrom (sb : Super) (type : Itype) : List (Fin n) → Sys n Unit
  | [] => .panic "ialloc: no inodes"
  | i :: is => do
    if ← call (.ialloc i type) then
      logWrite (sb.iblock i)
    else
      iallocFrom sb type is

def ialloc (sb : Super) (type : Itype) : Sys n Unit :=
  iallocFrom sb type ((List.finRange n).drop 1)

/-! ## Contents -/

def chunk (off left : ℕ) : ℕ := min left (BSIZE - off % BSIZE)

def readLoop (sb : Super) (i : Fin n) : ℕ → ℕ → ℕ → Sys n (List Byte)
  | 0, _, _ => return []
  | fuel + 1, off, left =>
    if left = 0 then return []
    else do
      let b ← bmap sb i (off / BSIZE)
      let bs ← call (.copyout b (off % BSIZE) (chunk off left))
      let rest ← readLoop sb i fuel (off + chunk off left) (left - chunk off left)
      return bs ++ rest

def readi (sb : Super) (i : Fin n) (off len : ℕ) : Sys n (Option (List Byte)) := do
  let ip ← call (.inode i)
  if ip.type = .dev then return none
  else if ip.size < off ∨ (off + len) % 4294967296 < off then return none
  else do
    let len := if ip.size < off + len then ip.size - off else len
    let bs ← readLoop sb i len off len
    return some bs

/-- The loop of `writei`. -/
def writeLoop (sb : Super) (i : Fin n) : ℕ → ℕ → List Byte → Sys n Unit
  | 0, _, _ => pure ()
  | fuel + 1, off, src =>
    if src = [] then pure ()
    else do
      let b ← bmap sb i (off / BSIZE)
      call (.copyin b (off % BSIZE) (src.take (chunk off src.length)))
      logWrite b
      writeLoop sb i fuel (off + chunk off src.length) (src.drop (chunk off src.length))

def writei (sb : Super) (i : Fin n) (src : List Byte) (off : ℕ) : Sys n (Option ℕ) := do
  let ip ← call (.inode i)
  if ip.type = .dev then return none
  else if ip.size < off ∨ (off + src.length) % 4294967296 < off then return none
  else if MAXFILE * BSIZE < off + src.length then return none
  else do
    writeLoop sb i src.length off src
    let ip ← call (.inode i)
    if 0 < src.length ∧ ip.size < off + src.length then do
      call (.setSize i (off + src.length))
      iupdate sb i
    return some src.length

/-! ## Files -/

def maxChunk : ℕ := (MAXOPBLOCKS - 1 - 1 - 2) / 2 * 512

def filewriteChunk (sb : Super) (f : ℕ) (i : Fin n) (src : List Byte) : Sys n (Option ℕ) := do
  call (.beginOp true)
  ilock i
  let off ← call (.off f)
  let r ← writei sb i src off
  match r with
  | some (r + 1) => call (.addOff f (r + 1))
  | _ => pure ()
  call (.releasesleep i)
  call .endOp
  return r

def filewriteLoop (sb : Super) (f : ℕ) (i : Fin n) : ℕ → List Byte → Sys n Bool
  | 0, src => return src = []
  | fuel + 1, src =>
    if src = [] then return true
    else do
      let r ← filewriteChunk sb f i (src.take maxChunk)
      match r with
      | none => return false
      | some r => do
        panicUnless (r = (src.take maxChunk).length) "short filewrite"
        filewriteLoop sb f i fuel (src.drop r)

def filewrite (sb : Super) (f : ℕ) (i : Fin n) (src : List Byte) : Sys n Bool :=
  filewriteLoop sb f i src.length src

/-! ## The machine -/

/-- The calls, with arbitrary arguments. -/
inductive Call (n : ℕ)
  | beginOp
  | endOp
  | ilock (i : Fin n)
  | iunlock (i : Fin n)
  | iput (i : Fin n) (unused : Bool)
  | ialloc (type : Itype)
  /-- `iget`, of another inode. -/
  | evict (i : Fin n)
  | readi (i : Fin n) (off len : ℕ)
  | writei (i : Fin n) (src : List Byte) (off : ℕ)
  /-- `ip->nlink = nlink; iupdate(ip)` -/
  | setNlink (i : Fin n) (nlink : ℤ)
  | filewrite (f : ℕ) (i : Fin n) (src : List Byte)
  deriving DecidableEq

/-- The program of a call. -/
def prog (sb : Super) : Call n → Sys n Unit
  | .beginOp => call (.beginOp false)
  | .endOp => do
    call .inTrans
    call .endOp
  | .ilock i => ilock i
  | .iunlock i => do
    call (.holding i)
    call (.releasesleep i)
  | .iput i unused => do
    call .inTrans
    iput sb i unused
  | .ialloc type => do
    call .inTrans
    ialloc sb type
  | .evict i => call (.evict i)
  | .readi i off len => do
    call (.holding i)
    let _ ← readi sb i off len
  | .writei i src off => do
    call .inTrans
    call (.holding i)
    let _ ← writei sb i src off
  | .setNlink i nlink => do
    call .inTrans
    call (.holding i)
    let _ ← call (.inode i)
    call (.setNlink i nlink)
    iupdate sb i
  | .filewrite f i src => do
    let _ ← filewrite sb f i src

/-- The machine. -/
def machine (n : ℕ) (ι : Type) [DecidableEq ι] [Fintype ι] (sb : Super) :
    Machine (Store n ι) ι (Op n) Op.Answer (Call n) Unit where
  perform := Op.perform sb
  prog := prog sb
  ready := fun _ _ => true

end Xv6.Alloc
