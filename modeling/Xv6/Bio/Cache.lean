import Xv6.Lib.Links
import Xv6.Lib.Run
import Mathlib.Data.List.FinRange

/-!
# The buffer cache

`bio.c`, with `iderw` and `log_write` as far as they touch a buffer. The cache has `N` buffers of
contents `β`. A use of a buffer runs from `bread` to `brelse`; a process that has several buffers at a
time makes several uses. The steps are the sections under `bcache.lock`, the acquisition and the
release of a buffer's sleep lock, and the transfer of a block by the disk. A holder that changes the
contents of its buffer calls `bwrite` or `log_write` before it lets go of it, so that the new contents
are an argument of these.
-/

namespace Xv6

open Function Run

/-- A block of a disk. -/
structure BlockId where
  dev : ℕ
  blockno : ℕ
  deriving DecidableEq

/-- `struct buf`, with the two bits of `flags`. -/
structure Buf (β : Type) where
  valid : Bool
  dirty : Bool
  dev : ℕ
  blockno : ℕ
  /-- The sleep lock is held. -/
  locked : Bool
  refcnt : ℕ
  data : β

/-- `bcache`. -/
structure Bcache (N : ℕ) (β : Type) where
  buf : Fin N → Buf β
  links : Links (Fin N)

/-- Where a use is, with its buffer and the block that it is for. -/
inductive BufUse (N : ℕ)
  | idle
  /-- In `acquiresleep` of `bget`. -/
  | waiting (b : Fin N) (x : BlockId)
  /-- In `iderw` of `bread`. -/
  | reading (b : Fin N) (x : BlockId)
  /-- Between `bread` and `brelse`. -/
  | holding (b : Fin N) (x : BlockId)
  /-- In `iderw` of `bwrite`. -/
  | writing (b : Fin N) (x : BlockId)
  /-- In `brelse`, after `releasesleep`. -/
  | releasing (b : Fin N) (x : BlockId)
  deriving DecidableEq

/-- The buffers, the disks and the uses. -/
structure BufSys (N : ℕ) (ι β : Type) where
  cache : Bcache N β
  disk : BlockId → β
  use : ι → BufUse N
  /-- `bget: no buffers` has stopped the kernel. -/
  panicked : Bool

/-- A step of use `u`. -/
inductive BufEvent (ι β : Type)
  /-- `bget` up to `acquiresleep`. -/
  | bread (u : ι) (x : BlockId)
  | acquiresleep (u : ι)
  /-- The disk has done what `iderw` asked for. -/
  | ideintr (u : ι)
  | bwrite (u : ι) (data : β)
  | logWrite (u : ι) (data : β)
  | releasesleep (u : ι)
  /-- The rest of `brelse`. -/
  | brelse (u : ι)

def Buf.id {β : Type} (b : Buf β) : BlockId := ⟨b.dev, b.blockno⟩

namespace Bcache

variable {N : ℕ} {β : Type}

def setBuf (c : Bcache N β) (b : Fin N) (x : Buf β) : Bcache N β :=
  { c with buf := update c.buf b x }

def binit (data : Fin N → β) (links : Links (Fin N)) : Bcache N β where
  buf := fun b => ⟨false, false, 0, 0, false, 0, data b⟩
  links := (List.finRange N).foldl (fun L b => L.pushFront b) links.clear

def bget (c : Bcache N β) (x : BlockId) : Option (Option (Fin N × Bcache N β)) := do
  match ← Links.walk c.links.next (fun b => (c.buf b).id = x) (N + 1) (c.links.next none) with
  | some b => return some (b, c.setBuf b { c.buf b with refcnt := (c.buf b).refcnt + 1 })
  | none =>
    match ← Links.walk c.links.prev (fun b => (c.buf b).refcnt = 0 ∧ (c.buf b).dirty = false) (N + 1)
      (c.links.prev none) with
    | some b =>
      return some (b, c.setBuf b
        { c.buf b with
          dev := x.dev
          blockno := x.blockno
          valid := false
          dirty := false
          refcnt := 1 })
    | none => return none

def brelse (c : Bcache N β) (b : Fin N) : Bcache N β :=
  let c := c.setBuf b { c.buf b with refcnt := (c.buf b).refcnt - 1 }
  if (c.buf b).refcnt = 0 then { c with links := (c.links.unlink b).pushFront b } else c

end Bcache

namespace BufUse

variable {N : ℕ}

def at? : BufUse N → Option (Fin N × BlockId)
  | idle => none
  | waiting b x => some (b, x)
  | reading b x => some (b, x)
  | holding b x => some (b, x)
  | writing b x => some (b, x)
  | releasing b x => some (b, x)

def holdsLock : BufUse N → Bool
  | reading _ _ => true
  | holding _ _ => true
  | writing _ _ => true
  | _ => false

end BufUse

namespace BufSys

variable {N : ℕ} {ι β : Type} [DecidableEq ι]

def put (s : BufSys N ι β) (b : Fin N) (x : Buf β) (u : ι) (w : BufUse N) : BufSys N ι β :=
  { s with cache := s.cache.setBuf b x, use := update s.use u w }

def next (s : BufSys N ι β) : BufEvent ι β → Option (BufSys N ι β)
  | .bread u x =>
    match s.use u with
    | .idle =>
      match s.cache.bget x with
      | some (some (b, c)) =>
        some { s with cache := c, use := update s.use u (.waiting b x) }
      | some none => some { s with panicked := true }
      | none => none
    | _ => none
  | .acquiresleep u =>
    match s.use u with
    | .waiting b x =>
      let buf := s.cache.buf b
      if buf.locked then none
      else
        -- `if ((b->flags & B_VALID) == 0) iderw(b)`
        some (s.put b { buf with locked := true } u
          (if buf.valid then .holding b x else .reading b x))
    | _ => none
  | .ideintr u =>
    match s.use u with
    | .reading b x | .writing b x =>
      let buf := s.cache.buf b
      let s := s.put b
        { buf with
          data := if buf.dirty then buf.data else s.disk buf.id
          valid := true
          dirty := false } u (.holding b x)
      some (if buf.dirty then { s with disk := update s.disk buf.id buf.data } else s)
    | _ => none
  | .bwrite u data =>
    match s.use u with
    | .holding b x =>
      some (s.put b { s.cache.buf b with data := data, dirty := true } u (.writing b x))
    | _ => none
  | .logWrite u data =>
    match s.use u with
    | .holding b x =>
      some (s.put b { s.cache.buf b with data := data, dirty := true } u (.holding b x))
    | _ => none
  | .releasesleep u =>
    match s.use u with
    | .holding b x =>
      some (s.put b { s.cache.buf b with locked := false } u (.releasing b x))
    | _ => none
  | .brelse u =>
    match s.use u with
    | .releasing b _ =>
      some { s with cache := s.cache.brelse b, use := update s.use u .idle }
    | _ => none

def step (s : BufSys N ι β) (e : BufEvent ι β) (s' : BufSys N ι β) : Prop :=
  s.panicked = false ∧ s.next e = some s'

def boot (data : Fin N → β) (links : Links (Fin N)) (disk : BlockId → β) : BufSys N ι β where
  cache := .binit data links
  disk := disk
  use := fun _ => .idle
  panicked := false

def marks (s : BufSys N ι β) : BufEvent ι β → Option (BlockId × β)
  | .bwrite u data | .logWrite u data => (s.use u).at?.map fun y => (y.2, data)
  | _ => none

def mark (c : BlockId → β) : Option (BlockId × β) → BlockId → β
  | some (x, data) => update c x data
  | none => c

def contents (s₀ : BufSys N ι β) : List (BufEvent ι β × BufSys N ι β) → BlockId → β
  | [] => s₀.disk
  | (e, _) :: π => mark (contents s₀ π) ((last s₀ π).marks e)

end BufSys

end Xv6
