import Xv6.Memlayout
import Xv6.Lib.Run
import Xv6.Lib.Word
import Xv6.Lib.Cycle
import Mathlib.Tactic.Common

/-!
# The memory allocator of user programs

`malloc`, `morecore` and `free` of `umalloc.c`. Memory is used in units of a `Header`, 8 bytes; a unit
is named by its address, and has the two fields of a header. A program may store anything into the
units of a block that it has been given.

`sbrk` fails, or hands out the memory after the one that it handed out before, up to `KERNBASE`; its
argument is an `int`. The loops run at most `LOOPS` times here, which no list in a 32-bit address space reaches.
-/

namespace Xv6

open Function Run

def LOOPS : ℕ := 4294967296

/-- The memory of a program, as far as its allocator uses it: the two fields of a header at each
address, `freep`, and the end of the memory obtained from `sbrk`. -/
structure Umalloc where
  ptr : ℕ → ℕ
  size : ℕ → ℕ
  freep : ℕ
  brk : ℕ

namespace Umalloc

def fits (s : Umalloc) (bp p : ℕ) : Bool :=
  p < bp ∧ bp < s.ptr p ∨ s.ptr p ≤ p ∧ (p < bp ∨ bp < s.ptr p)

def joinNext (s : Umalloc) (bp p : ℕ) : Umalloc :=
  if uint (bp + 8 * s.size bp) = s.ptr p then
    { s with
      size := update s.size bp (uint (s.size bp + s.size (s.ptr p)))
      ptr := update s.ptr bp (s.ptr (s.ptr p)) }
  else { s with ptr := update s.ptr bp (s.ptr p) }

def joinPrev (s : Umalloc) (bp p : ℕ) : Umalloc :=
  if uint (p + 8 * s.size p) = bp then
    { s with
      size := update s.size p (uint (s.size p + s.size bp))
      ptr := update s.ptr p (s.ptr bp) }
  else { s with ptr := update s.ptr p bp }

def free (s : Umalloc) (ap : ℕ) : Option Umalloc :=
  let bp := uint (4294967288 + ap)
  (Cycle.seek s.ptr (s.fits bp) LOOPS s.freep).map fun p =>
    { (s.joinNext bp p).joinPrev bp p with freep := p }

def sbrk (ok : Bool) (n : ℤ) (s : Umalloc) : Option (ℕ × Umalloc) :=
  if 0 ≤ n then
    if ok = true ∧ s.brk + n.toNat ≤ KERNBASE then some (s.brk, { s with brk := s.brk + n.toNat })
    else none
  else if s.brk ≤ uintOf (s.brk + n) then some (s.brk, s)
  else if uintOf (s.brk + n) = 0 then none
  else some (s.brk, { s with brk := uintOf (s.brk + n) })

def increment (nu : ℕ) : ℤ := sint (uint ((if nu < 4096 then 4096 else nu) * 8))

def morecore (ok : Bool) (nu : ℕ) (s : Umalloc) : Option (ℕ × Umalloc) :=
  match sbrk ok (increment nu) s with
  | none => some (0, s)
  | some (hp, s) =>
    (free { s with size := update s.size hp (if nu < 4096 then 4096 else nu) }
      (uint (hp + 8))).map fun s => (s.freep, s)

def take (nunits prevp p : ℕ) (s : Umalloc) : ℕ × Umalloc :=
  if s.size p = nunits then
    (uint (p + 8), { s with ptr := update s.ptr prevp (s.ptr p), freep := prevp })
  else
    let q := uint (p + 8 * (s.size p - nunits))
    (uint (q + 8),
      { s with
        size := update (update s.size p (s.size p - nunits)) q nunits
        freep := prevp })

/-- The loop of `malloc`. -/
def mallocLoop (ok : Bool) (nunits : ℕ) : ℕ → ℕ → ℕ → Umalloc → Option (ℕ × Umalloc)
  | 0, _, _, _ => none
  | fuel + 1, prevp, p, s =>
    if nunits ≤ s.size p then some (s.take nunits prevp p)
    else if p = s.freep then
      match morecore ok nunits s with
      | none => none
      | some (p, s) => if p = 0 then some (0, s) else mallocLoop ok nunits fuel p (s.ptr p) s
    else mallocLoop ok nunits fuel p (s.ptr p) s

def nunits (nbytes : ℕ) : ℕ := uint (uint (nbytes + 7) / 8 + 1)

def start (base : ℕ) (s : Umalloc) : Umalloc :=
  if s.freep = 0 then
    { s with
      ptr := update s.ptr base base
      size := update s.size base 0
      freep := base }
  else s

def malloc (base : ℕ) (ok : Bool) (nbytes : ℕ) (s : Umalloc) : Option (ℕ × Umalloc) :=
  let s := s.start base
  mallocLoop ok (nunits nbytes) (2 * LOOPS) s.freep (s.ptr s.freep) s

end Umalloc

/-- A program: its allocator, and the blocks that it has been given and has not freed, with the sizes
that it asked for. -/
structure Alloced where
  heap : Umalloc
  live : List (ℕ × ℕ)

/-- A program calls `malloc`, where `sbrk` finds memory or not, it calls `free`, or it stores
something into one unit. -/
inductive AllocEvent
  | malloc (nbytes : ℕ) (ok : Bool)
  | free (ap : ℕ)
  | store (a ptr size : ℕ)
  deriving DecidableEq

namespace Alloced

def next (base : ℕ) (s : Alloced) : AllocEvent → Option Alloced
  | .malloc nbytes ok =>
    (s.heap.malloc base ok nbytes).map fun x =>
      ⟨x.2, if x.1 = 0 then s.live else (x.1, nbytes) :: s.live⟩
  | .free ap =>
    if ap ∈ s.live.map Prod.fst then
      (s.heap.free ap).map fun heap => ⟨heap, s.live.filter fun x => x.1 ≠ ap⟩
    else none
  | .store a ptr size =>
    if s.live.any (fun x => x.1 ≤ a ∧ a < x.1 + x.2 ∧ (a - x.1) % 8 = 0) then
      some { s with heap := { s.heap with
        ptr := update s.heap.ptr a ptr
        size := update s.heap.size a size } }
    else none

def step (base : ℕ) (s : Alloced) (e : AllocEvent) (s' : Alloced) : Prop := s.next base e = some s'

end Alloced

end Xv6
