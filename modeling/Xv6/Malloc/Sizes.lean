import Xv6.Malloc.Runs

/-!
# Large requests

The size of a request is rounded up to units and a header is added, `morecore` turns the units into
bytes again, and `sbrk` takes these for an `int`; each of the three can wrap around. From 2147483633
bytes on one of them does. Up to there, a block has room for what was asked for, and `sbrk` is asked
for a positive number of bytes.
-/

namespace Xv6.Umalloc

open Tile

variable {nu n : ℕ} {s s' : Umalloc} {ok : Bool} {x : ℕ × Umalloc}

theorem fits_iff {nbytes : ℕ} (h : nbytes < 4294967296) :
    Fits nbytes ↔ 0 < increment (nunits nbytes) ∧ nbytes + 8 ≤ 8 * nunits nbytes := by
  unfold Fits increment nunits sint
  simp only [uint]
  split <;> split <;> omega

/-! ## The end of memory -/

theorem free_brk {ap : ℕ} (h : s.free ap = some s') : s'.brk = s.brk := by
  obtain ⟨p, -, rfl⟩ := Option.map_eq_some_iff.1 h
  exact brk_join _ _ _ s

theorem take_brk (n prevp p : ℕ) (s : Umalloc) : (s.take n prevp p).2.brk = s.brk := by
  unfold take
  split <;> rfl

theorem morecore_brk (hpos : 0 < increment nu) (h : morecore ok nu s = some x) :
    s.brk ≤ x.2.brk := by
  rw [morecore, sbrk, if_pos hpos.le] at h
  split at h
  · cases h
    exact le_rfl
  · rename_i hp s₁ hsbrk
    split at hsbrk
    · cases hsbrk
      obtain ⟨s', hfree, rfl⟩ := Option.map_eq_some_iff.1 h
      rw [free_brk hfree]
      exact Nat.le_add_right ..
    · cases hsbrk

theorem mallocLoop_brk (hpos : 0 < increment n) {fuel prevp p : ℕ}
    (h : mallocLoop ok n fuel prevp p s = some x) : s.brk ≤ x.2.brk := by
  induction fuel generalizing prevp p s with
  | zero => cases h
  | succ fuel ih =>
    unfold mallocLoop at h
    split at h
    · cases h
      exact (take_brk n prevp p s).ge
    · split at h
      · cases hmore : morecore ok n s with
        | none =>
          rw [hmore] at h
          cases h
        | some y =>
          rw [hmore] at h
          have hle := morecore_brk hpos hmore
          dsimp only at h
          split at h
          · cases h
            exact hle
          · exact hle.trans (ih h)
      · exact ih h

theorem malloc_brk {base nbytes : ℕ} (hpos : 0 < increment (nunits nbytes))
    (h : s.malloc base ok nbytes = some x) : s.brk ≤ x.2.brk := by
  have hstart : (s.start base).brk = s.brk := by
    unfold start
    split <;> rfl
  rw [← hstart]
  exact mallocLoop_brk hpos h

end Xv6.Umalloc

namespace Xv6.Alloced

open Run Tile Umalloc

variable {base lo : ℕ} {s₀ : Alloced} {π : List (AllocEvent × Alloced)}

/-- In a program that never asks for more than 2147483632 bytes, `malloc` asks `sbrk` for a positive
number of bytes, and returns 0 or a block in the memory of the program that has room for what was
asked for. -/
theorem malloc_has_room (hl : Umalloc.Layout base lo) (h₀ : s₀.Fresh lo)
    (hπ : IsRun (step base) s₀ π) (hfits : Meets Fits s₀ π) {nbytes : ℕ}
    (hn : nbytes ≤ 2147483632) (ok : Bool) :
    0 < increment (nunits nbytes) ∧
    ∃ x, (last s₀ π).heap.malloc base ok nbytes = some x ∧ (last s₀ π).heap.brk ≤ x.2.brk ∧
      (x.1 = 0 ∨ 8 ≤ x.1 ∧ nbytes + 8 ≤ 8 * x.2.size (x.1 - 8) ∧ x.1 + nbytes ≤ x.2.brk) := by
  have hfit : Umalloc.Fits nbytes := by
    unfold Umalloc.Fits
    omega
  have hpos := ((fits_iff (by omega)).1 hfit).1
  obtain ⟨T, h⟩ := hπ.invariant_of_meets (I := fun s => ∃ T, Good base lo s T) ⟨[], h₀.good⟩
    (fun _ _ _ hI hC hs => Good.step hl hI hC hs) hfits
  obtain ⟨x, heq, hx⟩ := h.listed.malloc hl hfit ok
  refine ⟨hpos, x, heq, malloc_brk hpos heq, ?_⟩
  rcases hx with ⟨T', t, hinv, ht, hsize, hr, -⟩ | ⟨hr, -⟩
  · right
    obtain ⟨-, hstop, -, -⟩ := hinv.blocks.covers.mem ht
    rw [hr, Nat.add_sub_cancel, hinv.blocks.sizes t ht]
    unfold stop at hstop
    exact ⟨Nat.le_add_left .., by omega, by omega⟩
  · exact .inl hr

/-- After three requests and a `free`, one for 40000 bytes gets a block of new memory. -/
theorem malloc_has_room_three :
    ∃ π, IsRun (step 4096) fresh π ∧ Meets Fits fresh π ∧ π.length = 5 ∧
      0 < increment (nunits 40000) ∧
      ∃ x, (last fresh π).heap.malloc 4096 true 40000 = some x ∧ x.1 = 40968 ∧
        40000 + 8 ≤ 8 * x.2.size 40960 ∧ 40968 + 40000 ≤ x.2.brk := by
  have heval : (history (tick (next 4096)) fresh [] threeBlocks).map (fun π =>
      (decide (Meets Fits fresh π), π.length,
        ((last fresh π).heap.malloc 4096 true 40000).map Prod.fst)) =
      some (true, 5, some 40968) := by
    decide +kernel
  obtain ⟨π, hrun, hsees⟩ := exists_run_tick heval
  simp only [Prod.mk.injEq, decide_eq_true_eq] at hsees
  obtain ⟨hfits, hlen, hmalloc⟩ := hsees
  have hlayout : Umalloc.Layout 4096 8192 := ⟨by decide, by decide, by decide, by decide⟩
  obtain ⟨hpos, x, hx, -, hroom⟩ := malloc_has_room hlayout ⟨rfl, rfl, rfl⟩ hrun hfits
    (show 40000 ≤ 2147483632 by decide) true
  have haddr : x.1 = 40968 := by
    rw [hx] at hmalloc
    exact Option.some.inj hmalloc
  rw [haddr] at hroom
  obtain ⟨-, hsize, hbrk⟩ := hroom.resolve_left (by decide)
  exact ⟨π, hrun, hfits, hlen, hpos, x, hx, haddr, hsize, hbrk⟩

/-- A request for 4294967295 bytes gets a block of one unit, its header. One for 2147483648 bytes asks
`sbrk` for a negative number, and one for 4294967288 bytes for 0. -/
theorem malloc_wraps :
    (∃ x, fresh.heap.malloc 4096 true 4294967295 = some x ∧ x.1 = 40960 ∧ x.2.size 40952 = 1) ∧
    increment (nunits 2147483648) = -2147483640 ∧ increment (nunits 4294967288) = 0 := by
  have hone : (fresh.heap.malloc 4096 true 4294967295).map (fun x => (x.1, x.2.size 40952)) =
      some (40960, 1) := by
    decide +kernel
  obtain ⟨x, hx, hsees⟩ := Option.map_eq_some_iff.1 hone
  obtain ⟨haddr, hsize⟩ := Prod.mk.inj hsees
  exact ⟨⟨x, hx, haddr, hsize⟩, by decide +kernel, by decide +kernel⟩

end Xv6.Alloced
