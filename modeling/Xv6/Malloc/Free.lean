import Xv6.Malloc.Tiling

/-!
# `free` keeps the list

The free list is circular: from `base`, a block of size 0 below all others, through the free blocks
in the order of their addresses, and back. `free` finds the last block of the list before the one
that is freed, wherever it starts, since no other block passes its test. It joins the freed block to
the next one exactly if nothing is between them, and then the previous one to it.
-/

namespace Xv6.Umalloc

open Function Tile

/-- `base` is below the memory that `sbrk` hands out, which starts at `lo`. -/
structure Layout (base lo : ℕ) : Prop where
  pos : 0 < base
  base_lt : base < lo
  aligned : lo % 8 = 0
  lo_le : lo ≤ KERNBASE

/-- Memory with the blocks `T`, as far as their headers. -/
structure Blocks (base lo : ℕ) (s : Umalloc) (T : List Tile) : Prop where
  covers : Covers lo T s.brk
  brk_le : s.brk ≤ KERNBASE
  sizes : ∀ t ∈ T, s.size t.addr = t.size
  base_size : s.size base = 0

/-- Memory with the blocks `T`, and the free ones among them in the list. -/
structure Inv (base lo : ℕ) (s : Umalloc) (T : List Tile) : Prop where
  blocks : s.Blocks base lo T
  apart : T.IsChain Apart
  cycle : Cycle.Path s.ptr base (addrs T) base
  freep : s.freep ∈ base :: addrs T

variable {base lo a b : ℕ} {s s' : Umalloc} {T A B : List Tile} {t u : Tile}

theorem Layout.sorted (hl : Layout base lo) (h : Covers lo T b) :
    (base :: addrs T).Pairwise (· < ·) := by
  refine List.pairwise_cons.2 ⟨fun a ha => ?_, h.addrs_sorted⟩
  obtain ⟨t, ht, -, rfl⟩ := mem_addrs.1 ha
  have hbase := hl.base_lt
  have hlo := (h.mem ht).1
  omega

theorem Layout.nodup (hl : Layout base lo) (h : Covers lo T b) : (base :: addrs T).Nodup :=
  (hl.sorted h).imp fun hlt => Nat.ne_of_lt hlt

theorem Blocks.lt_word (h : s.Blocks base lo T) (ht : t ∈ T) : t.stop < 4294967296 := by
  have hstop := (h.covers.mem ht).2.1
  have hbrk := h.brk_le
  unfold KERNBASE at hbrk
  omega

theorem Covers.split (h : Covers lo (A ++ t :: B) b) :
    Covers lo A t.addr ∧ 0 < t.size ∧ Covers t.stop B b := by
  obtain ⟨c, hA, haddr, hsize, hB⟩ := covers_append.1 h
  rw [haddr]
  exact ⟨hA, hsize, hB⟩

/-! ## The loop -/

theorem Layout.mem_lt (hl : Layout base lo) (h : Covers lo (A ++ t :: B) b) :
    (∀ a ∈ base :: addrs A, a < t.addr) ∧ ∀ a ∈ addrs B, t.addr < a := by
  obtain ⟨hA, hsize, hB⟩ := Covers.split h
  refine ⟨fun a ha => ?_, fun a ha => ?_⟩
  · rcases List.mem_cons.1 ha with rfl | ha
    · exact lt_of_lt_of_le hl.base_lt hA.le
    · obtain ⟨u, hu, -, rfl⟩ := mem_addrs.1 ha
      obtain ⟨-, hle, hpos, -⟩ := hA.mem hu
      unfold stop at hle
      omega
  · obtain ⟨u, hu, -, rfl⟩ := mem_addrs.1 ha
    have hle := (hB.mem hu).1
    unfold stop at hle
    omega

theorem Inv.fits_iff (hl : Layout base lo) (h : s.Inv base lo (A ++ t :: B)) (ht : t.free = false)
    (ha : a ∈ base :: addrs (A ++ t :: B)) :
    s.fits t.addr a = true ↔ a = Cycle.lastOf base (addrs A) := by
  have hcovers := h.blocks.covers
  have hsorted := hl.sorted hcovers
  have hcycle := h.cycle
  obtain ⟨hbefore, hafter⟩ := hl.mem_lt hcovers
  rw [addrs_append, addrs_cons_of_used ht] at ha hsorted hcycle
  obtain ⟨hpathA, hpathB⟩ := hcycle.split
  have hlast := Cycle.lastOf_mem base (addrs A)
  rw [← List.cons_append] at hsorted ha
  obtain ⟨hsortedA, hsortedB, hcross⟩ := List.pairwise_append.1 hsorted
  have hbase := hbefore base List.mem_cons_self
  unfold fits
  rw [decide_eq_true_iff]
  constructor
  · intro hfits
    rcases List.mem_append.1 ha with ha | ha
    · -- Between two blocks before `t` there is no place for it.
      rcases hpathA.next_mem hsortedA ha with heq | ⟨hnext, hlt⟩
      · exact heq
      · have := hbefore (s.ptr a) (List.mem_cons_of_mem base hnext)
        omega
    · -- After `t` the list goes up, and then back to `base`.
      have hlt := hafter a ha
      have hsortedB' := List.pairwise_cons.2 ⟨hcross _ hlast, hsortedB⟩
      rcases hpathB.next_mem hsortedB' (List.mem_cons_of_mem _ ha) with heq | ⟨-, hup⟩
      · have hback : s.ptr a = base := by
          rw [heq]
          exact hpathB.next_lastOf
        omega
      · omega
  · rintro rfl
    have hlt := hbefore _ hlast
    cases hB : addrs B with
    | nil =>
      rw [hB] at hpathB
      have hback : s.ptr (Cycle.lastOf base (addrs A)) = base := hpathB
      have hle : base ≤ Cycle.lastOf base (addrs A) := by
        rcases List.mem_cons.1 hlast with heq | hmem
        · exact le_of_eq heq.symm
        · exact le_of_lt ((List.pairwise_cons.1 hsortedA).1 _ hmem)
      omega
    | cons c l =>
      rw [hB] at hpathB
      have hnext := hpathB.1
      have hc := hafter c (by rw [hB]; exact List.mem_cons_self)
      omega

theorem Inv.seek_eq (hl : Layout base lo) (h : s.Inv base lo (A ++ t :: B)) (ht : t.free = false) :
    Cycle.seek s.ptr (s.fits t.addr) LOOPS s.freep = some (Cycle.lastOf base (addrs A)) := by
  have hmem : Cycle.lastOf base (addrs A) ∈ base :: addrs (A ++ t :: B) := by
    rw [addrs_append, ← List.cons_append]
    exact List.mem_append_left _ (Cycle.lastOf_mem base (addrs A))
  refine h.cycle.seek_unique h.freep hmem ((h.fits_iff hl ht hmem).2 rfl)
    (fun a ha hfits => (h.fits_iff hl ht ha).1 hfits) ?_
  have hlen := length_addrs_le (A ++ t :: B)
  have hcovers := h.blocks.covers.length_le
  have hbrk := h.blocks.brk_le
  unfold LOOPS
  unfold KERNBASE at hbrk
  omega

/-! ## The block after -/

/-- The blocks `A` and `B` with the free block `t` between them, which `t` leads on from but nothing
leads to. -/
structure Loose (base lo : ℕ) (s : Umalloc) (A : List Tile) (t : Tile) (B : List Tile) : Prop where
  blocks : s.Blocks base lo (A ++ t :: B)
  free : t.free = true
  apartA : A.IsChain Apart
  apartB : (t :: B).IsChain Apart
  before : ∃ y, Cycle.Path s.ptr base (addrs A) y
  after : Cycle.Path s.ptr t.addr (addrs B) base

theorem Blocks.uint_stop (h : s.Blocks base lo T) (ht : t ∈ T) :
    uint (t.addr + 8 * s.size t.addr) = t.stop := by
  rw [h.sizes t ht]
  exact uint_of_lt (h.lt_word ht)

theorem Layout.addr_ne (hl : Layout base lo) (h : Covers lo (A ++ t :: B) b) :
    base ≠ t.addr ∧ ∀ u, u ∈ A ∨ u ∈ B → u.addr ≠ t.addr := by
  obtain ⟨hA, hsize, hB⟩ := Covers.split h
  have hbase := hl.base_lt
  have hlo := hA.le
  refine ⟨by omega, ?_⟩
  rintro u (hu | hu)
  · obtain ⟨-, hle, hpos, -⟩ := hA.mem hu
    unfold stop at hle
    omega
  · have hle := (hB.mem hu).1
    unfold stop at hle
    omega

theorem Blocks.of_update (hl : Layout base lo) (hcovers : Covers lo (A ++ t :: B) s'.brk)
    (hbrk : s'.brk ≤ KERNBASE) (hother : ∀ u, u ∈ A ∨ u ∈ B → s.size u.addr = u.size)
    (hbase : s.size base = 0) (hsize : s'.size = update s.size t.addr t.size) :
    s'.Blocks base lo (A ++ t :: B) := by
  obtain ⟨hbase', hne⟩ := hl.addr_ne hcovers
  have hothers : ∀ u, u ∈ A ∨ u ∈ B → s'.size u.addr = u.size := by
    intro u hu
    rw [hsize, update_of_ne (hne u hu), hother u hu]
  refine ⟨hcovers, hbrk, fun u hu => ?_, ?_⟩
  · rcases List.mem_append.1 hu with hu | hu
    · exact hothers u (.inl hu)
    · rcases List.mem_cons.1 hu with rfl | hu
      · rw [hsize, update_self]
      · exact hothers u (.inr hu)
  · rw [hsize, update_of_ne hbase', hbase]

theorem Blocks.set_size (hl : Layout base lo) (h : s.Blocks base lo T)
    (hcovers : Covers lo (A ++ t :: B) s.brk) (hmem : ∀ u, u ∈ A ∨ u ∈ B → u ∈ T)
    (hbrk : s'.brk = s.brk) (hsize : s'.size = update s.size t.addr t.size) :
    s'.Blocks base lo (A ++ t :: B) := by
  refine Blocks.of_update hl ?_ ?_ (fun u hu => h.sizes u (hmem u hu)) h.base_size hsize
  · rw [hbrk]
    exact hcovers
  · rw [hbrk]
    exact h.brk_le

theorem Blocks.retag (hl : Layout base lo) (h : s.Blocks base lo (A ++ t :: B)) (free : Bool)
    (hbrk : s'.brk = s.brk) (hsize : s'.size = s.size) :
    s'.Blocks base lo (A ++ ⟨t.addr, t.size, free⟩ :: B) := by
  have hcovers : Covers lo (A ++ ⟨t.addr, t.size, free⟩ :: B) s.brk := by
    obtain ⟨b, hA, hB⟩ := covers_append.1 h.covers
    exact covers_append.2 ⟨b, hA, hB⟩
  refine h.set_size hl hcovers (fun u hu => ?_) hbrk ?_
  · rcases hu with hu | hu
    · exact List.mem_append_left _ hu
    · exact List.mem_append_right _ (List.mem_cons_of_mem t hu)
  · have ht := h.sizes t (List.mem_append_right _ List.mem_cons_self)
    show s'.size = update s.size t.addr t.size
    rw [← ht, update_eq_self, hsize]

theorem apart_head {v : Tile} (h : (t :: B).IsChain Apart) (hv : v.free = t.free) :
    (v :: B).IsChain Apart := by
  refine List.isChain_cons.2 ⟨fun u hu => ?_, h.tail⟩
  have hapart := (List.isChain_cons.1 h).1 u hu
  unfold Apart at hapart ⊢
  rwa [hv]

theorem Inv.joinNext_of_free (hl : Layout base lo) (h : s.Inv base lo (A ++ t :: u :: B))
    (ht : t.free = false) (hu : u.free = true) :
    (s.joinNext t.addr (Cycle.lastOf base (addrs A))).Loose base lo A
      ⟨t.addr, t.size + u.size, true⟩ B := by
  have hcovers := h.blocks.covers
  obtain ⟨hA, hsize, haddr, hsizeu, hB⟩ := Covers.split hcovers
  obtain ⟨hbefore, hafter⟩ := hl.mem_lt hcovers
  have hcycle := h.cycle
  rw [addrs_append, addrs_cons_of_used ht, addrs_cons_of_free hu] at hcycle
  obtain ⟨hpathA, hpathB⟩ := hcycle.split
  have hnext : s.ptr (Cycle.lastOf base (addrs A)) = u.addr := hpathB.1
  have htmem : t ∈ A ++ t :: u :: B := by simp
  have humem : u ∈ A ++ t :: u :: B := by simp
  have hsum : uint (s.size t.addr + s.size u.addr) = t.size + u.size := by
    rw [h.blocks.sizes t htmem, h.blocks.sizes u humem]
    have hword := h.blocks.lt_word humem
    unfold stop at hword haddr
    exact uint_of_lt (by omega)
  have hstop : (⟨t.addr, t.size + u.size, true⟩ : Tile).stop = u.stop := by
    unfold stop at haddr ⊢
    dsimp only
    omega
  rw [joinNext, h.blocks.uint_stop htmem, hnext, if_pos haddr.symm, hsum]
  refine ⟨h.blocks.set_size hl ?_ ?_ rfl rfl, rfl, h.apart.left_of_append, ?_, ?_, ?_⟩
  · refine covers_append.2 ⟨t.addr, hA, rfl, Nat.add_pos_left hsize _, ?_⟩
    rw [hstop]
    exact hB
  · rintro v (hv | hv)
    · exact List.mem_append_left _ hv
    · simp [hv]
  · exact apart_head h.apart.right_of_append.tail hu.symm
  · exact ⟨_, hpathA.update_of_notMem (fun hmem => Nat.lt_irrefl _ (hbefore _ hmem)) _⟩
  · refine hpathB.2.enter fun hmem => ?_
    have hlt := hafter t.addr (by rw [addrs_cons_of_free hu]; exact List.mem_cons_of_mem _ hmem)
    exact Nat.lt_irrefl _ hlt

theorem Inv.joinNext_of_used (hl : Layout base lo) (h : s.Inv base lo (A ++ t :: B))
    (ht : t.free = false) (hB : ∀ u ∈ B.head?, u.free = false) :
    (s.joinNext t.addr (Cycle.lastOf base (addrs A))).Loose base lo A ⟨t.addr, t.size, true⟩ B := by
  have hcovers := h.blocks.covers
  obtain ⟨hA, hsize, hcoversB⟩ := Covers.split hcovers
  obtain ⟨hbefore, hafter⟩ := hl.mem_lt hcovers
  have hcycle := h.cycle
  rw [addrs_append, addrs_cons_of_used ht] at hcycle
  obtain ⟨hpathA, hpathB⟩ := hcycle.split
  have hnext : t.stop ≠ s.ptr (Cycle.lastOf base (addrs A)) := by
    have hbase := hl.base_lt
    have hlo := hA.le
    cases B with
    | nil =>
      have hback : s.ptr (Cycle.lastOf base (addrs A)) = base := hpathB
      rw [hback]
      unfold stop
      omega
    | cons u B =>
      obtain ⟨haddr, hsizeu, hrest⟩ := hcoversB
      rw [addrs_cons_of_used (hB u rfl)] at hpathB
      cases hfirst : addrs B with
      | nil =>
        rw [hfirst] at hpathB
        have hback : s.ptr (Cycle.lastOf base (addrs A)) = base := hpathB
        rw [hback]
        unfold stop
        omega
      | cons c l =>
        -- There is the used block `u` between `t` and the next free one.
        rw [hfirst] at hpathB
        obtain ⟨v, hv, -, hvc⟩ := mem_addrs.1 (hfirst ▸ List.mem_cons_self : c ∈ addrs B)
        have hle := (hrest.mem hv).1
        rw [hpathB.1]
        unfold stop at hle haddr ⊢
        omega
  rw [joinNext, h.blocks.uint_stop (List.mem_append_right _ List.mem_cons_self), if_neg hnext]
  refine ⟨h.blocks.retag hl true rfl rfl, rfl, h.apart.left_of_append, ?_, ?_, ?_⟩
  · exact List.isChain_cons.2 ⟨fun u hu => apart_of_right (hB u hu), h.apart.right_of_append.tail⟩
  · exact ⟨_, hpathA.update_of_notMem (fun hmem => Nat.lt_irrefl _ (hbefore _ hmem)) _⟩
  · exact hpathB.enter fun hmem => Nat.lt_irrefl _ (hafter _ hmem)

theorem Inv.joinNext (hl : Layout base lo) (h : s.Inv base lo (A ++ t :: B)) (ht : t.free = false) :
    ∃ z B', (s.joinNext t.addr (Cycle.lastOf base (addrs A))).Loose base lo A ⟨t.addr, z, true⟩ B' ∧
      t.size ≤ z ∧ used B' = used B := by
  cases B with
  | nil =>
    exact ⟨t.size, [], h.joinNext_of_used hl ht (fun u hu => nomatch hu), le_rfl, rfl⟩
  | cons u B =>
    cases hu : u.free with
    | true =>
      exact ⟨t.size + u.size, B, h.joinNext_of_free hl ht hu, Nat.le_add_right _ _,
        (used_cons_of_free hu).symm⟩
    | false =>
      refine ⟨t.size, u :: B, h.joinNext_of_used hl ht (fun v hv => ?_), le_rfl, rfl⟩
      cases hv
      exact hu

/-! ## The block before -/

theorem Loose.joinPrev_of_free (hl : Layout base lo) (h : s.Loose base lo (A ++ [u]) t B)
    (hu : u.free = true) :
    { s.joinPrev t.addr u.addr with freep := u.addr }.Inv base lo
      (A ++ (⟨u.addr, u.size + t.size, true⟩ : Tile) :: B) := by
  have hblocks := h.blocks
  rw [List.append_assoc, List.singleton_append] at hblocks
  obtain ⟨hA, hsizeu, haddr, hsize, hB⟩ := Covers.split hblocks.covers
  obtain ⟨hbefore, hafter⟩ := hl.mem_lt hblocks.covers
  have htmem : t ∈ A ++ u :: t :: B := by simp
  have humem : u ∈ A ++ u :: t :: B := by simp
  have hsum : uint (s.size u.addr + s.size t.addr) = u.size + t.size := by
    rw [hblocks.sizes t htmem, hblocks.sizes u humem]
    have hword := hblocks.lt_word htmem
    unfold stop at hword haddr
    exact uint_of_lt (by omega)
  have hstop : (⟨u.addr, u.size + t.size, true⟩ : Tile).stop = t.stop := by
    unfold stop at haddr ⊢
    dsimp only
    omega
  rw [joinPrev, hblocks.uint_stop humem, if_pos haddr.symm, hsum]
  refine ⟨hblocks.set_size hl ?_ ?_ rfl rfl, ?_, ?_, ?_⟩
  · refine covers_append.2 ⟨u.addr, hA, rfl, Nat.add_pos_left hsizeu _, ?_⟩
    rw [hstop]
    exact hB
  · rintro v (hv | hv)
    · exact List.mem_append_left _ hv
    · simp [hv]
  · obtain ⟨hapartA, -, hlast⟩ := List.isChain_append.1 h.apartA
    refine hapartA.append (apart_head h.apartB h.free.symm) fun v hv w hw => ?_
    cases hw
    intro hfree
    exact hlast v hv u rfl ⟨hfree.1, hu⟩
  · obtain ⟨y, hpath⟩ := h.before
    rw [addrs_append, addrs_cons_of_free hu] at hpath
    rw [addrs_append, addrs_cons_of_free rfl]
    refine Cycle.path_append.2 ⟨(Cycle.path_append.1 hpath).1.update_of_notMem ?_ _,
      h.after.enter ?_⟩
    · exact fun hmem => Nat.lt_irrefl _ (hbefore _ hmem)
    · intro hmem
      refine Nat.lt_irrefl _ (hafter u.addr ?_)
      rw [addrs_cons_of_free h.free]
      exact List.mem_cons_of_mem _ hmem
  · simp [addrs_cons_of_free]

theorem Loose.stop_ne (hl : Layout base lo) (h : s.Loose base lo A t B)
    (hA : ∀ u ∈ A.getLast?, u.free = false) (ha : a ∈ base :: addrs A) :
    uint (a + 8 * s.size a) ≠ t.addr := by
  have hblocks := h.blocks
  obtain ⟨hcoversA, -, -⟩ := Covers.split hblocks.covers
  rcases List.mem_cons.1 ha with rfl | ha
  · have hbase := hl.base_lt
    have hlo := hcoversA.le
    have hbrk := hblocks.covers.le
    have hword := hblocks.brk_le
    unfold KERNBASE at hword
    rw [hblocks.base_size, uint_of_lt (by omega)]
    omega
  · obtain ⟨v, hv, hvfree, rfl⟩ := mem_addrs.1 ha
    rw [hblocks.uint_stop (List.mem_append_left _ hv)]
    rcases List.eq_nil_or_concat' A with rfl | ⟨L, u, rfl⟩
    · cases hv
    · have hu : u.free = false := hA u (by simp)
      have hvL : v ∈ L := by
        rcases List.mem_append.1 hv with hv | hv
        · exact hv
        · rw [List.mem_singleton.1 hv, hu] at hvfree
          cases hvfree
      obtain ⟨b, hcoversL, haddr, hsize, hstop⟩ := covers_append.1 hcoversA
      have hle := (hcoversL.mem hvL).2.1
      have hlast : u.stop = t.addr := hstop
      unfold stop at hle hlast ⊢
      omega

theorem Loose.joinPrev_of_used (hl : Layout base lo) (h : s.Loose base lo A t B)
    (hA : ∀ u ∈ A.getLast?, u.free = false) :
    { s.joinPrev t.addr (Cycle.lastOf base (addrs A)) with
      freep := Cycle.lastOf base (addrs A) }.Inv base lo (A ++ t :: B) := by
  have hcovers := h.blocks.covers
  have hlast := Cycle.lastOf_mem base (addrs A)
  have hnodup := hl.nodup hcovers
  rw [addrs_append, addrs_cons_of_free h.free] at hnodup
  obtain ⟨y, hpath⟩ := h.before
  rw [joinPrev, if_neg (h.stop_ne hl hA hlast)]
  refine ⟨⟨hcovers, h.blocks.brk_le, h.blocks.sizes, h.blocks.base_size⟩, ?_, ?_, ?_⟩
  · exact h.apartA.append h.apartB fun u hu v _ => apart_of_left (hA u hu)
  · rw [addrs_append, addrs_cons_of_free h.free]
    exact hpath.insert h.after hnodup
  · rw [addrs_append, ← List.cons_append]
    exact List.mem_append_left _ hlast

theorem Loose.joinPrev (hl : Layout base lo) (h : s.Loose base lo A t B) :
    ∃ T, { s.joinPrev t.addr (Cycle.lastOf base (addrs A)) with
        freep := Cycle.lastOf base (addrs A) }.Inv base lo T ∧
      used T = used A ++ used B ∧ ∃ u ∈ T, u.free = true ∧ t.size ≤ u.size := by
  have hnot : (∀ u ∈ A.getLast?, u.free = false) ∨ ∃ L u, A = L ++ [u] ∧ u.free = true := by
    rcases List.eq_nil_or_concat' A with rfl | ⟨L, u, rfl⟩
    · exact .inl fun u hu => nomatch hu
    · cases hu : u.free with
      | true => exact .inr ⟨L, u, rfl, hu⟩
      | false =>
        refine .inl fun v hv => ?_
        rw [List.getLast?_concat] at hv
        rwa [← Option.some.inj hv]
  rcases hnot with hused | ⟨L, u, rfl, hu⟩
  · refine ⟨A ++ t :: B, h.joinPrev_of_used hl hused, ?_, t, by simp, h.free, le_rfl⟩
    rw [used_append, used_cons_of_free h.free]
  · have hlast : Cycle.lastOf base (addrs (L ++ [u])) = u.addr := by
      rw [addrs_append, addrs_cons_of_free hu]
      exact Cycle.lastOf_append base (addrs L) u.addr
    rw [hlast]
    refine ⟨_, h.joinPrev_of_free hl hu, ?_, ⟨u.addr, u.size + t.size, true⟩, by simp, rfl,
      Nat.le_add_left _ _⟩
    rw [used_append, used_append, used_cons_of_free rfl, used_cons_of_free hu, used_nil,
      List.append_nil]

theorem brk_join (bp p q : ℕ) (s : Umalloc) : ((s.joinNext bp p).joinPrev bp q).brk = s.brk := by
  unfold joinPrev joinNext
  repeat' split
  all_goals rfl

theorem Inv.free (hl : Layout base lo) (h : s.Inv base lo (A ++ t :: B)) (ht : t.free = false) :
    ∃ s' T', s.free (t.addr + 8) = some s' ∧ s'.Inv base lo T' ∧ s'.brk = s.brk ∧
      used T' = used A ++ used B ∧ ∃ u ∈ T', u.free = true ∧ t.size ≤ u.size := by
  have hword := h.blocks.lt_word (List.mem_append_right _ (List.mem_cons_self : t ∈ t :: B))
  have hbp : uint (4294967288 + (t.addr + 8)) = t.addr := by
    unfold stop at hword
    simp only [uint]
    omega
  obtain ⟨z, B', hloose, hz, hused⟩ := h.joinNext hl ht
  obtain ⟨T', hinv, hused', u, hu, hfree, hle⟩ := hloose.joinPrev hl
  refine ⟨_, T', ?_, hinv, ?_, ?_, u, hu, hfree, hz.trans hle⟩
  · rw [Umalloc.free, hbp, h.seek_eq hl ht]
    rfl
  · exact brk_join _ _ _ s
  · rw [hused', hused]

end Xv6.Umalloc
