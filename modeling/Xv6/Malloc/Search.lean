import Xv6.Malloc.Free

/-!
# `malloc` keeps the list

`malloc` goes once around the list from `freep` on. It takes a block that is large enough out of the
list, or the end of a larger one. If there is none it is back at `freep`; `morecore` then frees a new
block at the end of memory, and the loop goes around once more. This time it finds one.
-/

namespace Xv6.Umalloc

open Function Tile

variable {base lo a n : ℕ} {s s' : Umalloc} {T A B : List Tile} {t : Tile} {ok : Bool}

def Fits (nbytes : ℕ) : Prop := 8 * ((nbytes + 7) / 8 + 1) < 2147483648

def Took (base lo : ℕ) (T : List Tile) (n : ℕ) (x : ℕ × Umalloc) : Prop :=
  ∃ T' t, x.2.Inv base lo T' ∧ t ∈ T' ∧ t.size = n ∧ x.1 = t.addr + 8 ∧ (used T').Perm (t :: used T)

theorem nunits_eq {nbytes : ℕ} (h : Fits nbytes) : nunits nbytes = (nbytes + 7) / 8 + 1 := by
  unfold Fits at h
  unfold nunits
  rw [uint_of_lt (show nbytes + 7 < 4294967296 by omega), uint_of_lt (by omega)]

/-! ## Taking a block -/

theorem Inv.take_all (hl : Layout base lo) (h : s.Inv base lo (A ++ t :: B)) (ht : t.free = true)
    (hsize : t.size = n) :
    Took base lo (A ++ t :: B) n (s.take n (Cycle.lastOf base (addrs A)) t.addr) := by
  have htmem : t ∈ A ++ t :: B := List.mem_append_right _ List.mem_cons_self
  have hword := h.blocks.lt_word htmem
  have hpos := (h.blocks.covers.mem htmem).2.2.1
  have hcycle := h.cycle
  have hnodup := hl.nodup h.blocks.covers
  rw [addrs_append, addrs_cons_of_free ht] at hcycle hnodup
  rw [take, h.blocks.sizes t htmem, if_pos hsize]
  refine ⟨A ++ ⟨t.addr, t.size, false⟩ :: B, ⟨t.addr, t.size, false⟩, ⟨?_, ?_, ?_, ?_⟩,
    by simp, hsize, ?_, ?_⟩
  · exact h.blocks.retag hl false rfl rfl
  · obtain ⟨hA, hB, hjoin⟩ := List.isChain_append.1 h.apart
    refine hA.append (List.isChain_cons.2 ⟨fun u _ => apart_of_left rfl, hB.tail⟩) fun u _ v hv => ?_
    cases hv
    exact apart_of_right rfl
  · rw [addrs_append, addrs_cons_of_used rfl]
    exact hcycle.remove hnodup
  · rw [addrs_append, addrs_cons_of_used rfl, ← List.cons_append]
    exact List.mem_append_left _ (Cycle.lastOf_mem base (addrs A))
  · unfold stop at hword
    exact uint_of_lt (by omega)
  · rw [used_append, used_cons_of_used rfl, used_append, used_cons_of_free ht]
    exact List.perm_middle

theorem Inv.take_end (hl : Layout base lo) (h : s.Inv base lo (A ++ t :: B)) (ht : t.free = true)
    (hn : 0 < n) (hsize : n < t.size) :
    Took base lo (A ++ t :: B) n (s.take n (Cycle.lastOf base (addrs A)) t.addr) := by
  have htmem : t ∈ A ++ t :: B := List.mem_append_right _ List.mem_cons_self
  have hword := h.blocks.lt_word htmem
  obtain ⟨hA, hpos, hB⟩ := Covers.split h.blocks.covers
  obtain ⟨hbase, hne⟩ := hl.addr_ne h.blocks.covers
  have hq : uint (t.addr + 8 * (t.size - n)) = t.addr + 8 * (t.size - n) := by
    unfold stop at hword
    exact uint_of_lt (by omega)
  have hstop : (⟨t.addr + 8 * (t.size - n), n, false⟩ : Tile).stop = t.stop := by
    unfold stop
    dsimp only
    omega
  have hcovers : Covers lo ((A ++ [⟨t.addr, t.size - n, true⟩]) ++
      ⟨t.addr + 8 * (t.size - n), n, false⟩ :: B) s.brk := by
    refine covers_append.2 ⟨t.addr + 8 * (t.size - n), covers_append.2 ⟨t.addr, hA, ?_⟩, rfl, hn, ?_⟩
    · exact ⟨rfl, Nat.sub_pos_of_lt hsize, rfl⟩
    · rw [hstop]
      exact hB
  rw [take, h.blocks.sizes t htmem, if_neg (Nat.ne_of_gt hsize), hq]
  refine ⟨(A ++ [⟨t.addr, t.size - n, true⟩]) ++ ⟨t.addr + 8 * (t.size - n), n, false⟩ :: B,
    ⟨t.addr + 8 * (t.size - n), n, false⟩, ⟨?_, ?_, ?_, ?_⟩, by simp, rfl, ?_, ?_⟩
  · refine Blocks.of_update (s := { s with size := update s.size t.addr (t.size - n) }) hl
      hcovers h.blocks.brk_le (fun u hu => ?_) ?_ rfl
    · show update s.size t.addr (t.size - n) u.addr = u.size
      have hold : ∀ u, u ∈ A ∨ u ∈ B → update s.size t.addr (t.size - n) u.addr = u.size := by
        intro u hu
        rw [update_of_ne (hne u hu)]
        refine h.blocks.sizes u ?_
        rcases hu with hu | hu
        · exact List.mem_append_left _ hu
        · exact List.mem_append_right _ (List.mem_cons_of_mem t hu)
      rcases hu with hu | hu
      · rcases List.mem_append.1 hu with hu | hu
        · exact hold u (.inl hu)
        · obtain rfl := List.mem_singleton.1 hu
          exact update_self ..
      · exact hold u (.inr hu)
    · show update s.size t.addr (t.size - n) base = 0
      rw [update_of_ne hbase]
      exact h.blocks.base_size
  · obtain ⟨hapartA, hapartB, hjoin⟩ := List.isChain_append.1 h.apart
    rw [List.append_assoc, List.singleton_append]
    refine hapartA.append (List.isChain_cons_cons.2 ⟨apart_of_right rfl, ?_⟩) ?_
    · exact List.isChain_cons.2 ⟨fun u _ => apart_of_left rfl, hapartB.tail⟩
    · intro u hu v hv hfree
      cases hv
      exact hjoin u hu t rfl ⟨hfree.1, ht⟩
  · have hcycle := h.cycle
    rw [addrs_append, addrs_cons_of_free ht] at hcycle
    rw [List.append_assoc, List.singleton_append, addrs_append, addrs_cons_of_free rfl,
      addrs_cons_of_used rfl]
    exact hcycle
  · rw [List.append_assoc, addrs_append, ← List.cons_append]
    exact List.mem_append_left _ (Cycle.lastOf_mem base (addrs A))
  · unfold stop at hword
    exact uint_of_lt (by omega)
  · rw [List.append_assoc, List.singleton_append, used_append, used_cons_of_free rfl,
      used_cons_of_used rfl, used_append, used_cons_of_free ht]
    exact List.perm_middle

theorem Inv.take (hl : Layout base lo) (h : s.Inv base lo T) (hn : 0 < n) {prevp p : ℕ}
    (hprevp : prevp ∈ base :: addrs T) (hp : p ∈ base :: addrs T) (hptr : s.ptr prevp = p)
    (hsize : n ≤ s.size p) : Took base lo T n (s.take n prevp p) := by
  have hpT : p ∈ addrs T := by
    refine (List.mem_cons.1 hp).resolve_left fun hbase => ?_
    rw [hbase, h.blocks.base_size] at hsize
    omega
  obtain ⟨t, ht, hfree, rfl⟩ := mem_addrs.1 hpT
  rw [h.blocks.sizes t ht] at hsize
  obtain ⟨A, B, rfl⟩ := List.append_of_mem ht
  -- Only the block before `t` leads to it.
  have hcycle := h.cycle
  rw [addrs_append, addrs_cons_of_free hfree] at hcycle
  have hbefore : s.ptr (Cycle.lastOf base (addrs A)) = t.addr :=
    (Cycle.path_append.1 hcycle).1.next_lastOf
  have hmem : Cycle.lastOf base (addrs A) ∈ base :: addrs (A ++ t :: B) := by
    rw [addrs_append, ← List.cons_append]
    exact List.mem_append_left _ (Cycle.lastOf_mem base (addrs A))
  obtain rfl : prevp = Cycle.lastOf base (addrs A) :=
    h.cycle.next_inj (hl.nodup h.blocks.covers) hprevp hmem (hptr.trans hbefore.symm)
  rcases Nat.lt_or_eq_of_le hsize with hlt | heq
  · exact h.take_end hl hfree hn hlt
  · exact h.take_all hl hfree heq.symm

/-! ## The loop -/

def grow (ok : Bool) (n fuel : ℕ) (s : Umalloc) : Option (ℕ × Umalloc) :=
  match morecore ok n s with
  | none => none
  | some (p, s) => if p = 0 then some (0, s) else mallocLoop ok n fuel p (s.ptr p) s

theorem mallocLoop_eq {x : ℕ} {l : List ℕ} (h : Cycle.Path s.ptr x l s.freep) (hl : s.freep ∉ l)
    {fuel : ℕ} (hfuel : l.length < fuel) :
    (∃ y a, y ∈ x :: l ∧ a ∈ l ++ [s.freep] ∧ s.ptr y = a ∧ n ≤ s.size a ∧
      mallocLoop ok n fuel x (s.ptr x) s = some (s.take n y a)) ∨
    ((∀ a ∈ l ++ [s.freep], s.size a < n) ∧
      mallocLoop ok n fuel x (s.ptr x) s = grow ok n (fuel - (l.length + 1)) s) := by
  induction l generalizing x fuel with
  | nil =>
    obtain ⟨k, rfl⟩ := Nat.exists_eq_succ_of_ne_zero (Nat.ne_zero_of_lt hfuel)
    have hx : s.ptr x = s.freep := h
    rw [mallocLoop, hx]
    split
    · exact .inl ⟨x, s.freep, List.mem_cons_self, List.mem_cons_self, hx, ‹_›, rfl⟩
    · rename_i hsize
      refine .inr ⟨fun a ha => ?_, if_pos rfl⟩
      rw [List.mem_singleton.1 ha]
      exact Nat.lt_of_not_le hsize
  | cons b l ih =>
    obtain ⟨k, rfl⟩ := Nat.exists_eq_succ_of_ne_zero (Nat.ne_zero_of_lt hfuel)
    rw [List.mem_cons, not_or] at hl
    rw [mallocLoop, h.1]
    split
    · exact .inl ⟨x, b, List.mem_cons_self, List.mem_cons_self, h.1, ‹_›, rfl⟩
    · rename_i hsize
      rw [if_neg (Ne.symm hl.1)]
      rcases ih h.2 hl.2 (Nat.lt_of_succ_lt_succ hfuel) with ⟨y, a, hy, ha, hfound⟩ | ⟨hall, heq⟩
      · exact .inl ⟨y, a, List.mem_cons_of_mem x hy, List.mem_cons_of_mem b ha, hfound⟩
      · refine .inr ⟨fun a ha => ?_, ?_⟩
        · rcases List.mem_cons.1 ha with rfl | ha
          · exact Nat.lt_of_not_le hsize
          · exact hall a ha
        · rw [heq, List.length_cons, Nat.succ_sub_succ]

theorem Inv.length_lt (h : s.Inv base lo T) : (addrs T).length < LOOPS := by
  have hlen := length_addrs_le T
  have hcovers := h.blocks.covers.length_le
  have hbrk := h.blocks.brk_le
  unfold LOOPS
  unfold KERNBASE at hbrk
  omega

theorem Inv.mallocLoop (hl : Layout base lo) (h : s.Inv base lo T) (hn : 0 < n) {fuel : ℕ}
    (hfuel : LOOPS ≤ fuel) :
    (∃ x, Took base lo T n x ∧ Umalloc.mallocLoop ok n fuel s.freep (s.ptr s.freep) s = some x) ∨
    ((∀ t ∈ T, t.free = true → t.size < n) ∧ ∃ k, fuel - LOOPS ≤ k ∧
      Umalloc.mallocLoop ok n fuel s.freep (s.ptr s.freep) s = grow ok n k s) := by
  obtain ⟨R, hpath, hperm⟩ := h.cycle.rotate h.freep
  have hnodup : (s.freep :: R).Nodup := hperm.nodup_iff.2 (hl.nodup h.blocks.covers)
  have hlen : R.length < LOOPS := by
    have hlt := h.length_lt
    have heq := hperm.length_eq
    rw [List.length_cons, List.length_cons] at heq
    omega
  have hmem : ∀ {a}, a ∈ R ++ [s.freep] ↔ a ∈ base :: addrs T := by
    intro a
    rw [← hperm.mem_iff, List.mem_append, List.mem_singleton, List.mem_cons, or_comm]
  rcases mallocLoop_eq hpath (List.nodup_cons.1 hnodup).1 (hlen.trans_le hfuel) with
    ⟨y, a, hy, ha, hptr, hsize, heq⟩ | ⟨hall, heq⟩
  · exact .inl ⟨_, h.take hl hn (hperm.mem_iff.1 hy) (hmem.1 ha) hptr hsize, heq⟩
  · refine .inr ⟨fun t ht hfree => ?_, _, ?_, heq⟩
    · have hlt := hall t.addr (hmem.2 (List.mem_cons_of_mem _ (mem_addrs.2 ⟨t, ht, hfree, rfl⟩)))
      rwa [h.blocks.sizes t ht] at hlt
    · omega

/-! ## More memory -/

theorem Inv.sbrk (hl : Layout base lo) (h : s.Inv base lo T) {nu : ℕ} (hnu : 0 < nu)
    (hbrk : s.brk + nu * 8 ≤ KERNBASE) :
    ({ s with brk := s.brk + nu * 8, size := update s.size s.brk nu } : Umalloc).Inv base lo
      (T ++ [⟨s.brk, nu, false⟩]) := by
  refine ⟨Blocks.of_update (s := s) hl ?_ hbrk ?_ h.blocks.base_size rfl, ?_, ?_, ?_⟩
  · refine covers_append.2 ⟨s.brk, h.blocks.covers, rfl, hnu, ?_⟩
    show s.brk + 8 * nu = s.brk + nu * 8
    omega
  · rintro u (hu | hu)
    · exact h.blocks.sizes u hu
    · cases hu
  · refine h.apart.append (List.isChain_singleton _) fun u _ v hv => ?_
    cases hv
    exact apart_of_right rfl
  · rw [addrs_append, addrs_cons_of_used rfl, addrs_nil, List.append_nil]
    exact h.cycle
  · rw [addrs_append, addrs_cons_of_used rfl, addrs_nil, List.append_nil]
    exact h.freep

theorem Inv.morecore (hl : Layout base lo) (h : s.Inv base lo T) (hn : 8 * n < 2147483648) :
    morecore ok n s = some (0, s) ∨
      ∃ s' T', morecore ok n s = some (s'.freep, s') ∧ s'.Inv base lo T' ∧ used T' = used T ∧
        ∃ t ∈ T', t.free = true ∧ n ≤ t.size := by
  obtain ⟨nu, hnu⟩ : ∃ nu, nu = if n < 4096 then 4096 else n := ⟨_, rfl⟩
  have hpos : 0 < nu ∧ n ≤ nu ∧ nu * 8 < 2147483648 := by
    split at hnu
    · omega
    · omega
  have hbytes : increment n = ((nu * 8 : ℕ) : ℤ) := by
    rw [increment, ← hnu, uint_of_lt (by omega), sint, if_pos hpos.2.2]
  rw [Umalloc.morecore, ← hnu, hbytes, Umalloc.sbrk, if_pos (Int.natCast_nonneg _), Int.toNat_natCast]
  split
  · rename_i hsbrk
    split at hsbrk
    · cases hsbrk
    · exact .inl rfl
  · rename_i hp s₁ hsbrk
    split at hsbrk
    · rename_i hok
      cases hsbrk
      have hinv := h.sbrk hl hpos.1 hok.2
      obtain ⟨s', T', hfree, hinv', -, hused, t, ht, htfree, hsize⟩ := hinv.free hl rfl
      have hap : uint (s.brk + 8) = s.brk + 8 := by
        have := hok.2
        unfold KERNBASE at this
        exact uint_of_lt (by omega)
      refine .inr ⟨s', T', ?_, hinv', ?_, t, ht, htfree, hpos.2.1.trans hsize⟩
      · rw [hap, hfree]
        rfl
      · rw [hused, used_nil, List.append_nil]
    · cases hsbrk

theorem Inv.malloc_loop (hl : Layout base lo) (h : s.Inv base lo T) (hpos : 0 < n)
    (hn : 8 * n < 2147483648) (ok : Bool) :
    ∃ x, Umalloc.mallocLoop ok n (2 * LOOPS) s.freep (s.ptr s.freep) s = some x ∧
      (Took base lo T n x ∨ x.1 = 0 ∧ x.2.Inv base lo T) := by
  rcases h.mallocLoop hl hpos (show LOOPS ≤ 2 * LOOPS by omega) with
    ⟨x, htook, heq⟩ | ⟨-, k, hk, heq⟩
  · exact ⟨x, heq, .inl htook⟩
  rw [heq, grow]
  rcases h.morecore hl hn with hfail | ⟨s', T', hmore, hinv, hused, t, ht, hfree, hsize⟩
  · rw [hfail]
    exact ⟨(0, s), if_pos rfl, .inr ⟨rfl, h⟩⟩
  · have hfreep : s'.freep ≠ 0 := by
      have hbase := hl.pos
      rcases List.mem_cons.1 hinv.freep with heq | hmem
      · omega
      · have hlt := (List.pairwise_cons.1 (hl.sorted hinv.blocks.covers)).1 _ hmem
        omega
    rw [hmore]
    dsimp only
    rw [if_neg hfreep]
    -- The second time around, the new block is there.
    rcases hinv.mallocLoop hl hpos (show LOOPS ≤ k by omega) with
      ⟨x, ⟨T'', u, hinv', hu, husize, hr, hperm⟩, heq'⟩ | ⟨hall, -⟩
    · rw [hused] at hperm
      exact ⟨x, heq', .inl ⟨T'', u, hinv', hu, husize, hr, hperm⟩⟩
    · have := hall t ht hfree
      omega

end Xv6.Umalloc
