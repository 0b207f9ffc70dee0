import Xv6.Malloc.Search

/-!
# Programs that call `malloc` and `free`

A program calls `malloc` and `free` in any order, frees only blocks that it has been given, and
stores into these only. Then the blocks that it has and the free ones always make up the memory
obtained from `sbrk`, and every call ends.
-/

namespace Xv6.Alloced

open Function Run Tile

variable {base lo : ℕ} {s₀ s s' : Alloced} {e : AllocEvent} {T : List Tile}
  {π : List (AllocEvent × Alloced)}

/-- A program before its first call. -/
structure Fresh (lo : ℕ) (s : Alloced) : Prop where
  freep : s.heap.freep = 0
  brk : s.heap.brk = lo
  live : s.live = []

def Fits (_ : Alloced) (e : AllocEvent) : Prop :=
  ∀ nbytes ok, e = .malloc nbytes ok → Umalloc.Fits nbytes

def Listed (base lo : ℕ) (s : Umalloc) (T : List Tile) : Prop :=
  s.freep = 0 ∧ T = [] ∧ s.brk = lo ∨ s.Inv base lo T

/-- The used blocks are those that the program has, and they are large enough. -/
structure Good (base lo : ℕ) (s : Alloced) (T : List Tile) : Prop where
  listed : Listed base lo s.heap T
  live : ((used T).map fun t => t.addr + 8).Perm (s.live.map Prod.fst)
  large : ∀ x ∈ s.live, ∃ t ∈ used T, x.1 = t.addr + 8 ∧ x.2 + 8 ≤ 8 * t.size

theorem mem_used {t : Tile} : t ∈ used T ↔ t ∈ T ∧ t.free = false := by
  simp [used]

theorem Listed.covers (hl : Umalloc.Layout base lo) {h : Umalloc} (hlist : Listed base lo h T) :
    Covers lo T h.brk ∧ h.brk ≤ KERNBASE := by
  rcases hlist with ⟨-, rfl, hbrk⟩ | hinv
  · rw [hbrk]
    exact ⟨rfl, hl.lo_le⟩
  · exact ⟨hinv.blocks.covers, hinv.blocks.brk_le⟩

theorem Listed.start (hl : Umalloc.Layout base lo) {h : Umalloc} (hlist : Listed base lo h T) :
    (h.start base).Inv base lo T := by
  unfold Umalloc.start
  rcases hlist with ⟨hfreep, rfl, hbrk⟩ | hinv
  · rw [if_pos hfreep]
    refine ⟨⟨hbrk.symm, ?_, fun t ht => (nomatch ht), update_self ..⟩, List.isChain_nil,
      update_self .., List.mem_cons_self⟩
    show h.brk ≤ KERNBASE
    rw [hbrk]
    exact hl.lo_le
  · have hne : h.freep ≠ 0 := by
      have hbase := hl.pos
      rcases List.mem_cons.1 hinv.freep with heq | hmem
      · omega
      · have hlt := (List.pairwise_cons.1 (hl.sorted hinv.blocks.covers)).1 _ hmem
        omega
    rwa [if_neg hne]

theorem Listed.malloc (hl : Umalloc.Layout base lo) {h : Umalloc} (hlist : Listed base lo h T)
    {nbytes : ℕ} (hfits : Umalloc.Fits nbytes) (ok : Bool) :
    ∃ x, h.malloc base ok nbytes = some x ∧
      (Umalloc.Took base lo T ((nbytes + 7) / 8 + 1) x ∨ x.1 = 0 ∧ x.2.Inv base lo T) := by
  obtain ⟨x, heq, hx⟩ := (hlist.start hl).malloc_loop hl (Nat.succ_pos _) hfits ok
  refine ⟨x, ?_, hx⟩
  rw [Umalloc.malloc, Umalloc.nunits_eq hfits]
  exact heq

theorem Good.block (h : Good base lo s T) {ap : ℕ} (hap : ap ∈ s.live.map Prod.fst) :
    ∃ A t B, T = A ++ t :: B ∧ t.free = false ∧ ap = t.addr + 8 := by
  obtain ⟨x, hx, rfl⟩ := List.mem_map.1 hap
  obtain ⟨t, ht, hap, -⟩ := h.large x hx
  obtain ⟨hmem, hfree⟩ := mem_used.1 ht
  obtain ⟨A, B, rfl⟩ := List.append_of_mem hmem
  exact ⟨A, t, B, rfl, hfree, hap⟩

theorem Good.inv (h : Good base lo s T) (hT : T ≠ []) : s.heap.Inv base lo T :=
  h.listed.resolve_left fun hempty => hT hempty.2.1

/-! ## Steps -/

theorem Good.malloc (hl : Umalloc.Layout base lo) (h : Good base lo s T) {nbytes : ℕ} {ok : Bool}
    (hfits : Umalloc.Fits nbytes) (hs : s.step base (.malloc nbytes ok) s') :
    ∃ T', Good base lo s' T' := by
  obtain ⟨x, heq, hx⟩ := h.listed.malloc hl hfits ok
  have hs' : s' = ⟨x.2, if x.1 = 0 then s.live else (x.1, nbytes) :: s.live⟩ := by
    rw [step, next, heq] at hs
    exact (Option.some.inj hs).symm
  subst hs'
  rcases hx with ⟨T', t, hinv, ht, hsize, hr, hperm⟩ | ⟨hr, hinv⟩
  · have hne : x.1 ≠ 0 := by omega
    refine ⟨T', .inr hinv, ?_, ?_⟩
    · rw [if_neg hne]
      refine (hperm.map _).trans ?_
      rw [List.map_cons, List.map_cons, ← hr]
      exact h.live.cons _
    · rw [if_neg hne]
      intro y hy
      rcases List.mem_cons.1 hy with rfl | hy
      · refine ⟨t, hperm.mem_iff.2 List.mem_cons_self, hr, ?_⟩
        show nbytes + 8 ≤ 8 * t.size
        omega
      · obtain ⟨u, hu, hlarge⟩ := h.large y hy
        exact ⟨u, hperm.mem_iff.2 (List.mem_cons_of_mem t hu), hlarge⟩
  · refine ⟨T, .inr hinv, ?_, ?_⟩
    · rw [if_pos hr]
      exact h.live
    · rw [if_pos hr]
      exact h.large

theorem Good.free_eq (hl : Umalloc.Layout base lo) (h : Good base lo s T) {ap : ℕ}
    (hap : ap ∈ s.live.map Prod.fst) :
    ∃ A t B heap T', T = A ++ t :: B ∧ t.free = false ∧ ap = t.addr + 8 ∧
      s.heap.free ap = some heap ∧ heap.Inv base lo T' ∧ used T' = used A ++ used B := by
  obtain ⟨A, t, B, rfl, hfree, rfl⟩ := h.block hap
  have hinv := h.inv (by simp)
  obtain ⟨heap, T', heq, hinv', -, hused, -⟩ := hinv.free hl hfree
  exact ⟨A, t, B, heap, T', rfl, hfree, rfl, heq, hinv', hused⟩

theorem Good.free (hl : Umalloc.Layout base lo) (h : Good base lo s T) {ap : ℕ}
    (hs : s.step base (.free ap) s') : ∃ T', Good base lo s' T' := by
  rw [step, next] at hs
  split at hs
  · rename_i hap
    obtain ⟨A, t, B, heap, T', rfl, hfree, rfl, heq, hinv, hused⟩ := h.free_eq hl hap
    rw [heq] at hs
    cases hs
    obtain ⟨-, hne⟩ := hl.addr_ne (h.listed.covers hl).1
    have hused' : used (A ++ t :: B) = used A ++ t :: used B := by
      rw [used_append, used_cons_of_used hfree]
    refine ⟨T', .inr hinv, ?_, ?_⟩
    · -- Among the used blocks, only `t` is at this address.
      have hperm := h.live.filter fun a => a ≠ t.addr + 8
      rw [hused', List.map_append, List.map_cons, List.filter_append,
        List.filter_cons_of_neg (by simp), ← List.filter_append, ← List.map_append] at hperm
      rw [hused]
      have hall : (((used A ++ used B).map fun t => t.addr + 8).filter fun a => a ≠ t.addr + 8) =
          (used A ++ used B).map fun t => t.addr + 8 := by
        refine List.filter_eq_self.2 fun a ha => ?_
        obtain ⟨u, hu, rfl⟩ := List.mem_map.1 ha
        have hu' : u ∈ A ∨ u ∈ B :=
          (List.mem_append.1 hu).imp (fun hu => (mem_used.1 hu).1) fun hu => (mem_used.1 hu).1
        have := hne u hu'
        simp [this]
      rw [hall] at hperm
      refine hperm.trans ?_
      rw [List.filter_map]
      exact List.Perm.refl _
    · intro x hx
      obtain ⟨hx, hxap⟩ := List.mem_filter.1 hx
      obtain ⟨u, hu, hux, hlarge⟩ := h.large x hx
      refine ⟨u, ?_, hux, hlarge⟩
      rw [hused]
      rw [hused', List.mem_append, List.mem_cons] at hu
      rw [List.mem_append]
      refine hu.imp_right fun hu => hu.resolve_left ?_
      rintro rfl
      simp [hux] at hxap
  · cases hs

theorem Good.store (hl : Umalloc.Layout base lo) (h : Good base lo s T) {a ptr size : ℕ}
    (hs : s.step base (.store a ptr size) s') : ∃ T', Good base lo s' T' := by
  rw [step, next] at hs
  split at hs
  · rename_i hany
    cases hs
    obtain ⟨x, hx, hin⟩ := List.any_eq_true.1 hany
    obtain ⟨hle, hlt, -⟩ := of_decide_eq_true hin
    obtain ⟨t, ht, hxt, hlarge⟩ := h.large x hx
    obtain ⟨A, B, rfl⟩ := List.append_of_mem (mem_used.1 ht).1
    have hinv := h.inv (by simp)
    obtain ⟨hA, -, hB⟩ := Umalloc.Covers.split hinv.blocks.covers
    have hbase : base ≠ a := by
      have := hl.base_lt
      have := hA.le
      omega
    have hne : ∀ u ∈ A ++ t :: B, u.addr ≠ a := by
      intro u hu
      rcases List.mem_append.1 hu with hu | hu
      · obtain ⟨-, hstop, -, -⟩ := hA.mem hu
        unfold stop at hstop
        omega
      · rcases List.mem_cons.1 hu with rfl | hu
        · omega
        · have hstart := (hB.mem hu).1
          unfold stop at hstart
          omega
    refine ⟨A ++ t :: B, .inr ⟨⟨hinv.blocks.covers, hinv.blocks.brk_le, fun u hu => ?_, ?_⟩,
      hinv.apart, ?_, hinv.freep⟩, h.live, h.large⟩
    · exact (update_of_ne (hne u hu) _ _).trans (hinv.blocks.sizes u hu)
    · exact (update_of_ne hbase _ _).trans hinv.blocks.base_size
    · refine hinv.cycle.update_of_notMem (fun hmem => ?_) _
      rcases List.mem_cons.1 hmem with heq | hmem
      · exact hbase heq.symm
      · obtain ⟨u, hu, -, heq⟩ := mem_addrs.1 hmem
        exact hne u hu heq
  · cases hs

theorem Good.step (hl : Umalloc.Layout base lo) (h : ∃ T, Good base lo s T) (hfits : Fits s e)
    (hs : s.step base e s') : ∃ T, Good base lo s' T := by
  obtain ⟨T, h⟩ := h
  cases e with
  | malloc nbytes ok => exact h.malloc hl (hfits nbytes ok rfl) hs
  | free ap => exact h.free hl hs
  | store a ptr size => exact h.store hl hs

theorem Fresh.good (h : s.Fresh lo) : Good base lo s [] := by
  refine ⟨.inl ⟨h.freep, rfl, h.brk⟩, ?_, ?_⟩
  · rw [h.live]
    exact List.Perm.nil
  · rw [h.live]
    intro x hx
    cases hx

/-- The blocks that the program has and the free ones make up the memory from `lo` to `brk`. The free
list goes from `base` through the free blocks in the order of their addresses and back; no two of
these touch. A live block is aligned and has room for what was asked for. Every call ends. -/
theorem malloc_free_sound (hl : Umalloc.Layout base lo) (h₀ : s₀.Fresh lo)
    (hπ : IsRun (step base) s₀ π) (hfits : Meets Fits s₀ π) :
    ∃ T : List Tile,
      Covers lo T (last s₀ π).heap.brk ∧
      T.Pairwise (fun t u => t.stop ≤ u.addr) ∧
      (T.filter Tile.free).Pairwise (fun t u => t.stop < u.addr) ∧
      ((last s₀ π).heap.freep = 0 ∧ T = [] ∨
        Cycle.Path (last s₀ π).heap.ptr base (addrs T) base ∧
        (base :: addrs T).Pairwise (· < ·) ∧ (last s₀ π).heap.freep ∈ base :: addrs T) ∧
      (∀ t ∈ T, (last s₀ π).heap.size t.addr = t.size) ∧
      ((used T).map fun t => t.addr + 8).Perm ((last s₀ π).live.map Prod.fst) ∧
      (∀ x ∈ (last s₀ π).live, x.1 % 8 = 0 ∧
        ∃ t ∈ used T, x.1 = t.addr + 8 ∧ x.1 + x.2 ≤ t.stop) ∧
      (∀ nbytes ok, Umalloc.Fits nbytes →
        ∃ x, (last s₀ π).heap.malloc base ok nbytes = some x) ∧
      ∀ ap ∈ (last s₀ π).live.map Prod.fst, ∃ x, (last s₀ π).heap.free ap = some x := by
  obtain ⟨T, h⟩ := hπ.invariant_of_meets (I := fun s => ∃ T, Good base lo s T) ⟨[], h₀.good⟩
    (fun _ _ _ hI hC hs => Good.step hl hI hC hs) hfits
  obtain ⟨hcovers, hbrk⟩ := h.listed.covers hl
  refine ⟨T, hcovers, hcovers.pairwise, hcovers.apart ?_, ?_, ?_, h.live, ?_, ?_, ?_⟩
  · rcases h.listed with ⟨-, rfl, -⟩ | hinv
    · exact List.isChain_nil
    · exact hinv.apart
  · rcases h.listed with ⟨hfreep, hT, -⟩ | hinv
    · exact .inl ⟨hfreep, hT⟩
    · exact .inr ⟨hinv.cycle, hl.sorted hcovers, hinv.freep⟩
  · rcases h.listed with ⟨-, rfl, -⟩ | hinv
    · intro t ht
      cases ht
    · exact hinv.blocks.sizes
  · intro x hx
    obtain ⟨t, ht, hxt, hlarge⟩ := h.large x hx
    have haligned := (hcovers.mem (mem_used.1 ht).1).2.2.2
    have hlo := hl.aligned
    refine ⟨by omega, t, ht, hxt, ?_⟩
    unfold stop
    omega
  · intro nbytes ok hnbytes
    obtain ⟨x, hx, -⟩ := h.listed.malloc hl hnbytes ok
    exact ⟨x, hx⟩
  · intro ap hap
    obtain ⟨-, -, -, heap, -, -, -, -, heq, -⟩ := h.free_eq hl hap
    exact ⟨heap, heq⟩

def fresh : Alloced := ⟨⟨fun _ => 0, fun _ => 0, 0, 8192⟩, []⟩

def threeBlocks : List AllocEvent :=
  [.malloc 10 true, .malloc 20 true, .store 40912 7 7, .malloc 100 false, .free 40912]

instance (s : Alloced) (e : AllocEvent) : Decidable (Fits s e) :=
  match e with
  | .malloc nbytes ok =>
    decidable_of_iff (8 * ((nbytes + 7) / 8 + 1) < 2147483648)
      ⟨fun h _ _ heq => by cases heq; exact h, fun h => h nbytes ok rfl⟩
  | .free _ => isTrue fun _ _ heq => nomatch heq
  | .store _ _ _ => isTrue fun _ _ heq => nomatch heq

/-- The blocks that are left are at the addresses that `malloc` returned. -/
theorem malloc_free_sound_three :
    ∃ π, IsRun (step 4096) fresh π ∧ (last fresh π).live = [(40800, 100), (40944, 10)] ∧
      ∃ T, Covers 8192 T (last fresh π).heap.brk ∧
        ((used T).map fun t => t.addr + 8).Perm ((last fresh π).live.map Prod.fst) := by
  have heval : (history (tick (next 4096)) fresh [] threeBlocks).map (fun π => (decide (Meets Fits fresh π), (last fresh π).live)) =
        some (true, [(40800, 100), (40944, 10)]) := by
    decide +kernel
  obtain ⟨π, hrun, hsees⟩ := exists_run_tick heval
  obtain ⟨hfits, hlive⟩ := Prod.mk.inj hsees
  have hlayout : Umalloc.Layout 4096 8192 := ⟨by decide, by decide, by decide, by decide⟩
  obtain ⟨T, hcovers, -, -, -, -, hused, -⟩ :=
    malloc_free_sound hlayout ⟨rfl, rfl, rfl⟩ hrun (of_decide_eq_true hfits)
  exact ⟨π, hrun, hlive, T, hcovers, hused⟩

end Xv6.Alloced
