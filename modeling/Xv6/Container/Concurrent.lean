import Xv6.Container.Slots
import Xv6.Lib.Pool

/-!
# The container calls under interference

The calls take no lock. Here each is specified as one thread among others: what it needs the others
to leave alone, and what its own writes do. A `join_container` needs its own container to itself and
`c_pointer` in range; a `destroy_container` needs that no flag in `c_active` is set meanwhile; a
`create_container` needs to be alone. `Ghost` is what the proof remembers beside the globals: which
container a `create_container` in progress makes, and which slots belong to the joins that have
returned.
-/

namespace Xv6.Containers

open Function CArray Prog

variable {N P : ℕ}

/-- Bookkeeping of the proof. -/
structure Ghost (N P : ℕ) where
  /-- `c_pointer` when the `create_container` in progress began. -/
  target : ℤ
  /-- The slots of the joins that have returned `0`. -/
  slots : Fin N → List (Fin P)

def Ghost.begin (g : Ghost N P) (v : ℤ) : Ghost N P :=
  ⟨v, fun k => if v = (k : ℕ) then [] else g.slots k⟩

theorem Ghost.begin_slots (g : Ghost N P) (v : ℤ) (k : Fin N) :
    (g.begin v).slots k = if v = (k : ℕ) then [] else g.slots k := rfl

def Ghost.count (g : Ghost N P) (k : Fin N) (j : Fin P) : Ghost N P :=
  { g with slots := update g.slots k (j :: g.slots k) }

def InRange (s : Containers N P) : Prop := -1 ≤ s.c_pointer ∧ s.c_pointer < N

def PointerFree (s : Containers N P) : Prop :=
  s.c_pointer = -1 ∨ ∃ k : Fin N, s.c_pointer = (k : ℕ) ∧ s.c_active k = false

theorem PointerFree.inRange {s : Containers N P} (h : s.PointerFree) : s.InRange := by
  unfold InRange
  rcases h with h | ⟨k, h, -⟩
  · omega
  · have := k.isLt
    omega

def joinSpec (g : Ghost N P) (p : Proc) (id : ℤ) : Spec (Containers N P) ℤ where
  rely :=
    { rel := fun s t => (∀ k : Fin N, id = (k : ℕ) → t.container_table k = s.container_table k) ∧
        (s.InRange → t.InRange)
      refl := fun _ => ⟨fun _ _ => rfl, fun h => h⟩
      trans := fun h h' => ⟨fun k hk => (h'.1 k hk).trans (h.1 k hk), fun hr => h'.2 (h.2 hr)⟩ }
  guar := fun s t _ => ∃ (k : Fin N) (c : Container P), id = (k : ℕ) ∧ t = s.setContainer k c ∧
    ∀ j ∈ g.slots k, c.process_active j = (s.container_table k).process_active j ∧
      c.process_table j = (s.container_table k).process_table j
  post := fun r t => (∀ k : Fin N, id = (k : ℕ) → (t.container_table k).HintInv) ∧
    (r = 0 → ∃ (k : Fin N) (j : Fin P), id = (k : ℕ) ∧ j ∉ g.slots k ∧
      (t.container_table k).process_active j = true ∧
      ((t.container_table k).process_table j).pid = p.pid)

def destroySpec (id : ℤ) : Spec (Containers N P) ℤ where
  rely :=
    { rel := fun s t => ∀ k, s.c_active k = false → t.c_active k = false
      refl := fun _ _ h => h
      trans := fun h h' k hk => h' k (h k hk) }
  guar := fun s t q => t.container_table = s.container_table ∧
    (∀ k, s.c_active k = false → t.c_active k = false) ∧
    (∀ k : Fin N, s.c_active k = true → t.c_active k = false →
      id = (k : ℕ) ∧ q.Only fun r => r = 0) ∧
    (t.c_pointer = s.c_pointer ∨ ∃ k : Fin N, t.c_pointer = (k : ℕ) ∧ t.c_active k = false)
  post := fun _ _ => True

def createSpec (g : Ghost N P) : Spec (Containers N P) ℤ where
  rely := Rely.alone _
  guar := fun s t _ => ∀ k : Fin N, g.target ≠ (k : ℕ) →
    t.container_table k = s.container_table k ∧ t.c_active k = s.c_active k
  post := fun r t => t.PointerFree ∧ (∀ k, (t.container_table k).HintInv) ∧
    (r = -1 ∨ ∃ k : Fin N, r = (k : ℕ) ∧ g.target = (k : ℕ) ∧ t.c_active k = true)

section Join

variable {g : Ghost N P} {p : Proc} {k : Fin N} {c : Container P} {s t : Containers N P}

def At (k : Fin N) (c : Container P) (s : Containers N P) : Prop :=
  s.container_table k = c ∧ s.InRange

theorem At.stable (h : s.At k c) (hR : (joinSpec g p (k : ℕ)).rely.rel s t) : t.At k c :=
  ⟨(hR.1 k rfl).trans h.1, hR.2 h.2⟩

theorem At.write_obeys {d : Container P} {F : Container P → Option (Container P)}
    {f : PUnit → Prog (Containers N P) ℤ} (h : s.At k c) (hF : F c = some d)
    (hframe : ∀ j ∈ g.slots k, d.process_active j = c.process_active j ∧
      d.process_table j = c.process_table j)
    (hf : ∀ t, t.At k d → (f ⟨⟩).Obeys (joinSpec g p (k : ℕ)).rely (joinSpec g p (k : ℕ)).guar
      (joinSpec g p (k : ℕ)).post t) :
    (setAt (k : ℕ) F >>= f).Obeys (joinSpec g p (k : ℕ)).rely (joinSpec g p (k : ℕ)).guar
      (joinSpec g p (k : ℕ)).post s := by
  refine Obeys.set_bind fun t hR => ⟨t.setContainer k d, ?_, ⟨k, d, rfl, rfl, ?_⟩, hf _ ⟨?_, ?_⟩⟩
  · rw [upd_natCast, (h.stable hR).1, hF]
    rfl
  · rw [(h.stable hR).1]
    exact hframe
  · simp
  · exact (h.stable hR).2

theorem nextFree_obeys (hNP : N ≤ P) (h : s.At k c) :
    (nextFree P (processActive (k : ℕ))).Obeys (joinSpec g p (k : ℕ)).rely (fun _ _ _ => False)
      (fun (r : ℤ) t =>
        (r = -1 ∨ ∃ i : Fin P, r = (i : ℕ) ∧ c.process_active i = false) ∧ t.At k c) s := by
  -- The test of both scans reads a flag of `c`.
  have htest : ∀ (i : ℤ) (s : Containers N P), s.At k c → 0 ≤ i → i < P →
      (do return !(← processActive (k : ℕ) i) : Prog (Containers N P) Bool).Obeys
        (joinSpec g p (k : ℕ)).rely (fun _ _ _ => False)
        (fun r t => (r = true → ∃ j : Fin P, i = (j : ℕ) ∧ c.process_active j = false) ∧ t.At k c)
        s := by
    intro i s hs h0 hi
    obtain ⟨j, rfl⟩ := exists_fin (n := P) h0 hi
    refine Obeys.get_bind fun t ht => ⟨c.process_active j, ?_, fun t' ht' => ?_⟩
    · have hc := (hs.stable ht).1
      simp [hc]
    · refine ⟨fun hr => ⟨j, rfl, by simpa using hr⟩, (hs.stable ht).stable ht'⟩
  refine Obeys.get_bind fun t ht => ⟨t.c_pointer, rfl, ?_⟩
  have htAt := h.stable ht
  have hrange : -1 ≤ t.c_pointer ∧ t.c_pointer < N := htAt.2
  have hkeep : ∀ s t : Containers N P, s.At k c → (joinSpec g p (k : ℕ)).rely.rel s t → t.At k c :=
    fun s t hs hR => hs.stable hR
  refine Obeys.reads_bind ((Obeys.search (B := P) (l := 0) hkeep
    (fun s hs => Obeys.pure fun t ht => ⟨Int.le_refl _, hs.stable ht⟩) htest (by omega)
    (by omega) htAt).mono (fun _ _ _ h => h) ?_)
  rintro r t₁ ⟨hr, ht₁⟩
  cases r with
  | some i => exact fun t₂ hR => ⟨.inr (hr i rfl).2.2, ht₁.stable hR⟩
  | none =>
    -- The second scan reads its bound again before each iteration; it stays below `P`.
    have hbound : ∀ s : Containers N P, s.At k c → (cPointer : Prog (Containers N P) ℤ).Obeys
        (joinSpec g p (k : ℕ)).rely (fun _ _ _ => False)
        (fun (b : ℤ) t => b ≤ P ∧ t.At k c) s := by
      intro s hs t ht t' ht'
      have hrange : -1 ≤ t.c_pointer ∧ t.c_pointer < N := (hs.stable ht).2
      exact ⟨by omega, (hs.stable ht).stable ht'⟩
    refine Obeys.reads_bind ((Obeys.search (B := P) (l := 0) hkeep hbound htest (by omega)
      (by omega) ht₁).mono (fun _ _ _ h => h) ?_)
    rintro r t₂ ⟨hr, ht₂⟩
    cases r with
    | some i => exact fun t₃ hR => ⟨.inr (hr i rfl).2.2, ht₂.stable hR⟩
    | none => exact fun t₃ hR => ⟨.inl rfl, ht₂.stable hR⟩

theorem joinContainer_obeys (hNP : N ≤ P) (g : Ghost N P) (p : Proc) (id : ℤ) (hrange : s.InRange)
    (hhint : ∀ k : Fin N, id = (k : ℕ) → (s.container_table k).HintInv)
    (hslots : ∀ k, ∀ j ∈ g.slots k, (s.container_table k).process_active j = true) :
    (joinContainer p id).Obeys (joinSpec g p id).rely (joinSpec g p id).guar (joinSpec g p id).post
      s := by
  unfold joinContainer
  by_cases hid : id < 0 ∨ id ≥ N
  · rw [if_pos hid]
    refine Obeys.pure fun t ht => ⟨fun k hk => ?_, fun h => absurd h (by decide)⟩
    exact absurd hid (hk ▸ not_outside k)
  obtain ⟨k, rfl⟩ := exists_fin (n := N) (i := id) (by omega) (by omega)
  rw [if_neg hid]
  have hAt : s.At k (s.container_table k) := ⟨rfl, hrange⟩
  have hc := hhint k rfl
  have hactive := hslots k
  generalize s.container_table k = c at hAt hc hactive
  have hrefused : ∀ t : Containers N P, t.At k c → (pure (-1) : Prog (Containers N P) ℤ).Obeys
      (joinSpec g p (k : ℕ)).rely (joinSpec g p (k : ℕ)).guar (joinSpec g p (k : ℕ)).post t := by
    refine fun t ht => Obeys.pure fun t' hR => ⟨fun k' hk' => ?_, fun h => absurd h (by decide)⟩
    obtain rfl : k = k' := Fin.ext (by omega)
    rw [(ht.stable hR).1]
    exact hc
  refine Obeys.get_bind fun t hR => ⟨t.c_active k, by simp, ?_⟩
  replace hAt := hAt.stable hR
  split
  · exact hrefused t hAt
  refine Obeys.get_bind fun t hR => ⟨c.process_pointer, ?_, ?_⟩
  · have := (hAt.stable hR).1
    simp [this]
  replace hAt := hAt.stable hR
  split
  · exact hrefused t hAt
  rename_i hptr
  -- The hint names slot `j`, which is free, so it is not one of those counted.
  obtain ⟨j, hj, hfree⟩ := hc.resolve_left hptr
  have hjs : j ∉ g.slots k := by
    intro hmem
    rw [hactive j hmem] at hfree
    cases hfree
  have hne : ∀ i ∈ g.slots k, i ≠ j := fun i hi h => hjs (h ▸ hi)
  rw [hj]
  refine Obeys.get_bind fun t hR => ⟨t.c_pointer, rfl, ?_⟩
  generalize hq : ({ p with container_id := t.c_pointer, cont := some ((k : ℕ) : ℤ) } : Proc) = q
  have hpid : q.pid = p.pid := by rw [← hq]
  replace hAt := hAt.stable hR
  -- The three writes, with the scans before the last.
  refine hAt.write_obeys (d := { c with process_table := update c.process_table j q })
    (by simp) (fun i hi => ⟨rfl, update_of_ne (hne i hi) _ _⟩) fun t hAt => ?_
  refine hAt.write_obeys (d := { c with
      process_table := update c.process_table j q
      process_active := update c.process_active j true })
    (by simp) (fun i hi => ⟨update_of_ne (hne i hi) _ _, rfl⟩) fun t hAt => ?_
  refine Obeys.reads_bind ((nextFree_obeys hNP hAt).mono (fun _ _ _ h => h) ?_)
  rintro r t ⟨hr, hAt⟩
  refine hAt.write_obeys (d := { c with
      process_table := update c.process_table j q
      process_active := update c.process_active j true
      process_pointer := r })
    (by simp) (fun i hi => ⟨rfl, rfl⟩) fun t hAt => ?_
  refine Obeys.pure fun t hR => ⟨fun k' hk' => ?_, fun _ => ⟨k, j, rfl, hjs, ?_, ?_⟩⟩
  · obtain rfl : k = k' := Fin.ext (by omega)
    rw [(hAt.stable hR).1]
    exact hr
  · rw [(hAt.stable hR).1]
    simp
  · rw [(hAt.stable hR).1]
    simpa using hpid

end Join

theorem destroyContainer_obeys (id : ℤ) (s : Containers N P) :
    (destroyContainer id).Obeys (destroySpec id).rely (destroySpec id).guar (destroySpec id).post
      s := by
  unfold destroyContainer
  by_cases hid : id < 0 ∨ id ≥ N
  · rw [if_pos hid]
    exact Obeys.pure fun _ _ => trivial
  obtain ⟨k, rfl⟩ := exists_fin (n := N) (i := id) (by omega) (by omega)
  rw [if_neg hid]
  refine Obeys.get_bind fun t hR => ⟨t.c_active k, by simp, ?_⟩
  split
  · exact Obeys.pure fun _ _ => trivial
  refine Obeys.set_bind fun t hR =>
    ⟨{ t with c_active := update t.c_active k false }, by simp, ?_, ?_⟩
  · refine ⟨rfl, fun i hi => ?_, fun i hi hi' => ?_, .inl rfl⟩
    · by_cases hik : i = k <;> simp [hik, hi]
    · have hik : i = k := by
        by_contra hik
        simp only [update_of_ne hik] at hi'
        rw [hi] at hi'
        cases hi'
      refine ⟨by rw [hik], Only.bind fun v => Only.ite (Only.bind fun _ => ?_) ?_⟩ <;> rfl
  -- From here on the flag of `k` stays cleared.
  · have hclear : update t.c_active k false k = false := by simp
    generalize update t.c_active k false = a at hclear
    refine Obeys.get_bind fun t hR => ⟨t.c_pointer, rfl, ?_⟩
    replace hclear := hR k hclear
    simp only
    split
    · refine Obeys.set_bind fun t hR => ⟨{ t with c_pointer := (k : ℕ) }, rfl, ?_, ?_⟩
      · refine ⟨rfl, fun i hi => hi, fun i hi hi' => ?_, .inr ⟨k, rfl, hR k hclear⟩⟩
        rw [hi] at hi'
        cases hi'
      · exact Obeys.pure fun _ _ => trivial
    · exact Obeys.pure fun _ _ => trivial

section Create

variable {g : Ghost N P} {k : Fin N} {s : Containers N P}

theorem create_write_obeys {F : Container P → Option (Container P)} {d : Container P}
    {f : PUnit → Prog (Containers N P) ℤ} (hk : g.target = (k : ℕ))
    (hF : F (s.container_table k) = some d)
    (hf : (f ⟨⟩).Obeys (createSpec g).rely (createSpec g).guar (createSpec g).post
      (s.setContainer k d)) :
    (setAt (k : ℕ) F >>= f).Obeys (createSpec g).rely (createSpec g).guar (createSpec g).post
      s := by
  refine Obeys.alone_set_bind ?_ (fun i hi => ?_) hf
  · rw [upd_natCast, hF]
    rfl
  · have hik : i ≠ k := by
      rintro rfl
      exact hi hk
    exact ⟨by simp [hik], rfl⟩

theorem createContainer_obeys (hNP : N ≤ P) (g : Ghost N P) (c : Container P)
    (htarget : g.target = s.c_pointer) (hptr : s.PointerFree)
    (hhint : ∀ k, (s.container_table k).HintInv) :
    (createContainer c).Obeys (createSpec g).rely (createSpec g).guar (createSpec g).post s := by
  unfold createContainer
  refine Obeys.alone_get_bind rfl ?_
  by_cases hfull : s.c_pointer = -1
  · rw [if_pos hfull]
    refine Obeys.pure ?_
    rintro t rfl
    exact ⟨hptr, hhint, .inl rfl⟩
  rw [if_neg hfull]
  obtain ⟨k, hk, hfree⟩ := hptr.resolve_left hfull
  rw [hk] at htarget
  -- Every read of `c_pointer` up to the last write gives `k`.
  refine Obeys.alone_get_bind (congrArg some hk) ?_
  refine Obeys.alone_set_bind (t := { s with c_active := update s.c_active k true })
    (by simp) (fun i hi => ?_) ?_
  · have hik : i ≠ k := by
      rintro rfl
      exact hi htarget
    exact ⟨rfl, update_of_ne hik _ _⟩
  refine Obeys.alone_get_bind (congrArg some hk) ?_
  refine Obeys.alone_get_bind (congrArg some hk) ?_
  -- The copy, field by field, ends with container `k` being the new one.
  simp only [copyContainer, bind_assoc]
  refine create_write_obeys htarget rfl (create_write_obeys htarget rfl
    (create_write_obeys htarget rfl (create_write_obeys htarget rfl
      (create_write_obeys htarget rfl ?_))))
  simp only [setContainer_setContainer, setContainer_container_table, update_self]
  refine Obeys.alone_get_bind (congrArg some hk) ?_
  change Obeys _ _ _ _ (s.created k c s.c_pointer)
  obtain ⟨ptr, hscan, hnext⟩ := exec_nextFree (n := N) cActive (s := s.created k c s.c_pointer)
    (fun j => exec_cActive j _) (by rw [created_c_pointer]; omega)
    (by rw [created_c_pointer]; omega)
  refine Obeys.reads_bind (Obeys.of_exec (nextFree_reads N fun _ => Reads.get) hscan ?_)
  refine Obeys.alone_set_bind (t := s.created k c ptr) rfl (fun i hi => ⟨rfl, rfl⟩) ?_
  refine Obeys.pure ?_
  rintro t rfl
  refine ⟨?_, hint_created hNP hhint k c ptr, .inr ⟨k, rfl, htarget, by simp⟩⟩
  rcases hnext with ⟨rfl, -⟩ | ⟨i, rfl, -, hi⟩
  · exact .inl rfl
  · exact .inr ⟨i, rfl, hi⟩

end Create

end Xv6.Containers
