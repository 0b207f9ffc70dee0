import Xv6.Fs.Refs

/-!
# What is held is there

A call that has locked an inode holds its sleep-lock, knows what is in the inode, and keeps a
reference to it; a call that has counted a link to an inode keeps a reference to it as well. These
facts hold in every run, whatever the calls do to the links. They are kept together with the counts
of `Xv6.Fs.Refs`, and give everything that the protocol promises without its two assumptions.
-/

namespace Xv6.Fs

open Function

/-! ## Locks in the ghost state -/

namespace Ghost

variable {g : Ghost} {i j : ℕ} {c : Inode} {x : Option Inode}

theorem locked_of_lookup {L : List (ℕ × Option Inode)} (h : L.lookup i ≠ none) :
    i ∈ L.map Prod.fst := by
  induction L with
  | nil => simp at h
  | cons y L ih =>
    rw [List.lookup_cons] at h
    by_cases hy : i = y.1
    · simp [hy]
    · rw [beq_false_of_ne hy] at h
      exact List.mem_cons_of_mem _ (ih h)

theorem locked_of_known (h : g.known i = some c) : g.Locked i := by
  refine locked_of_lookup fun hnone => ?_
  rw [known, hnone] at h
  cases h

@[simp] theorem locked_learn : (g.learn i x).Locked j ↔ g.Locked j := by
  have hfst : (g.locks.map fun y => if y.1 = i then (i, x) else y).map Prod.fst =
      g.locks.map Prod.fst := by
    rw [List.map_map]
    refine List.map_congr_left fun y _ => ?_
    by_cases hy : y.1 = i
    · simp [hy]
    · simp [hy]
  rw [Locked, learn, hfst, Locked]

theorem lookup_learn (L : List (ℕ × Option Inode)) (i : ℕ) (x : Option Inode) (j : ℕ) :
    (L.map fun y => if y.1 = i then (i, x) else y).lookup j =
      if j = i then (L.lookup j).map fun _ => x else L.lookup j := by
  induction L with
  | nil => simp
  | cons y L ih =>
    rw [List.map_cons, List.lookup_cons, List.lookup_cons, ih]
    by_cases hj : j = i
    · subst hj
      by_cases hy : y.1 = j
      · simp [hy]
      · simp [hy, beq_false_of_ne (Ne.symm hy)]
    · by_cases hy : y.1 = i
      · have hjy : (j == y.1) = false := beq_false_of_ne fun h => hj (h.trans hy)
        simp [hy, hj, beq_false_of_ne hj]
      · simp [hy, hj]

theorem lookup_of_locked {L : List (ℕ × Option Inode)} (h : i ∈ L.map Prod.fst) :
    ∃ y, L.lookup i = some y := by
  induction L with
  | nil => cases h
  | cons y L ih =>
    rw [List.lookup_cons]
    by_cases hy : i = y.1
    · exact ⟨y.2, by simp [hy]⟩
    · rw [beq_false_of_ne hy]
      exact ih ((List.mem_cons.1 h).resolve_left hy)

theorem known_learn_self (h : g.Locked i) : (g.learn i x).known i = x := by
  obtain ⟨y, hy⟩ := lookup_of_locked h
  rw [known, learn, lookup_learn, if_pos rfl, hy]
  cases x <;> rfl

theorem known_learn_of_ne (h : j ≠ i) : (g.learn i x).known j = g.known j := by
  rw [known, learn, lookup_learn, if_neg h, known]

@[simp] theorem locked_unlock : (g.unlock i).Locked j ↔ g.Locked j ∧ j ≠ i := by
  simp only [Locked, unlock, List.mem_map, List.mem_filter, decide_eq_true_eq]
  constructor
  · rintro ⟨y, ⟨hy, hne⟩, rfl⟩
    exact ⟨⟨y, hy, rfl⟩, hne⟩
  · rintro ⟨⟨y, hy, rfl⟩, hne⟩
    exact ⟨y, ⟨hy, hne⟩, rfl⟩

theorem known_unlock_of_ne (hne : j ≠ i) : (g.unlock i).known j = g.known j := by
  have hlook : ∀ L : List (ℕ × Option Inode),
      (L.filter (·.1 ≠ i)).lookup j = L.lookup j := by
    intro L
    induction L with
    | nil => rfl
    | cons y L ih =>
      by_cases hy : y.1 = i
      · have hjy : (j == y.1) = false := beq_false_of_ne fun h => hne (h.trans hy)
        rw [List.filter_cons_of_neg (by simpa using hy), ih, List.lookup_cons, hjy]
      · rw [List.filter_cons_of_pos (by simpa using hy), List.lookup_cons, List.lookup_cons, ih]
  rw [known, unlock, hlook, known]

theorem known_unlock (h : (g.unlock i).known j = some c) : g.known j = some c := by
  rw [← known_unlock_of_ne (locked_unlock.1 (locked_of_known h)).2]
  exact h

theorem debt_give {y : ℕ × Itype} (hy : y ∈ (g.give i).debt) (hkept : y.1 ∈ g.refs) :
    y.1 ∈ g.refs.erase i := by
  by_cases hi : y.1 = i
  · simp only [give] at hy
    split at hy
    · rename_i hmem
      rw [hi]
      exact hmem
    · exact absurd hi (by simpa using Multiset.of_mem_filter hy)
  · exact (Multiset.mem_erase_of_ne hi).2 hkept

theorem mem_links {dp : ℕ} {y : ℕ × Itype} (h : y ∈ g.links dp i) :
    y = (i, g.typeOf i) ∨ y = (dp, .dir) := by
  rw [links] at h
  split at h
  · rename_i htype
    rw [htype]
    simpa using h
  · exact .inl (by simpa using h)

theorem known_cons_none (h : ({ g with locks := (i, none) :: g.locks } : Ghost).known j = some c) :
    j ≠ i ∧ g.known j = some c := by
  by_cases hj : j = i
  · subst hj
    simp [known] at h
  · refine ⟨hj, ?_⟩
    simpa [known, List.lookup_cons, beq_false_of_ne hj] using h

end Ghost

open Ghost

/-! ## The invariant -/

/-- What the ghost state of process `p` says of the shared state. -/
structure Ghost.Holds (n : ℕ) (s : Disk) (p : Pid) (g : Ghost) : Prop where
  lock : ∀ i, s.lock i = some p ↔ g.Locked i
  known : ∀ i c, g.known i = some c → s.inode i = c ∧ s.valid i = true
  kept : ∀ i, g.Locked i → i ∈ g.refs ∨ i ∈ g.drops
  pos : ∀ i, i ∈ g.refs ∨ i ∈ g.drops → 0 < i
  debt : ∀ x ∈ g.debt, x.1 ∈ g.refs ∧ (s.inode x.1).type = x.2 ∧ x.2 ≠ .free
  fresh : ∀ i type, g.fresh = some (i, type) → 0 < i ∧ i < n
  freeing : ∀ i, g.freeing = some i → g.Locked i ∧ i ∉ g.refs.erase i

/-- The facts that need no assumption on the calls. -/
structure Base (n : ℕ) (s : Disk) (G : Pid → Ghost) : Prop where
  counts : Counts s G
  holds : ∀ p, (G p).Holds n s p
  valid : ∀ i, s.valid i = true → (s.inode i).type ≠ .free
  bound : ∀ i, (s.inode i).type ≠ .free → 0 < i ∧ i < n
  cwd : ∀ p, s.used p = true → 0 < s.cwd p
  file : ∀ f i, (s.file f).ip = some i → 0 < i
  /-- No other call counts links to an inode that is about to be freed. -/
  alone : ∀ p q i type, p ≠ q → (G p).freeing = some i → (i, type) ∉ (G q).debt

namespace Base

variable {n : ℕ} {s s' : Disk} {G : Pid → Ghost} {p q : Pid} {g : Ghost} {i : ℕ} {c : Inode}
  {W A : Prop}

theorem locked_unique (h : Base n s G) (hp : (G p).Locked i) (hq : (G q).Locked i) : p = q := by
  have hp' := ((h.holds p).lock i).2 hp
  have hq' := ((h.holds q).lock i).2 hq
  exact Option.some.inj (hp'.symm.trans hq')

theorem type_of_known (h : Base n s G) (hk : (G p).known i = some c) :
    s.inode i = c ∧ c.type ≠ .free := by
  obtain ⟨rfl, hvalid⟩ := (h.holds p).known i c hk
  exact ⟨rfl, h.valid i hvalid⟩

theorem ref_pos (h : Base n s G) (hi : i ∈ (G p).refs ∨ i ∈ (G p).drops) : 0 < s.ref i := by
  have h0 := (h.holds p).pos i hi
  have hle := h.counts.count_le_ref (i := i) (by omega) p
  rcases hi with hi | hi
  · have := Multiset.one_le_count_iff_mem.2 hi
    omega
  · have := Multiset.one_le_count_iff_mem.2 hi
    omega

theorem of_step (h : Base n s G) (hcounts : Counts s' (update G p g)) (hown : g.Holds n s' p)
    (hlock : ∀ q, q ≠ p → ∀ i, s'.lock i = some q ↔ s.lock i = some q)
    (hinode : ∀ q, q ≠ p → ∀ i c, (G q).known i = some c →
      s'.inode i = s.inode i ∧ s'.valid i = s.valid i)
    (htype : ∀ q, q ≠ p → ∀ x ∈ (G q).debt, (s'.inode x.1).type = (s.inode x.1).type)
    (hvalid : ∀ i, s'.valid i = true → (s'.inode i).type ≠ .free)
    (hbound : ∀ i, (s'.inode i).type ≠ .free → 0 < i ∧ i < n)
    (hcwd : ∀ q, s'.used q = true → 0 < s'.cwd q)
    (hfile : ∀ f i, (s'.file f).ip = some i → 0 < i)
    (hmine : ∀ q, q ≠ p → ∀ i type, g.freeing = some i → (i, type) ∉ (G q).debt)
    (hother : ∀ q, q ≠ p → ∀ i type, (G q).freeing = some i → (i, type) ∉ g.debt) :
    Base n s' (update G p g) where
  counts := hcounts
  holds q := by
    by_cases hq : q = p
    · subst hq
      rw [update_self]
      exact hown
    · rw [update_of_ne hq]
      have hQ := h.holds q
      refine ⟨fun i => (hlock q hq i).trans (hQ.lock i), fun i c hk => ?_, hQ.kept, hQ.pos,
        fun x hx => ?_, hQ.fresh, hQ.freeing⟩
      · obtain ⟨h1, h2⟩ := hinode q hq i c hk
        rw [h1, h2]
        exact hQ.known i c hk
      · rw [htype q hq x hx]
        exact hQ.debt x hx
  valid := hvalid
  bound := hbound
  cwd := hcwd
  file := hfile
  alone a b i type hab hfree := by
    by_cases ha : a = p
    · subst ha
      rw [update_self] at hfree
      rw [update_of_ne (Ne.symm hab)]
      exact hmine b (Ne.symm hab) i type hfree
    · rw [update_of_ne ha] at hfree
      by_cases hb : b = p
      · subst hb
        rw [update_self]
        exact hother a ha i type hfree
      · rw [update_of_ne hb]
        exact h.alone a b i type hab hfree

theorem of_same (h : Base n s G) (hcounts : Counts s' (update G p g)) (hlock : s'.lock = s.lock)
    (hinode : s'.inode = s.inode) (hvalid : s'.valid = s.valid)
    (hcwd : ∀ q, s'.used q = true → 0 < s'.cwd q)
    (hfile : ∀ f i, (s'.file f).ip = some i → 0 < i) (hlocks : g.locks = (G p).locks)
    (hkept : ∀ i, (G p).Locked i → i ∈ g.refs ∨ i ∈ g.drops)
    (hpos : ∀ i, i ∈ g.refs ∨ i ∈ g.drops → 0 < i)
    (hdebt : ∀ x ∈ g.debt, x ∈ (G p).debt ∧ x.1 ∈ g.refs)
    (hfresh : ∀ i type, g.fresh = some (i, type) → 0 < i ∧ i < n)
    (hfreeing : ∀ i, g.freeing = some i → (G p).Locked i ∧ i ∉ g.refs.erase i ∧
      ∀ q, q ≠ p → ∀ type, (i, type) ∉ (G q).debt) :
    Base n s' (update G p g) := by
  have hp := h.holds p
  have hknown : g.known = (G p).known := by
    funext i
    rw [known, known, hlocks]
  have hlocked : ∀ i, g.Locked i ↔ (G p).Locked i := by
    intro i
    rw [Locked, Locked, hlocks]
  refine h.of_step hcounts ⟨fun i => ?_, fun i c hk => ?_, fun i hi => hkept i ((hlocked i).1 hi),
      hpos, fun x hx => ⟨(hdebt x hx).2, ?_⟩, hfresh, fun i hi => ?_⟩
    (fun q _ i => by rw [hlock]) (fun q _ i c _ => by rw [hinode, hvalid]; exact ⟨rfl, rfl⟩)
    (fun q _ x _ => by rw [hinode]) (fun i hi => ?_) (fun i hi => ?_) hcwd hfile
    (fun q hq i type hi => (hfreeing i hi).2.2 q hq type)
    fun q hq i type hi hmem => h.alone q p i type hq hi (hdebt _ hmem).1
  · rw [hlock, hlocked]
    exact hp.lock i
  · rw [hknown] at hk
    rw [hinode, hvalid]
    exact hp.known i c hk
  · rw [hinode]
    exact (hp.debt x (hdebt x hx).1).2
  · exact ⟨(hlocked i).2 (hfreeing i hi).1, (hfreeing i hi).2.1⟩
  · rw [hinode]
    exact h.valid i (hvalid ▸ hi)
  · exact h.bound i (hinode ▸ hi)

theorem mem_doom {g : Ghost} {i j : ℕ} (hi : i ∈ g.refs) :
    (j ∈ (g.doom i).refs ∨ j ∈ (g.doom i).drops) ↔ j ∈ g.refs ∨ j ∈ g.drops := by
  show (j ∈ g.refs.erase i ∨ j ∈ i ::ₘ g.drops) ↔ _
  rw [Multiset.mem_cons]
  by_cases hj : j = i
  · subst hj
    simp [hi]
  · rw [Multiset.mem_erase_of_ne hj]
    simp [hj]

theorem freeing_eq_none {o : Op} (hu : (G p).Urgent o) (ho : ∀ i, o ≠ .free i) :
    (G p).freeing = none := by
  cases hf : (G p).freeing with
  | none => rfl
  | some i => exact absurd (hu.freeing i hf) (ho i)

theorem of_refs (h : Base n s G) (hcounts : Counts s' (update G p g)) (hlock : s'.lock = s.lock)
    (hinode : s'.inode = s.inode) (hvalid : s'.valid = s.valid)
    (hcwd : ∀ q, s'.used q = true → 0 < s'.cwd q)
    (hfile : ∀ f i, (s'.file f).ip = some i → 0 < i) (hlocks : g.locks = (G p).locks)
    (hdebt : g.debt = (G p).debt) (hfresh : g.fresh = (G p).fresh) (hfree : g.freeing = none)
    (hdrops : g.drops = (G p).drops) (hrefs : ∀ i, i ∈ (G p).refs → i ∈ g.refs)
    (hpos : ∀ i, i ∈ g.refs → 0 < i) : Base n s' (update G p g) := by
  have hp := h.holds p
  refine h.of_same hcounts hlock hinode hvalid hcwd hfile hlocks (fun i hi => ?_) (fun i hi => ?_)
    (fun x hx => ?_) (fun i type hf => hp.fresh i type (hfresh ▸ hf)) fun i hi => ?_
  · rw [hdrops]
    exact (hp.kept i hi).imp_left (hrefs i)
  · rcases hi with hi | hi
    · exact hpos i hi
    · exact hp.pos i (.inr (hdrops ▸ hi))
  · rw [hdebt] at hx
    exact ⟨hx, hrefs _ (hp.debt x hx).1⟩
  · rw [hfree] at hi
    cases hi

theorem iget_step {site : Site} {r : Bool} (h : Base n s G)
    (ha : allows n W A (G p) (.iget site i)) (hu : (G p).Urgent (.iget site i))
    (hr : (Op.iget site i).perform n p s = some (r, s')) :
    Base n s' (update G p ((G p).next (.iget site i) r)) := by
  have hp := h.holds p
  have hcounts := h.counts.step ha hr
  have hfree : (G p).freeing = none := freeing_eq_none hu (by simp)
  have hpos : ∀ j, j ∈ i ::ₘ (G p).refs → 0 < j := by
    intro j hj
    rcases Multiset.mem_cons.1 hj with rfl | hj
    · rcases ha with rfl | ⟨type, hf⟩ | ⟨dp, c, e, -, -, -, -, h0⟩
      · decide
      · exact (hp.fresh j type hf).1
      · omega
    · exact hp.pos j (.inl hj)
  simp only [Op.perform] at hr
  split at hr
  · cases hr
    exact h.of_refs hcounts rfl rfl rfl h.cwd h.file rfl rfl rfl hfree rfl
      (fun _ => Multiset.mem_cons_of_mem) hpos
  · rename_i hzero
    split at hr
    · cases hr
      -- No process knows the inode, since it is not cached.
      have hvalid : ∀ q j c, (G q).known j = some c →
          update s.valid i false j = s.valid j := by
        intro q j c hk
        refine update_of_ne ?_ ..
        rintro rfl
        exact hzero (h.ref_pos ((h.holds q).kept j (locked_of_known hk)))
      refine h.of_step hcounts ⟨hp.lock, fun j c hk => ?_, fun j hj => ?_, fun j hj => ?_,
          fun x hx => ?_, hp.fresh, fun j hj => ?_⟩ (fun _ _ _ => Iff.rfl)
        (fun q _ j c hk => ⟨rfl, hvalid q j c hk⟩) (fun _ _ _ _ => rfl) (fun j hj => ?_) h.bound
        h.cwd h.file (fun q _ j type hj => ?_) fun q hq j type hj => h.alone q p j type hq hj
      · obtain ⟨h1, h2⟩ := hp.known j c hk
        exact ⟨h1, (hvalid p j c hk).trans h2⟩
      · exact (hp.kept j hj).imp_left Multiset.mem_cons_of_mem
      · rcases hj with hj | hj
        · exact hpos j hj
        · exact hp.pos j (.inr hj)
      · exact ⟨Multiset.mem_cons_of_mem (hp.debt x hx).1, (hp.debt x hx).2⟩
      · exact absurd (hfree.symm.trans hj) (by simp)
      · refine h.valid j ?_
        by_cases hji : j = i
        · subst hji
          simp [Disk.setValid, Disk.setRef] at hj
        · exact (update_of_ne hji ..).symm.trans hj
      · exact absurd (hfree.symm.trans hj) (by simp)
    · cases hr
      exact h.of_refs hcounts rfl rfl rfl h.cwd h.file rfl rfl rfl hfree rfl (fun _ => id)
        fun j hj => hp.pos j (.inl hj)

theorem acquiresleep_step {site : Site} (h : Base n s G)
    (ha : allows n W A (G p) (.acquiresleep site i)) (hu : (G p).Urgent (.acquiresleep site i))
    (hr : (Op.acquiresleep site i).perform n p s = some ((), s')) :
    ¬ (G p).Locked i ∧ Base n s' (update G p ((G p).next (.acquiresleep site i) ())) := by
  have hp := h.holds p
  have hcounts := h.counts.step ha hr
  have hfree : (G p).freeing = none := freeing_eq_none hu (by simp)
  simp only [Op.perform] at hr
  split at hr
  · rename_i hnone
    cases hr
    refine ⟨fun hl => ?_, ?_⟩
    · exact absurd (hnone.symm.trans ((hp.lock i).2 hl)) (by simp)
    refine h.of_step hcounts ⟨fun j => ?_, fun j c hk => ?_, fun j hj => ?_, hp.pos,
        hp.debt, hp.fresh, fun j hj => ?_⟩ (fun q hq j => ?_)
      (fun q _ j c hk => ⟨rfl, rfl⟩) (fun _ _ _ _ => rfl) h.valid h.bound h.cwd h.file
      (fun q _ j type hj => ?_) fun q hq j type hj => h.alone q p j type hq hj
    · show update s.lock i (some p) j = some p ↔ j ∈ ((i, none) :: (G p).locks).map Prod.fst
      by_cases hj : j = i
      · subst hj
        simp
      · rw [update_of_ne hj, hp.lock, List.map_cons, List.mem_cons]
        simp only [hj, false_or]
        rfl
    · exact hp.known j c (known_cons_none hk).2
    · rcases List.mem_cons.1 hj with rfl | hj
      · exact .inl ha.1
      · exact hp.kept j hj
    · exact absurd (hfree.symm.trans hj) (by simp)
    · show update s.lock i (some p) j = some q ↔ _
      by_cases hj : j = i
      · subst hj
        simp [hnone, Ne.symm hq]
      · rw [update_of_ne hj]
    · exact absurd (hfree.symm.trans hj) (by simp)
  · cases hr

theorem releasesleep_step {site : Site} (h : Base n s G)
    (ha : allows n W A (G p) (.releasesleep site i)) :
    Base n (s.setLock i none) (update G p ((G p).next (.releasesleep site i) ())) := by
  have hp := h.holds p
  have hcounts := h.counts.step (t := s.setLock i none) (r := ()) ha rfl
  have hlocked : ∀ j, ({ (G p).unlock i with
      window := if site = .parent then some i else none } : Ghost).Locked j ↔
        (G p).Locked j ∧ j ≠ i := fun j => locked_unlock
  refine h.of_step hcounts ⟨fun j => ?_, fun j c hk => hp.known j c (known_unlock hk),
      fun j hj => hp.kept j ((hlocked j).1 hj).1, hp.pos, hp.debt, hp.fresh, fun j hj => ?_⟩
    (fun q hq j => ?_) (fun q _ j c hk => ⟨rfl, rfl⟩) (fun _ _ _ _ => rfl) h.valid h.bound h.cwd
    h.file (fun q _ j type hj => ?_) fun q hq j type hj => h.alone q p j type hq hj
  · show update s.lock i none j = some p ↔ _
    rw [Ghost.next, hlocked]
    by_cases hj : j = i
    · subst hj
      simp
    · rw [update_of_ne hj, hp.lock]
      simp [hj]
  · exact absurd (ha.2.1.symm.trans hj) (by simp)
  · show update s.lock i none j = some q ↔ _
    by_cases hj : j = i
    · subst hj
      have := (hp.lock j).2 ha.1
      simp [this, Ne.symm hq]
    · rw [update_of_ne hj]
  · exact absurd (ha.2.1.symm.trans hj) (by simp)

theorem of_learn (h : Base n s G) (hcounts : Counts s' (update G p g)) (hl : (G p).Locked i)
    (hlocks : g.locks = ((G p).learn i (some (s'.inode i))).locks)
    (hlock : s'.lock = s.lock) (hother : ∀ j, j ≠ i → s'.inode j = s.inode j ∧
      s'.valid j = s.valid j) (hvalid : s'.valid i = true) (htype : (s'.inode i).type ≠ .free)
    (hold : (s.inode i).type ≠ .free → (s'.inode i).type = (s.inode i).type)
    (hbound : 0 < i ∧ i < n)
    (hcwd : ∀ q, s'.used q = true → 0 < s'.cwd q)
    (hfile : ∀ f j, (s'.file f).ip = some j → 0 < j)
    (hheld : ∀ j, (G p).refs.count j + (G p).drops.count j = g.refs.count j + g.drops.count j)
    (hdebt : ∀ x ∈ g.debt, x.1 ∈ g.refs ∧ (s'.inode x.1).type = x.2 ∧ x.2 ≠ .free ∧
      (x ∈ (G p).debt ∨ (G p).Locked x.1))
    (hfresh : ∀ j type, g.fresh = some (j, type) → 0 < j ∧ j < n) (hfree : g.freeing = none) :
    Base n s' (update G p g) := by
  have hp := h.holds p
  have hlocked : ∀ j, g.Locked j ↔ (G p).Locked j := by
    intro j
    rw [Locked, hlocks]
    exact locked_learn
  have hmem : ∀ j, (j ∈ g.refs ∨ j ∈ g.drops) ↔ j ∈ (G p).refs ∨ j ∈ (G p).drops := by
    intro j
    have := hheld j
    rw [← Multiset.count_pos, ← Multiset.count_pos, ← Multiset.count_pos, ← Multiset.count_pos]
    omega
  have hknown : ∀ j, g.known j = ((G p).learn i (some (s'.inode i))).known j := by
    intro j
    rw [known, hlocks, known]
  have hoth : ∀ q, q ≠ p → ¬ (G q).Locked i := fun q hq hlq => hq (h.locked_unique hlq hl)
  refine h.of_step hcounts ⟨fun j => ?_, fun j c hk => ?_, fun j hj => ?_, fun j hj => ?_,
      fun x hx => ⟨(hdebt x hx).1, (hdebt x hx).2.1, (hdebt x hx).2.2.1⟩, hfresh,
      fun j hj => ?_⟩ (fun q _ j => by rw [hlock]) (fun q hq j c hk => ?_) (fun q hq x hx => ?_)
    (fun j hj => ?_) (fun j hj => ?_) hcwd hfile (fun q _ j type hj => ?_)
    fun q hq j type hj hmem => ?_
  · rw [hlock, hlocked]
    exact hp.lock j
  · rw [hknown] at hk
    by_cases hji : j = i
    · subst hji
      rw [known_learn_self hl] at hk
      exact ⟨Option.some.inj hk, hvalid⟩
    · rw [known_learn_of_ne hji] at hk
      rw [(hother j hji).1, (hother j hji).2]
      exact hp.known j c hk
  · exact (hmem j).2 (hp.kept j ((hlocked j).1 hj))
  · exact hp.pos j ((hmem j).1 hj)
  · rw [hfree] at hj
    cases hj
  · refine hother j ?_
    rintro rfl
    exact hoth q hq (locked_of_known hk)
  · obtain ⟨-, hx2, hx3⟩ := (h.holds q).debt x hx
    by_cases hxi : x.1 = i
    · rw [hxi] at hx2 ⊢
      exact hold (hx2 ▸ hx3)
    · rw [(hother _ hxi).1]
  · by_cases hji : j = i
    · rw [hji]
      exact htype
    · rw [(hother j hji).1]
      exact h.valid j ((hother j hji).2 ▸ hj)
  · by_cases hji : j = i
    · rw [hji]
      exact hbound
    · exact h.bound j ((hother j hji).1 ▸ hj)
  · rw [hfree] at hj
    cases hj
  · rcases (hdebt _ hmem).2.2.2 with hd | hd
    · exact h.alone q p j type hq hj hd
    · exact hq (h.locked_unique ((h.holds q).freeing j hj).1 hd)

theorem doom_step (h : Base n s G) (hi : i ∈ (G p).refs) (hfree : (G p).freeing = none) :
    Base n s (update G p ((G p).doom i)) := by
  have hp := h.holds p
  have hcounts : Counts s (update G p ((G p).doom i)) :=
    h.counts.of_eq rfl rfl rfl rfl rfl (Counts.count_doom hi) rfl rfl rfl rfl rfl
  refine h.of_same hcounts rfl rfl rfl h.cwd h.file rfl (fun j hj => (mem_doom hi).2 (hp.kept j hj))
    (fun j hj => hp.pos j ((mem_doom hi).1 hj)) (fun x hx => ?_) hp.fresh fun j hj => ?_
  · have hx' := mem_debt_of_give (g := G p) hx
    exact ⟨hx', debt_give hx (hp.debt x hx').1⟩
  · exact absurd (hfree.symm.trans hj) (by simp)

theorem load_step {r : Option Inode} (h : Base n s G) (ha : allows n W A (G p) (.load i))
    (hu : (G p).Urgent (.load i)) (hr : (Op.load i).perform n p s = some (r, s')) :
    Base n s' (update G p ((G p).next (.load i) r)) := by
  have hp := h.holds p
  have hcounts := h.counts.step ha hr
  have hfree : (G p).freeing = none := freeing_eq_none hu (by simp)
  obtain ⟨hi, hl, hnone⟩ := ha
  simp only [Op.perform] at hr
  split at hr
  · rename_i hc
    cases hr
    have htype : (s.inode i).type ≠ .free := hc.elim (h.valid i) id
    refine h.of_learn hcounts hl rfl rfl (fun j hj => ⟨rfl, update_of_ne hj ..⟩) (update_self ..)
      htype (fun _ => rfl) (h.bound i htype) h.cwd h.file (fun _ => rfl) (fun x hx => ?_) hp.fresh
      hfree
    obtain ⟨h1, h2, h3⟩ := hp.debt x hx
    exact ⟨h1, h2, h3, .inl hx⟩
  · cases hr
    refine h.of_step hcounts ⟨fun j => ?_, fun j c hk => ?_, fun j hj => ?_, hp.pos, hp.debt,
        hp.fresh, fun j hj => ?_⟩ (fun _ _ _ => Iff.rfl) (fun _ _ _ _ _ => ⟨rfl, rfl⟩)
      (fun _ _ _ _ => rfl) h.valid h.bound h.cwd h.file (fun q _ j type hj => ?_)
      fun q hq j type hj => h.alone q p j type hq hj
    · rw [hp.lock, Ghost.next, locked_learn]
    · by_cases hj : j = i
      · subst hj
        rw [Ghost.next, known_learn_self hl] at hk
        cases hk
      · rw [Ghost.next, known_learn_of_ne hj] at hk
        exact hp.known j c hk
    · exact hp.kept j (locked_learn.1 hj)
    · exact absurd (hfree.symm.trans hj) (by simp)
    · exact absurd (hfree.symm.trans hj) (by simp)

theorem peek_step (h : Base n s G) (ha : allows n W A (G p) (.peek i)) :
    Base n s (update G p ((G p).next (.peek i) (s.valid i, s.inode i))) := by
  have hp := h.holds p
  obtain ⟨hi, hl, -, hfree, -⟩ := ha
  simp only [Ghost.next]
  split
  · rename_i hv
    have hlearn : ∀ g : Ghost, g.locks = ((G p).learn i (some (s.inode i))).locks →
        Counts s (update G p g) →
        (∀ j, (G p).refs.count j + (G p).drops.count j = g.refs.count j + g.drops.count j) →
        (∀ x ∈ g.debt, x ∈ (G p).debt ∧ x.1 ∈ g.refs) → g.fresh = (G p).fresh →
        g.freeing = (G p).freeing → Base n s (update G p g) := by
      intro g hlocks hcounts hheld hdebt hfresh hfreeing
      refine h.of_learn hcounts hl hlocks rfl (fun j _ => ⟨rfl, rfl⟩) hv (h.valid i hv)
        (fun _ => rfl) (h.bound i (h.valid i hv)) h.cwd h.file hheld (fun x hx => ?_)
        (fun j type hf => hp.fresh j type (hfresh ▸ hf)) (hfreeing.trans hfree)
      obtain ⟨-, h2, h3⟩ := hp.debt x (hdebt x hx).1
      exact ⟨(hdebt x hx).2, h2, h3, .inl (hdebt x hx).1⟩
    split
    · exact hlearn _ rfl (h.counts.of_eq rfl rfl rfl rfl rfl (fun _ => rfl) rfl rfl rfl rfl rfl)
        (fun _ => rfl) (fun x hx => ⟨hx, (hp.debt x hx).1⟩) rfl rfl
    · have hdoom := Counts.count_doom (g := (G p).learn i (some (s.inode i))) (i := i) hi
      refine hlearn _ rfl (h.counts.of_eq rfl rfl rfl rfl rfl hdoom rfl rfl rfl rfl rfl)
        (fun j => (hdoom j).symm) (fun x hx => ?_) rfl rfl
      have hx' := mem_debt_of_give (g := (G p).learn i (some (s.inode i))) hx
      exact ⟨hx', debt_give hx (hp.debt x hx').1⟩
  · exact h.doom_step hi hfree

theorem ref_step (h : Base n s G) (ha : allows n W A (G p) (.ref i)) :
    Base n s (update G p ((G p).next (.ref i) (s.ref i))) := by
  have hp := h.holds p
  have hcounts := h.counts.step (t := s) (r := s.ref i) ha rfl
  obtain ⟨hi, hfree, -, -, -, c, hk, -⟩ := ha
  simp only [Ghost.next] at hcounts ⊢
  split
  · rename_i hone
    rw [if_pos hone] at hcounts
    have href : s.ref i = 1 := hone
    have h0 : i ≠ 0 := (hp.pos i (.inl hi)).ne'
    have hmem := Multiset.one_le_count_iff_mem.2 hi
    refine h.of_same hcounts rfl rfl rfl h.cwd h.file rfl hp.kept hp.pos
      (fun x hx => ⟨hx, (hp.debt x hx).1⟩) hp.fresh fun j hj => ?_
    obtain rfl : i = j := Option.some.inj hj
    refine ⟨locked_of_known hk, fun hmem' => ?_, fun q hq type hd => ?_⟩
    · have h1 : 1 ≤ ((G p).refs.erase i).count i := Multiset.one_le_count_iff_mem.2 hmem'
      have h2 := h.counts.count_le_ref h0 p
      rw [Multiset.count_erase_self] at h1
      omega
    · have h1 : 1 ≤ (G q).refs.count i := Multiset.one_le_count_iff_mem.2 ((h.holds q).debt _ hd).1
      have h2 := h.counts.count_add_le_ref h0 (Ne.symm hq)
      omega
  · exact h.doom_step hi hfree

theorem free_step (h : Base n s G) (ha : allows n W A (G p) (.free i)) :
    Base n (s.freeInode i)
      (update G p ((G p).next (.free i) ())) := by
  have hp := h.holds p
  have hcounts := h.counts.step (r := ())
    (t := s.freeInode i) ha rfl
  obtain ⟨hi, hfree, -, -, c, hk, -⟩ := ha
  obtain ⟨hl, herase⟩ := hp.freeing i hfree
  have hinode : ∀ j, j ≠ i → (s.freeInode i).inode j = s.inode j := fun j => s.freeInode_of_ne
  have hvalid : ∀ j, j ≠ i → (s.freeInode i).valid j = s.valid j := fun j hj =>
    update_of_ne hj ..
  have hother : ∀ q, q ≠ p → ∀ j c, (G q).known j = some c → j ≠ i := by
    rintro q hq j c hkq rfl
    exact hq (h.locked_unique (locked_of_known hkq) hl)
  have hdebt : ∀ x ∈ (((G p).learn i none).doom i).debt, x ∈ (G p).debt ∧ x.1 ≠ i := by
    intro x hx
    have hx' := mem_debt_of_give (g := (G p).learn i none) hx
    refine ⟨hx', ?_⟩
    rintro rfl
    exact herase (debt_give (g := (G p).learn x.1 none) hx (hp.debt x hx').1)
  refine h.of_step hcounts ⟨fun j => ?_, fun j c hk => ?_, fun j hj => ?_, fun j hj => ?_,
      fun x hx => ⟨?_, ?_⟩, hp.fresh, fun j hj => (by cases hj)⟩ (fun _ _ _ => Iff.rfl)
    (fun q hq j c hk => ⟨hinode j (hother q hq j c hk), hvalid j (hother q hq j c hk)⟩)
    (fun q hq x hx => ?_) (fun j hj => ?_) (fun j hj => ?_) h.cwd h.file
    (fun q _ j type hj => (by cases hj))
    fun q hq j type hj hmem => h.alone q p j type hq hj (hdebt _ hmem).1
  · exact (hp.lock j).trans (locked_learn (g := G p) (i := i) (x := none)).symm
  · have hji : j ≠ i := by
      rintro rfl
      have : ((G p).learn j none).known j = some c := hk
      rw [known_learn_self hl] at this
      cases this
    rw [hinode j hji, hvalid j hji]
    exact hp.known j c ((known_learn_of_ne hji).symm.trans hk)
  · exact (mem_doom (g := (G p).learn i none) hi).2
      (hp.kept j ((locked_learn (g := G p) (i := i) (x := none)).1 hj))
  · exact hp.pos j ((mem_doom (g := (G p).learn i none) hi).1 hj)
  · exact debt_give (g := (G p).learn i none) hx (hp.debt x (hdebt x hx).1).1
  · rw [hinode _ (hdebt x hx).2]
    exact (hp.debt x (hdebt x hx).1).2
  · by_cases hxi : x.1 = i
    · exact absurd (hxi ▸ hx) (h.alone p q i x.2 (Ne.symm hq) hfree)
    · rw [hinode _ hxi]
  · by_cases hji : j = i
    · subst hji
      simp [Disk.freeInode, Disk.setValid] at hj
    · rw [hvalid j hji] at hj
      rw [hinode j hji]
      exact h.valid j hj
  · by_cases hji : j = i
    · subst hji
      simp at hj
    · exact h.bound j (hinode j hji ▸ hj)

theorem wrote_locks {dp off inum : ℕ} {name : Name} (hk : g.known dp = some c) :
    (g.wrote dp off inum name).locks =
      (g.learn dp (some { c with ents := putEnt c.ents off ⟨inum % 65536, name⟩ })).locks := by
  fun_cases wrote g dp off inum name
  · simp_all
  all_goals
    cases hk.symm.trans ‹g.known dp = some _›
    rfl

theorem writei_step {dp off inum : ℕ} {name : Name} {r : Bool} (h : Base n s G)
    (ha : allows n W A (G p) (.writei dp off inum name))
    (hu : (G p).Urgent (.writei dp off inum name))
    (hr : (Op.writei dp off inum name).perform n p s = some (r, s')) :
    Base n s' (update G p ((G p).next (.writei dp off inum name) r)) := by
  have hp := h.holds p
  have hcounts := h.counts.step ha hr
  have hfree : (G p).freeing = none := freeing_eq_none hu (by simp)
  obtain ⟨hdp, ⟨c, hk, hdir⟩, herase, -⟩ := ha
  obtain ⟨hc, hvalid⟩ := hp.known dp c hk
  obtain ⟨L, F, D, hw⟩ := Counts.wrote_eq (G p) dp off inum name
  simp only [Op.perform] at hr
  split at hr
  · cases hr
    -- The debts of an entry that is erased are for inodes that are locked.
    have hdebt : ∀ x ∈ ((G p).wrote dp off inum name).debt, x.1 ∈ (G p).refs ∧
        (s.inode x.1).type = x.2 ∧ x.2 ≠ .free ∧ (x ∈ (G p).debt ∨ (G p).Locked x.1) := by
      have hold : ∀ x ∈ (G p).debt, x.1 ∈ (G p).refs ∧ (s.inode x.1).type = x.2 ∧
          x.2 ≠ .free ∧ (x ∈ (G p).debt ∨ (G p).Locked x.1) := fun x hx =>
        ⟨(hp.debt x hx).1, (hp.debt x hx).2.1, (hp.debt x hx).2.2, .inl hx⟩
      intro x hx
      simp only [wrote, hk] at hx
      split at hx
      · rename_i h0
        obtain ⟨c', e, y, hk', he, -, -, -, hy, hmem, -⟩ := herase h0
        obtain rfl : c = c' := Option.some.inj (hk.symm.trans hk')
        rw [he] at hx
        rcases Multiset.mem_add.1 hx with hx | hx
        · obtain ⟨hy1, hy2⟩ := h.type_of_known hy
          rcases mem_links hx with rfl | rfl
          · rw [typeOf_of_known hy, hy1]
            exact ⟨hmem, rfl, hy2, .inr (locked_of_known hy)⟩
          · rw [hc]
            exact ⟨hdp, hdir, by simp, .inr (locked_of_known hk)⟩
        · exact hold x hx
      · split at hx
        · exact hold x hx
        · exact hold x (Multiset.mem_of_le (Multiset.sub_le_self _ _) hx)
    refine h.of_learn hcounts (locked_of_known hk) ?_ rfl (fun j hj => ⟨s.writeEnt_of_ne hj, rfl⟩)
      hvalid ?_ (fun _ => s.writeEnt_type) (h.bound dp ?_) h.cwd h.file (fun j => ?_) (fun x hx => ?_)
      (fun j type hf => ?_) ?_
    · rw [s.writeEnt_self, hc]
      simp only [Ghost.next, if_true]
      exact wrote_locks hk
    · rw [s.writeEnt_type, hc, hdir]
      simp
    · rw [hc, hdir]
      simp
    · simp only [Ghost.next, if_true, hw]
    · simp only [Ghost.next, if_true] at hx ⊢
      obtain ⟨h1, h2, h3, h4⟩ := hdebt x hx
      rw [s.writeEnt_type, hw]
      exact ⟨h1, h2, h3, h4⟩
    · refine hp.fresh j type ?_
      simp only [Ghost.next, if_true, wrote, hk] at hf
      split at hf
      · split at hf
        · exact hf
        · exact hf
      · split at hf
        · exact hf
        · cases hf
    · simp only [Ghost.next, if_true, hw, hfree]
  · cases hr
    exact h.of_refs hcounts rfl rfl rfl h.cwd h.file rfl rfl rfl hfree rfl (fun _ => id)
      fun j hj => hp.pos j (.inl hj)

theorem setNlink_step {k : ℤ} (h : Base n s G) (ha : allows n W A (G p) (.setNlink i k))
    (hu : (G p).Urgent (.setNlink i k)) :
    Base n (s.setNlink i k)
      (update G p ((G p).next (.setNlink i k) ())) := by
  have hp := h.holds p
  have hcounts := h.counts.step (r := ())
    (t := s.setNlink i k) ha rfl
  have hfree : (G p).freeing = none := freeing_eq_none hu (by simp)
  obtain ⟨hi, c, hk, -⟩ := ha
  obtain ⟨hc, hvalid⟩ := hp.known i c hk
  have hctype := (h.type_of_known hk).2
  have hnext : (G p).next (.setNlink i k) () =
      { (G p).learn i (some { c with nlink := short k }) with
        debt := if k = c.nlink + 1 then (i, c.type) ::ₘ (G p).debt
          else (G p).debt.erase (i, c.type) } := by
    simp only [Ghost.next, counted, hk]
  refine h.of_learn hcounts (locked_of_known hk) ?_ rfl (fun j hj => ⟨s.setNlink_of_ne hj, rfl⟩)
    hvalid ?_ (fun _ => s.setNlink_type) (h.bound i ?_) h.cwd h.file (fun j => ?_) (fun x hx => ?_)
    (fun j type hf => ?_) ?_
  · rw [hnext, s.setNlink_self, hc]
  · rw [s.setNlink_type, hc]
    exact hctype
  · rw [hc]
    exact hctype
  · rw [hnext]
    rfl
  · rw [hnext] at hx ⊢
    rw [s.setNlink_type]
    have hx' : x = (i, c.type) ∨ x ∈ (G p).debt := by
      simp only at hx
      split at hx
      · exact Multiset.mem_cons.1 hx
      · exact .inr (Multiset.mem_of_mem_erase hx)
    rcases hx' with rfl | hx'
    · exact ⟨hi, by rw [hc], hctype, .inr (locked_of_known hk)⟩
    · exact ⟨(hp.debt x hx').1, (hp.debt x hx').2.1, (hp.debt x hx').2.2, .inl hx'⟩
  · rw [hnext] at hf
    exact hp.fresh j type hf
  · rw [hnext]
    exact hfree

theorem ialloc_step {type : Itype} {r : Bool} (h : Base n s G)
    (ha : allows n W A (G p) (.ialloc i type)) (hu : (G p).Urgent (.ialloc i type))
    (hr : (Op.ialloc i type).perform n p s = some (r, s')) :
    Base n s' (update G p ((G p).next (.ialloc i type) r)) := by
  have hp := h.holds p
  have hcounts := h.counts.step ha hr
  have hfree : (G p).freeing = none := freeing_eq_none hu (by simp)
  obtain ⟨hpos, hlt, htype, -, -⟩ := ha
  simp only [Op.perform] at hr
  split at hr
  · rename_i hi
    cases hr
    have hknown : ∀ q j c, (G q).known j = some c → j ≠ i := by
      rintro q j c hk rfl
      obtain ⟨rfl, hc⟩ := h.type_of_known hk
      exact hc hi
    have hdebt : ∀ q, ∀ x ∈ (G q).debt, x.1 ≠ i := by
      rintro q x hx rfl
      obtain ⟨-, h2, h3⟩ := (h.holds q).debt x hx
      exact h3 (h2.symm.trans hi)
    refine h.of_step hcounts ⟨hp.lock, fun j c hk => ?_, hp.kept, hp.pos, fun x hx => ?_,
        fun j t hf => ?_, fun j hj => ?_⟩ (fun _ _ _ => Iff.rfl)
      (fun q _ j c hk => ⟨s.allocInode_of_ne (hknown q j c hk), rfl⟩)
      (fun q _ x hx => by rw [s.allocInode_of_ne (hdebt q x hx)]) (fun j hj => ?_) (fun j hj => ?_)
      h.cwd h.file (fun q _ j t hj => ?_) fun q hq j t hj => h.alone q p j t hq hj
    · rw [s.allocInode_of_ne (hknown p j c hk)]
      exact hp.known j c hk
    · rw [s.allocInode_of_ne (hdebt p x hx)]
      exact hp.debt x hx
    · cases hf
      exact ⟨hpos, hlt⟩
    · exact absurd (hfree.symm.trans hj) (by simp)
    · by_cases hji : j = i
      · rw [hji, s.allocInode_self]
        exact htype
      · rw [s.allocInode_of_ne hji]
        exact h.valid j hj
    · by_cases hji : j = i
      · rw [hji]
        exact ⟨hpos, hlt⟩
      · rw [s.allocInode_of_ne hji] at hj
        exact h.bound j hj
    · exact absurd (hfree.symm.trans hj) (by simp)
  · cases hr
    exact h.of_refs hcounts rfl rfl rfl h.cwd h.file rfl rfl rfl hfree rfl (fun _ => id)
      fun j hj => hp.pos j (.inl hj)

theorem give_step (h : Base n s G) (hcounts : Counts s' (update G p g)) (hi : i ∈ (G p).refs)
    (hl : ¬ (G p).Locked i) (hlock : s'.lock = s.lock) (hinode : s'.inode = s.inode)
    (hvalid : s'.valid = s.valid) (hcwd : ∀ q, s'.used q = true → 0 < s'.cwd q)
    (hfile : ∀ f j, (s'.file f).ip = some j → 0 < j) (hrefs : g.refs = ((G p).give i).refs)
    (hdrops : g.drops = (G p).drops) (hlocks : g.locks = (G p).locks)
    (hdebt : g.debt = ((G p).give i).debt) (hfresh : g.fresh = (G p).fresh)
    (hfree : g.freeing = none) : Base n s' (update G p g) := by
  have hp := h.holds p
  refine h.of_same hcounts hlock hinode hvalid hcwd hfile hlocks (fun j hj => ?_) (fun j hj => ?_)
    (fun x hx => ?_) (fun j type hf => hp.fresh j type (hfresh ▸ hf)) fun j hj => ?_
  · have hji : j ≠ i := by
      rintro rfl
      exact hl hj
    rw [hrefs, hdrops]
    exact (hp.kept j hj).imp_left (Multiset.mem_erase_of_ne hji).2
  · rw [hrefs, hdrops] at hj
    exact hp.pos j (hj.imp_left Multiset.mem_of_mem_erase)
  · rw [hdebt] at hx
    rw [hrefs]
    have hx' := mem_debt_of_give hx
    exact ⟨hx', debt_give hx (hp.debt x hx').1⟩
  · rw [hfree] at hj
    cases hj

theorem drop_step (h : Base n s G) (ha : allows n W A (G p) (.drop i))
    (hu : (G p).Urgent (.drop i)) :
    Base n (s.setRef i (s.ref i - 1)) (update G p ((G p).next (.drop i) ())) := by
  have hp := h.holds p
  have hcounts := h.counts.step (t := s.setRef i (s.ref i - 1)) (r := ()) ha rfl
  have hfree : (G p).freeing = none := freeing_eq_none hu (by simp)
  refine h.of_same hcounts rfl rfl rfl h.cwd h.file rfl (fun j hj => ?_) (fun j hj => ?_)
    (fun x hx => ⟨hx, (hp.debt x hx).1⟩) hp.fresh fun j hj => ?_
  · have hji : j ≠ i := by
      rintro rfl
      exact ha.2 hj
    exact (hp.kept j hj).imp_right (Multiset.mem_erase_of_ne hji).2
  · exact hp.pos j (hj.imp_right Multiset.mem_of_mem_erase)
  · exact absurd (hfree.symm.trans hj) (by simp)

theorem step {o : Op} {r : o.Answer} (h : Base n s G) (ha : allows n W A (G p) o)
    (hu : (G p).Urgent o) (hr : o.perform n p s = some (r, s')) :
    Base n s' (update G p ((G p).next o r)) := by
  have hp := h.holds p
  have hcounts := h.counts.step ha hr
  have hfree : (∀ i, o ≠ .free i) → (G p).freeing = none := freeing_eq_none hu
  -- A step that takes references to inodes that are in use.
  have hmore : ∀ {s' : Disk} {g : Ghost} (R : Multiset ℕ), Counts s' (update G p g) →
      s'.lock = s.lock → s'.inode = s.inode → s'.valid = s.valid →
      (∀ q, s'.used q = true → 0 < s'.cwd q) → (∀ f i, (s'.file f).ip = some i → 0 < i) →
      g.locks = (G p).locks → g.debt = (G p).debt → g.fresh = (G p).fresh → g.freeing = none →
      g.drops = (G p).drops → g.refs = R + (G p).refs → (∀ i ∈ R, 0 < i) →
      Base n s' (update G p g) := by
    intro s' g R hc h1 h2 h3 h4 h5 h6 h7 h8 h9 h10 h11 hR
    refine h.of_refs hc h1 h2 h3 h4 h5 h6 h7 h8 h9 h10 (fun i hi => ?_) fun i hi => ?_
    · rw [h11]
      exact Multiset.mem_add.2 (.inr hi)
    · rw [h11] at hi
      exact (Multiset.mem_add.1 hi).elim (hR i) fun hi => hp.pos i (.inl hi)
  have hquiet : ∀ {s' : Disk} {g : Ghost}, Counts s' (update G p g) → s'.lock = s.lock →
      s'.inode = s.inode → s'.valid = s.valid → (∀ q, s'.used q = true → 0 < s'.cwd q) →
      (∀ f i, (s'.file f).ip = some i → 0 < i) → g.locks = (G p).locks → g.debt = (G p).debt →
      g.fresh = (G p).fresh → g.freeing = none → g.drops = (G p).drops → g.refs = (G p).refs →
      Base n s' (update G p g) := by
    intro s' g hc h1 h2 h3 h4 h5 h6 h7 h8 h9 h10 h11
    exact hmore 0 hc h1 h2 h3 h4 h5 h6 h7 h8 h9 h10 (by rw [h11, zero_add]) (by simp)
  cases o with
  | iget site i => exact h.iget_step ha hu hr
  | acquiresleep site i => exact (h.acquiresleep_step ha hu hr).2
  | load i => exact h.load_step ha hu hr
  | releasesleep site i =>
    cases hr
    exact h.releasesleep_step ha
  | peek i =>
    cases hr
    exact h.peek_step ha
  | ref i =>
    cases hr
    exact h.ref_step ha
  | free i =>
    cases hr
    exact h.free_step ha
  | drop i =>
    cases hr
    exact h.drop_step ha hu
  | writei dp off inum name => exact h.writei_step ha hu hr
  | setNlink i k =>
    cases hr
    exact h.setNlink_step ha hu
  | ialloc i type => exact h.ialloc_step ha hu hr
  | ilockRef i | read i | holding i =>
    cases hr
    exact hquiet hcounts rfl rfl rfl h.cwd h.file rfl rfl rfl (hfree (by simp)) rfl rfl
  | idupCwd =>
    cases hr
    refine hmore {s.cwd p} hcounts rfl rfl rfl h.cwd h.file rfl rfl rfl (hfree (by simp)) rfl rfl ?_
    simpa using h.cwd p ((h.counts.own p).running ha.2)
  | cwd =>
    cases hr
    refine hmore {s.cwd p} hcounts rfl rfl rfl h.cwd h.file rfl rfl rfl (hfree (by simp)) rfl rfl ?_
    simpa using h.cwd p ((h.counts.own p).running ha.2)
  | setCwd i =>
    cases hr
    refine h.give_step hcounts ha.2.2.1 ha.2.2.2.1 rfl rfl rfl (fun q hq => ?_) h.file rfl rfl rfl
      rfl rfl (hfree (by simp))
    by_cases hqp : q = p
    · rw [hqp]
      simpa using hp.pos i (.inl ha.2.2.1)
    · simpa [update_of_ne hqp] using h.cwd q hq
  | setFile f i =>
    cases hr
    refine h.give_step hcounts ha.2.1 ha.2.2.1 rfl rfl rfl h.cwd (fun k j hk => ?_) rfl rfl rfl rfl
      rfl (hfree (by simp))
    by_cases hkf : k = f
    · subst hkf
      obtain rfl : i = j := by simpa [Disk.setFile] using hk
      exact hp.pos i (.inl ha.2.1)
    · refine h.file k j ?_
      simpa [Disk.setFile, update_of_ne hkf] using hk
  | takeFd fd =>
    cases hr
    revert hcounts
    simp only [Ghost.next]
    split
    all_goals
      intro hcounts
      exact hquiet hcounts rfl rfl rfl h.cwd h.file rfl rfl rfl (hfree (by simp)) rfl rfl
  | filealloc =>
    simp only [Op.perform] at hr
    split at hr
    · rename_i f hf
      cases hr
      refine hquiet hcounts rfl rfl rfl h.cwd (fun k j hk => ?_) rfl rfl rfl (hfree (by simp)) rfl
        rfl
      by_cases hkf : k = f
      · subst hkf
        exact h.file k j (by simpa [Disk.setFile] using hk)
      · exact h.file k j (by simpa [Disk.setFile, update_of_ne hkf] using hk)
    · cases hr
      exact hquiet hcounts rfl rfl rfl h.cwd h.file rfl rfl rfl (hfree (by simp)) rfl rfl
  | fdalloc f =>
    simp only [Op.perform] at hr
    split at hr
    all_goals
      cases hr
      exact hquiet hcounts rfl rfl rfl h.cwd h.file rfl rfl rfl (hfree (by simp)) rfl rfl
  | fileclose f =>
    have hfile : ∀ m k j, ((s.setFile f ⟨m, (s.file f).ip⟩).file k).ip = some j → 0 < j := by
      intro m k j hk
      by_cases hkf : k = f
      · subst hkf
        exact h.file k j (by simpa [Disk.setFile] using hk)
      · exact h.file k j (by simpa [Disk.setFile, update_of_ne hkf] using hk)
    have hnone : ∀ k j, ((s.setFile f ⟨0, none⟩).file k).ip = some j → 0 < j := by
      intro k j hk
      by_cases hkf : k = f
      · subst hkf
        simp [Disk.setFile] at hk
      · exact h.file k j (by simpa [Disk.setFile, update_of_ne hkf] using hk)
    rcases Counts.fileclose_eq hr with ⟨rfl, -, rfl⟩ | ⟨rfl, -, rfl⟩ | ⟨m, rfl, -, rfl⟩
    · exact hquiet hcounts rfl rfl rfl h.cwd h.file rfl rfl rfl (hfree (by simp)) rfl rfl
    · cases hip : (s.file f).ip with
      | none =>
        rw [hip] at hcounts
        exact hquiet hcounts rfl rfl rfl h.cwd hnone rfl rfl rfl (hfree (by simp)) rfl rfl
      | some i =>
        rw [hip] at hcounts
        refine hmore {i} hcounts rfl rfl rfl h.cwd hnone rfl rfl rfl (hfree (by simp)) rfl rfl ?_
        simpa using h.file f i hip
    · exact hquiet hcounts rfl rfl rfl h.cwd (hfile _) rfl rfl rfl (hfree (by simp)) rfl rfl
  | fork np =>
    simp only [Op.perform] at hr
    split at hr
    · cases hr
      refine hquiet hcounts rfl rfl rfl (fun q hq => ?_) h.file rfl rfl rfl (hfree (by simp)) rfl
        rfl
      by_cases hqp : q = np
      · rw [hqp]
        simpa using h.cwd p ((h.counts.own p).running ha.2.1)
      · simp only [update_of_ne hqp] at hq ⊢
        exact h.cwd q hq
    · cases hr
      exact hquiet hcounts rfl rfl rfl h.cwd h.file rfl rfl rfl (hfree (by simp)) rfl rfl
  | exit =>
    cases hr
    refine hquiet hcounts rfl rfl rfl (fun q hq => ?_) h.file rfl rfl rfl (hfree (by simp)) rfl rfl
    by_cases hqp : q = p
    · rw [hqp] at hq
      simp at hq
    · simp only [update_of_ne hqp] at hq ⊢
      exact h.cwd q hq

theorem answer {o : Op} {r : o.Answer} (h : Base n s G) (ha : allows n W A (G p) o)
    (hr : o.perform n p s = some (r, s'))
    (hordered : ∀ site i, o = .iget site i → A → site ≠ .dirlink dot ∧ site ≠ .dirlink dotdot)
    (hsound : ∀ i, o = .load i → W → (s.inode i).type ≠ .free ∧
      (∀ type, (G p).fresh = some (i, type) → s.inode i = ⟨type, 0, []⟩) ∧
      ((∀ type, (G p).fresh ≠ some (i, type)) → (s.inode i).type = .dir →
        find dot (s.inode i).ents ≠ none ∧ find dotdot (s.inode i).ents ≠ none)) :
    answers n W A (G p) o r := by
  have hp := h.holds p
  cases o with
  | iget site i => exact hordered site i rfl
  | ilockRef i =>
    cases hr
    exact h.ref_pos (.inl ha)
  | acquiresleep site i =>
    intro hl
    simp [Op.perform, (hp.lock i).2 hl] at hr
  | load i =>
    simp only [Op.perform] at hr
    split at hr
    · rename_i hc
      cases hr
      have htype : (s.inode i).type ≠ .free := hc.elim (h.valid i) id
      refine ⟨?_, fun _ => by simp, fun hW type hf => ?_, fun hW hf => ?_⟩
      · rintro c hc
        cases hc
        exact ⟨htype, (h.bound i htype).1, (h.bound i htype).2,
          fun type hd => (hp.debt _ hd).2.1⟩
      · rw [(hsound i rfl hW).2.1 type hf]
      · rintro c hc
        cases hc
        exact (hsound i rfl hW).2.2 hf
    · rename_i hc
      cases hr
      have hnW : ¬ W := fun hW => hc (.inr (hsound i rfl hW).1)
      exact ⟨fun c hc => (by cases hc), fun hW => absurd hW hnW, fun hW => absurd hW hnW,
        fun hW => absurd hW hnW⟩
  | read i =>
    cases hr
    obtain ⟨c, hk⟩ := ha
    obtain ⟨rfl, -⟩ := hp.known i c hk
    exact hk
  | holding i =>
    cases hr
    exact decide_eq_true ⟨(hp.lock i).2 ha.2, h.ref_pos (.inl ha.1)⟩
  | fileclose f =>
    intro hopen
    obtain ⟨hip, hone, -⟩ := (h.counts.own p).opening f hopen
    rcases Counts.fileclose_eq hr with ⟨-, h0, -⟩ | ⟨rfl, -, -⟩ | ⟨m, -, hm, -⟩
    · omega
    · rw [hip]
    · omega
  | ialloc i type =>
    rintro rfl c hk
    obtain ⟨rfl, hc⟩ := h.type_of_known hk
    simp [Op.perform, hc] at hr
  | idupCwd | releasesleep site i | peek i | ref i | free i | drop i | writei dp off inum name
  | setNlink i k | cwd | setCwd i | takeFd fd | filealloc | fdalloc f
  | setFile f i | fork np | exit => trivial

theorem start (h : Base n s G) (hg : G p = Ghost.idle) (hused : s.used p = true) :
    Base n s (update G p Ghost.start) := by
  have hcounts : Counts s (update G p Ghost.start) := by
    refine h.counts.of_move (fun _ _ => rfl) (fun _ _ => rfl) (fun _ _ => rfl) (fun i _ => ?_)
      (fun f => ?_) h.counts.fileIp (h.counts.unused p)
      (fun q _ f hf => ⟨((h.counts.own q).opening f hf).1, ((h.counts.own q).opening f hf).2.1⟩)
      ⟨fun _ => hused, fun ht => (by cases ht), fun _ _ hfd => (by cases hfd),
        fun f hf => (by cases hf)⟩
    · rw [hg]
      rfl
    · rw [hg]
      rfl
  refine h.of_same hcounts rfl rfl rfl h.cwd h.file ?_ (fun i hi => ?_) (fun i hi => ?_)
    (fun x hx => ?_) (fun i type hf => ?_) fun i hi => ?_
  · rw [hg]
    rfl
  · rw [hg] at hi
    cases hi
  · simp [Ghost.start, Ghost.idle] at hi
  · simp [Ghost.start, Ghost.idle] at hx
  · cases hf
  · cases hi

theorem done (h : Base n s G) (hs : (G p).Settled W) : Base n s (update G p Ghost.idle) := by
  have hcounts : Counts s (update G p Ghost.idle) := by
    refine h.counts.of_move (fun _ _ => rfl) (fun _ _ => rfl) (fun _ _ => rfl) (fun i _ => ?_)
      (fun f => ?_) h.counts.fileIp (h.counts.unused p)
      (fun q _ f hf => ⟨((h.counts.own q).opening f hf).1, ((h.counts.own q).opening f hf).2.1⟩)
      ⟨fun hr => (by cases hr), fun ht => (by cases ht), fun hr => (by cases hr),
        fun f hf => (by cases hf)⟩
    · rw [refsOf, refsOf, hs.refs, hs.drops, hs.cwdTaken]
      rfl
    · simp only [filesOf, hs.files]
      rfl
  refine h.of_same hcounts rfl rfl rfl h.cwd h.file hs.locks.symm (fun i hi => ?_) (fun i hi => ?_)
    (fun x hx => ?_) (fun i type hf => ?_) fun i hi => ?_
  · simp [Locked, hs.locks] at hi
  · simp [Ghost.idle] at hi
  · simp [Ghost.idle] at hx
  · cases hf
  · cases hi

end Base

/-- A state of the file system in which no call is in progress. -/
structure Disk.Quiet (n : ℕ) (s : Disk) : Prop where
  ref : ∀ i, i ≠ 0 → s.ref i = s.fileRefs i + ∑ p, if s.cwd p = i then 1 else 0
  fileRef : ∀ f, (s.file f).ref = ∑ p, s.fds p f
  fileIp : ∀ f, (s.file f).ref = 0 → (s.file f).ip = none
  file : ∀ f i, (s.file f).ip = some i → 0 < i
  unused : ∀ p, s.used p = false → s.cwd p = 0 ∧ ∀ fd, s.ofile p fd = none
  cwd : ∀ p, s.used p = true → 0 < s.cwd p
  lock : ∀ i, s.lock i = none
  valid : ∀ i, s.valid i = true → (s.inode i).type ≠ .free
  bound : ∀ i, (s.inode i).type ≠ .free → 0 < i ∧ i < n

theorem Disk.Quiet.base {n : ℕ} {s : Disk} (h : s.Quiet n) : Base n s fun _ => Ghost.idle where
  counts := by
    refine ⟨fun i hi => ?_, fun f => ?_, h.fileIp, h.unused, fun p => ⟨fun hr => (by cases hr),
      fun ht => (by cases ht), fun hr => (by cases hr), fun f hf => (by cases hf)⟩⟩
    · rw [h.ref i hi]
      simp [refsOf, Ghost.idle]
    · rw [h.fileRef f]
      simp [filesOf, Ghost.idle]
  holds p := by
    refine ⟨fun i => ?_, fun i c hk => (by cases hk), fun i hi => (by cases hi), fun i hi => ?_,
      fun x hx => ?_, fun i type hf => (by cases hf), fun i hi => (by cases hi)⟩
    · simp [h.lock i, Locked, Ghost.idle]
    · simp [Ghost.idle] at hi
    · simp [Ghost.idle] at hx
  valid := h.valid
  bound := h.bound
  cwd := h.cwd
  file := h.file
  alone p q i type _ hf := by cases hf

def init : Pid := ⟨0, NPROC_pos⟩

def child : Pid := ⟨1, one_lt_NPROC⟩

def boot : Disk where
  inode i := if i = ROOTINO then ⟨.dir, 1, [⟨ROOTINO, dot⟩, ⟨ROOTINO, dotdot⟩]⟩ else ⟨.free, 0, []⟩
  gen _ := 0
  entGen _ _ := 0
  ref i := if i = ROOTINO then 2 else 0
  valid _ := false
  lock _ := none
  file _ := ⟨0, none⟩
  ofile _ _ := none
  cwd p := if p.val < 2 then ROOTINO else 0
  used p := decide (p.val < 2)

theorem quiet_boot {n : ℕ} (hn : ROOTINO < n) : boot.Quiet n where
  ref i hi := by
    have hfiles : boot.fileRefs i = 0 := by simp [Disk.fileRefs, boot]
    rw [hfiles, Nat.zero_add]
    by_cases h : i = ROOTINO
    · subst h
      decide
    · have hcwd : ∀ p, boot.cwd p ≠ i := by
        intro p
        simp only [boot]
        split
        · exact Ne.symm h
        · exact Ne.symm hi
      rw [Finset.sum_eq_zero fun p _ => if_neg (hcwd p)]
      exact if_neg h
  fileRef f := by simp [Disk.fds, boot]
  fileIp f _ := rfl
  file f i h := by cases h
  unused p h := by
    have hp : ¬ p.val < 2 := of_decide_eq_false h
    exact ⟨if_neg hp, fun _ => rfl⟩
  cwd p h := by
    have hp : p.val < 2 := of_decide_eq_true h
    show 0 < if p.val < 2 then ROOTINO else 0
    rw [if_pos hp]
    decide
  lock _ := rfl
  valid i h := by cases h
  bound i h := by
    by_cases hi : i = ROOTINO
    · subst hi
      exact ⟨by decide, hn⟩
    · simp [boot, hi] at h

def begins (p : Pid) (c : Call) (k : ℕ) : List Event := .start p c :: List.replicate k (.run p)

def calls (p : Pid) (c : Call) (k : ℕ) : List Event := begins p c k ++ [.done p]

end Xv6.Fs
