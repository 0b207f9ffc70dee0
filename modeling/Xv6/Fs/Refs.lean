import Xv6.Fs.Protocol
import Xv6.Lib.Sum

/-!
# Reference counts

`ip->ref` is the number of references to an inode that the open files, the current directories and
the calls in progress hold, and `f->ref` the number of descriptors and calls in progress that refer
to a file. The ghost states say what a call in progress holds. Each operation that the protocol
allows keeps the two counts exact.
-/

namespace Xv6.Fs

open Function

def Disk.fileRefs (s : Disk) (i : ℕ) : ℕ := ∑ f, if (s.file f).ip = some i then 1 else 0

def refsOf (s : Disk) (p : Pid) (g : Ghost) (i : ℕ) : ℕ :=
  g.refs.count i + g.drops.count i + if s.cwd p = i ∧ g.cwdTaken = false then 1 else 0

def filesOf (s : Disk) (p : Pid) (g : Ghost) (f : Fin NFILE) : ℕ := s.fds p f + g.files.count f

/-- What the ghost state of a process says of its slot and its files. -/
structure Ghost.Own (s : Disk) (p : Pid) (g : Ghost) : Prop where
  running : g.running = true → s.used p = true
  taken : g.cwdTaken = true → g.running = true
  closed : g.running = true → ∀ fd ∈ g.closed, s.ofile p fd = none
  opening : ∀ f, g.opening = some f →
    (s.file f).ip = none ∧ (s.file f).ref = 1 ∧ filesOf s p g f = 1

/-- The counts are exact. -/
structure Counts (s : Disk) (G : Pid → Ghost) : Prop where
  ref : ∀ i, i ≠ 0 → s.ref i = s.fileRefs i + ∑ p, refsOf s p (G p) i
  file : ∀ f, (s.file f).ref = ∑ p, filesOf s p (G p) f
  fileIp : ∀ f, (s.file f).ref = 0 → (s.file f).ip = none
  unused : ∀ p, s.used p = false → s.cwd p = 0 ∧ ∀ fd, s.ofile p fd = none
  own : ∀ p, (G p).Own s p

namespace Counts

variable {s s' : Disk} {G : Pid → Ghost} {p : Pid} {g : Ghost} {i m : ℕ} {f : Fin NFILE}

theorem count_le_ref (h : Counts s G) (hi : i ≠ 0) (p : Pid) :
    (G p).refs.count i + (G p).drops.count i ≤ s.ref i := by
  have hle := Finset.single_le_sum (f := fun q => refsOf s q (G q) i)
    (fun q _ => Nat.zero_le _) (Finset.mem_univ p)
  rw [h.ref i hi]
  simp only [refsOf] at hle ⊢
  omega

theorem count_add_le_ref (h : Counts s G) (hi : i ≠ 0) {q : Pid} (hpq : p ≠ q) :
    (G p).refs.count i + (G q).refs.count i ≤ s.ref i := by
  have hsub := Finset.sum_le_sum_of_subset (f := fun q => refsOf s q (G q) i)
    (Finset.subset_univ {p, q})
  rw [Finset.sum_pair hpq] at hsub
  rw [h.ref i hi]
  simp only [refsOf] at hsub ⊢
  omega

theorem filesOf_le_ref (h : Counts s G) (p : Pid) (f : Fin NFILE) :
    filesOf s p (G p) f ≤ (s.file f).ref := by
  rw [h.file f]
  exact Finset.single_le_sum (f := fun q => filesOf s q (G q) f) (fun q _ => Nat.zero_le _)
    (Finset.mem_univ p)

theorem of_move (h : Counts s G) (hcwd : ∀ q, q ≠ p → s'.cwd q = s.cwd q)
    (hofile : ∀ q, q ≠ p → s'.ofile q = s.ofile q) (hused : ∀ q, q ≠ p → s'.used q = s.used q)
    (href : ∀ i, i ≠ 0 → s'.ref i + s.fileRefs i + refsOf s p (G p) i =
      s.ref i + s'.fileRefs i + refsOf s' p g i)
    (hfile : ∀ f, (s'.file f).ref + filesOf s p (G p) f = (s.file f).ref + filesOf s' p g f)
    (hip : ∀ f, (s'.file f).ref = 0 → (s'.file f).ip = none)
    (hunused : s'.used p = false → s'.cwd p = 0 ∧ ∀ fd, s'.ofile p fd = none)
    (hopen : ∀ q, q ≠ p → ∀ f, (G q).opening = some f →
      (s'.file f).ip = none ∧ (s'.file f).ref = 1)
    (hown : g.Own s' p) : Counts s' (update G p g) where
  ref i hi := by
    have hsum := sum_add_of_eq_of_ne (f := fun q => refsOf s q (G q) i)
      (g := fun q => refsOf s' q (update G p g q) i) p fun q hq => by
        simp only [refsOf, update_of_ne hq, hcwd q hq]
    have := h.ref i hi
    have := href i hi
    simp only [update_self] at hsum
    omega
  file f := by
    have hsum := sum_add_of_eq_of_ne (f := fun q => filesOf s q (G q) f)
      (g := fun q => filesOf s' q (update G p g q) f) p fun q hq => by
        simp only [filesOf, Disk.fds, update_of_ne hq, hofile q hq]
    have := h.file f
    have := hfile f
    simp only [update_self] at hsum
    omega
  fileIp := hip
  unused q hq := by
    by_cases hqp : q = p
    · subst hqp
      exact hunused hq
    · rw [hcwd q hqp, hofile q hqp]
      exact h.unused q (hused q hqp ▸ hq)
  own q := by
    by_cases hqp : q = p
    · subst hqp
      rw [update_self]
      exact hown
    · rw [update_of_ne hqp]
      have hq := h.own q
      refine ⟨fun hr => (hused q hqp).trans (hq.running hr), hq.taken, fun hr fd hfd => ?_,
        fun f hf => ?_⟩
      · rw [hofile q hqp]
        exact hq.closed hr fd hfd
      · refine ⟨(hopen q hqp f hf).1, (hopen q hqp f hf).2, ?_⟩
        have := (hq.opening f hf).2.2
        simpa only [filesOf, Disk.fds, hofile q hqp] using this

theorem of_eq (h : Counts s G) (href : s'.ref = s.ref) (hfile : s'.file = s.file)
    (hofile : s'.ofile = s.ofile) (hcwd : s'.cwd = s.cwd) (hused : s'.used = s.used)
    (hrefs : ∀ i, g.refs.count i + g.drops.count i = (G p).refs.count i + (G p).drops.count i)
    (hfiles : g.files = (G p).files) (hopen : g.opening = (G p).opening)
    (htaken : g.cwdTaken = (G p).cwdTaken) (hclosed : g.closed = (G p).closed)
    (hrun : g.running = (G p).running) : Counts s' (update G p g) := by
  have hp := h.own p
  refine h.of_move (fun q _ => by rw [hcwd]) (fun q _ => by rw [hofile]) (fun q _ => by rw [hused])
    (fun i _ => ?_) (fun f => ?_) (fun f => ?_) (fun hp => ?_) (fun q _ f hf => ?_)
    ⟨fun hr => ?_, fun ht => ?_, fun hr fd hfd => ?_, fun f hf => ?_⟩
  · have := hrefs i
    simp only [refsOf, Disk.fileRefs, href, hfile, hcwd, htaken]
    omega
  · simp only [filesOf, Disk.fds, hfile, hofile, hfiles]
  · rw [hfile]
    exact h.fileIp f
  · rw [hcwd, hofile]
    exact h.unused p (hused ▸ hp)
  · rw [hfile]
    exact ⟨((h.own q).opening f hf).1, ((h.own q).opening f hf).2.1⟩
  · rw [hused]
    exact hp.running (hrun ▸ hr)
  · exact hrun.trans (hp.taken (htaken ▸ ht))
  · rw [hofile]
    exact hp.closed (hrun ▸ hr) fd (hclosed ▸ hfd)
  · simpa only [filesOf, Disk.fds, hfile, hofile, hfiles] using hp.opening f (hopen ▸ hf)

theorem of_ref (h : Counts s G) {m : ℕ}
    (hm : i ≠ 0 → m + ((G p).refs.count i + (G p).drops.count i) =
      s.ref i + (g.refs.count i + g.drops.count i))
    (hother : ∀ j, j ≠ i → g.refs.count j + g.drops.count j =
      (G p).refs.count j + (G p).drops.count j)
    (hfiles : g.files = (G p).files) (hopen : g.opening = (G p).opening)
    (htaken : g.cwdTaken = (G p).cwdTaken) (hclosed : g.closed = (G p).closed)
    (hrun : g.running = (G p).running) : Counts (s.setRef i m) (update G p g) := by
  have hp := h.own p
  refine h.of_move (fun q _ => rfl) (fun q _ => rfl) (fun q _ => rfl) (fun j hj0 => ?_)
    (fun f => ?_) h.fileIp (h.unused p) (fun q _ f hf => ?_)
    ⟨fun hr => hp.running (hrun ▸ hr), fun ht => hrun.trans (hp.taken (htaken ▸ ht)),
      fun hr fd hfd => hp.closed (hrun ▸ hr) fd (hclosed ▸ hfd), fun f hf => ?_⟩
  · have hfiles : (s.setRef i m).fileRefs j = s.fileRefs j := rfl
    have hcwd : (s.setRef i m).cwd = s.cwd := rfl
    by_cases hj : j = i
    · subst hj
      have := hm hj0
      have hj : (s.setRef j m).ref j = m := update_self ..
      simp only [refsOf, hj, hfiles, hcwd, htaken]
      omega
    · have := hother j hj
      have hj : (s.setRef i m).ref j = s.ref j := update_of_ne hj ..
      simp only [refsOf, hj, hfiles, hcwd, htaken]
      omega
  · show _ + (s.fds p f + _) = _ + (s.fds p f + _)
    rw [hfiles]
    rfl
  · exact ⟨((h.own q).opening f hf).1, ((h.own q).opening f hf).2.1⟩
  · obtain ⟨hip, hone, hof⟩ := hp.opening f (hopen ▸ hf)
    refine ⟨hip, hone, ?_⟩
    rw [filesOf, ← hfiles] at hof
    exact hof

theorem count_doom (hi : i ∈ g.refs) (j : ℕ) :
    (g.doom i).refs.count j + (g.doom i).drops.count j = g.refs.count j + g.drops.count j := by
  show (g.refs.erase i).count j + (i ::ₘ g.drops).count j = _
  by_cases hj : j = i
  · subst hj
    have := Multiset.one_le_count_iff_mem.2 hi
    rw [Multiset.count_erase_self, Multiset.count_cons_self]
    omega
  · rw [Multiset.count_erase_of_ne hj, Multiset.count_cons_of_ne hj]

theorem count_erase (hi : i ∈ g.refs) (j : ℕ) :
    (g.refs.erase i).count j + (if i = j then 1 else 0) = g.refs.count j := by
  by_cases hj : i = j
  · subst hj
    have := Multiset.one_le_count_iff_mem.2 hi
    rw [Multiset.count_erase_self, if_pos rfl]
    omega
  · rw [Multiset.count_erase_of_ne (Ne.symm hj), if_neg hj, Nat.add_zero]

theorem count_cons (j : ℕ) : (i ::ₘ g.refs).count j = g.refs.count j + if i = j then 1 else 0 := by
  by_cases hj : i = j
  · subst hj
    rw [Multiset.count_cons_self, if_pos rfl]
  · rw [Multiset.count_cons_of_ne (Ne.symm hj), if_neg hj, Nat.add_zero]

theorem fds_setFd (s : Disk) (p : Pid) (fd : Fin NOFILE) (x : Option (Fin NFILE))
    (f : Fin NFILE) : (s.setFd p fd x).fds p f + (if s.ofile p fd = some f then 1 else 0) =
      s.fds p f + if x = some f then 1 else 0 := by
  have hof : (s.setFd p fd x).ofile p = update (s.ofile p) fd x := update_self ..
  have hsum := sum_add_of_eq_of_ne (f := fun k => if s.ofile p k = some f then 1 else 0)
    (g := fun k => if update (s.ofile p) fd x k = some f then 1 else 0) fd fun k hk => by
      simp only [update_of_ne hk]
  simp only [update_self] at hsum
  simp only [Disk.fds, hof]
  exact hsum

theorem fileRefs_setFile (s : Disk) (f : Fin NFILE) (m : ℕ) (x : Option ℕ) (i : ℕ) :
    (s.setFile f ⟨m, x⟩).fileRefs i + (if (s.file f).ip = some i then 1 else 0) =
      s.fileRefs i + if x = some i then 1 else 0 := by
  have hsum := sum_add_of_eq_of_ne (f := fun k => if (s.file k).ip = some i then 1 else 0)
    (g := fun k => if (update s.file f ⟨m, x⟩ k).ip = some i then 1 else 0) f fun k hk => by
      simp only [update_of_ne hk]
  simp only [update_self] at hsum
  simp only [Disk.fileRefs, Disk.setFile]
  exact hsum

theorem cwd_step (h : Counts s G) (htaken : (G p).cwdTaken = false)
    (hrun : (G p).running = true) :
    Counts s (update G p { G p with refs := s.cwd p ::ₘ (G p).refs, cwdTaken := true }) := by
  have hp := h.own p
  refine h.of_move (fun _ _ => rfl) (fun _ _ => rfl) (fun _ _ => rfl) (fun j _ => ?_)
    (fun f => rfl) h.fileIp (h.unused p)
    (fun q _ f hf => ⟨((h.own q).opening f hf).1, ((h.own q).opening f hf).2.1⟩)
    ⟨hp.running, fun _ => hrun, hp.closed, hp.opening⟩
  have := count_cons (g := G p) (i := s.cwd p) j
  simp only [refsOf, htaken, and_true]
  simp only [reduceCtorEq, and_false, if_false]
  omega

theorem setCwd_step (h : Counts s G) (htaken : (G p).cwdTaken = true)
    (hrun : (G p).running = true) (hi : i ∈ (G p).refs) :
    Counts { s with cwd := update s.cwd p i }
      (update G p { (G p).give i with cwdTaken := false }) := by
  have hp := h.own p
  refine h.of_move (fun q hq => update_of_ne hq ..) (fun _ _ => rfl) (fun _ _ => rfl)
    (fun j _ => ?_) (fun f => rfl) h.fileIp (fun hused => ?_)
    (fun q _ f hf => ⟨((h.own q).opening f hf).1, ((h.own q).opening f hf).2.1⟩)
    ⟨hp.running, fun ht => (by cases ht), hp.closed, hp.opening⟩
  · have := count_erase hi j
    have hfiles : Disk.fileRefs { s with cwd := update s.cwd p i } j = s.fileRefs j := rfl
    simp only [refsOf, Ghost.give, htaken, update_self, hfiles, and_true]
    simp only [reduceCtorEq, and_false, if_false]
    omega
  · have : s.used p = true := hp.running hrun
    exact absurd (hused.symm.trans this) (by simp)

theorem takeFd_step (h : Counts s G) (hopen : (G p).opening = none) (fd : Fin NOFILE) :
    Counts (s.setFd p fd none)
      (update G p ((G p).next (.takeFd fd) (s.ofile p fd))) := by
  have hp := h.own p
  have hof : (s.setFd p fd none).ofile p = update (s.ofile p) fd none := update_self ..
  have hclosed : ∀ k, k = fd ∨ s.ofile p k = none → (s.setFd p fd none).ofile p k = none := by
    rintro k hk
    by_cases hkfd : k = fd
    · rw [hof, hkfd, update_self]
    · rw [hof, update_of_ne hkfd]
      exact hk.resolve_left hkfd
  have hg : ∃ F : Multiset (Fin NFILE), (G p).next (.takeFd fd) (s.ofile p fd) =
        { G p with files := F, closed := fd :: (G p).closed } ∧
      ∀ f, F.count f = (G p).files.count f + if s.ofile p fd = some f then 1 else 0 := by
    cases hfd : s.ofile p fd with
    | none => exact ⟨(G p).files, rfl, by simp⟩
    | some f' =>
      refine ⟨f' ::ₘ (G p).files, rfl, fun f => ?_⟩
      rw [Multiset.count_cons]
      simp only [Option.some.injEq, eq_comm]
  obtain ⟨F, hnext, hF⟩ := hg
  rw [hnext]
  refine h.of_move (fun _ _ => rfl) (fun q hq => update_of_ne hq ..) (fun _ _ => rfl)
    (fun j _ => ?_) (fun f => ?_) h.fileIp (fun hused => ?_)
    (fun q _ f hf => ⟨((h.own q).opening f hf).1, ((h.own q).opening f hf).2.1⟩)
    ⟨hp.running, hp.taken, fun hr k hk => ?_, fun f hf => ?_⟩
  · rfl
  · have h1 := fds_setFd s p fd none f
    have h2 := hF f
    simp only [filesOf] at h1 ⊢
    simp only [reduceCtorEq, if_false] at h1
    show (s.file f).ref + _ = _
    omega
  · exact ⟨(h.unused p hused).1, fun k => hclosed k (.inr ((h.unused p hused).2 k))⟩
  · rcases List.mem_cons.1 hk with rfl | hk
    · exact hclosed k (.inl rfl)
    · exact hclosed k (.inr (hp.closed hr k hk))
  · rw [hopen] at hf
    cases hf

theorem filesOf_add_le (h : Counts s G) {q : Pid} (hpq : p ≠ q) (f : Fin NFILE) :
    filesOf s p (G p) f + filesOf s q (G q) f ≤ (s.file f).ref := by
  have hsub := Finset.sum_le_sum_of_subset (f := fun q => filesOf s q (G q) f)
    (Finset.subset_univ {p, q})
  rw [Finset.sum_pair hpq] at hsub
  rwa [h.file f]

theorem filealloc_step (h : Counts s G) (hf : (s.file f).ref = 0) :
    Counts (s.setFile f ⟨1, (s.file f).ip⟩)
      (update G p { G p with files := f ::ₘ (G p).files, opening := some f }) := by
  have hp := h.own p
  have hnone := h.fileIp f hf
  have hself : (s.setFile f ⟨1, (s.file f).ip⟩).file f = ⟨1, (s.file f).ip⟩ :=
    update_self ..
  have hother : ∀ k, k ≠ f → (s.setFile f ⟨1, (s.file f).ip⟩).file k = s.file k :=
    fun k hk => update_of_ne hk ..
  refine h.of_move (fun _ _ => rfl) (fun _ _ => rfl) (fun _ _ => rfl) (fun j _ => ?_)
    (fun k => ?_) (fun k hk => ?_) (h.unused p) (fun q _ k hk => ?_)
    ⟨hp.running, hp.taken, hp.closed, fun k hk => ?_⟩
  · have := fileRefs_setFile s f 1 (s.file f).ip j
    show s.ref j + _ + refsOf s p (G p) j = s.ref j + _ + refsOf s p (G p) j
    omega
  · show _ + (s.fds p k + _) = _ + (s.fds p k + _)
    rw [Multiset.count_cons]
    by_cases hkf : k = f
    · subst hkf
      rw [hself, if_pos rfl, hf]
      simp only
      omega
    · rw [hother k hkf, if_neg hkf, Nat.add_zero]
  · by_cases hkf : k = f
    · subst hkf
      rw [hself] at hk
      cases hk
    · rw [hother k hkf] at hk ⊢
      exact h.fileIp k hk
  · obtain ⟨hip, hone, -⟩ := (h.own q).opening k hk
    have hkf : k ≠ f := by
      rintro rfl
      omega
    rw [hother k hkf]
    exact ⟨hip, hone⟩
  · obtain rfl : f = k := Option.some.inj hk
    rw [hself]
    refine ⟨hnone, rfl, ?_⟩
    have hle := h.filesOf_le_ref p f
    rw [filesOf] at hle
    show s.fds p f + (f ::ₘ (G p).files).count f = 1
    rw [Multiset.count_cons_self]
    omega

theorem fdalloc_step (h : Counts s G) {fd : Fin NOFILE} (hfd : s.ofile p fd = none)
    (hf : f ∈ (G p).files) (hrun : (G p).running = true) :
    Counts (s.setFd p fd (some f))
      (update G p { G p with files := (G p).files.erase f, closed := [] }) := by
  have hp := h.own p
  have hof : ∀ k, filesOf (s.setFd p fd (some f)) p
      { G p with files := (G p).files.erase f, closed := [] } k = filesOf s p (G p) k := by
    intro k
    have h1 := fds_setFd s p fd (some f) k
    rw [hfd] at h1
    simp only [reduceCtorEq, if_false, Option.some.injEq] at h1
    show (s.setFd p fd (some f)).fds p k + ((G p).files.erase f).count k = _
    rw [filesOf]
    by_cases hk : f = k
    · subst hk
      have := Multiset.one_le_count_iff_mem.2 hf
      rw [Multiset.count_erase_self]
      rw [if_pos rfl] at h1
      omega
    · rw [Multiset.count_erase_of_ne (Ne.symm hk)]
      rw [if_neg hk] at h1
      omega
  refine h.of_move (fun _ _ => rfl) (fun q hq => update_of_ne hq ..) (fun _ _ => rfl)
    (fun j _ => rfl) (fun k => ?_) h.fileIp (fun hused => ?_)
    (fun q _ k hk => ⟨((h.own q).opening k hk).1, ((h.own q).opening k hk).2.1⟩)
    ⟨hp.running, hp.taken, fun _ _ hk => (by cases hk), fun k hk => ?_⟩
  · rw [hof k]
    rfl
  · exact absurd (hused.symm.trans (hp.running hrun)) (by simp)
  · rw [hof k]
    exact hp.opening k hk

theorem setFile_step (h : Counts s G) (hopen : (G p).opening = some f) (hi : i ∈ (G p).refs) :
    Counts (s.setFile f ⟨(s.file f).ref, some i⟩)
      (update G p { (G p).give i with opening := none }) := by
  have hp := h.own p
  obtain ⟨hnone, hone, hmine⟩ := hp.opening f hopen
  have hself : (s.setFile f ⟨(s.file f).ref, some i⟩).file f =
    ⟨(s.file f).ref, some i⟩ := update_self ..
  have hother : ∀ k, k ≠ f → (s.setFile f ⟨(s.file f).ref, some i⟩).file k = s.file k :=
    fun k hk => update_of_ne hk ..
  have href : ∀ k, ((s.setFile f ⟨(s.file f).ref, some i⟩).file k).ref = (s.file k).ref := by
    intro k
    by_cases hkf : k = f
    · rw [hkf, hself]
    · rw [hother k hkf]
  refine h.of_move (fun _ _ => rfl) (fun _ _ => rfl) (fun _ _ => rfl) (fun j _ => ?_)
    (fun k => ?_) (fun k hk => ?_) (h.unused p) (fun q hq k hk => ?_)
    ⟨hp.running, hp.taken, hp.closed, fun k hk => (by cases hk)⟩
  · have h1 := fileRefs_setFile s f (s.file f).ref (some i) j
    have h2 := count_erase hi j
    simp only [hnone, reduceCtorEq, if_false, Option.some.injEq] at h1
    show s.ref j + _ + refsOf s p (G p) j = s.ref j + _ + (((G p).refs.erase i).count j +
      (G p).drops.count j + if s.cwd p = j ∧ (G p).cwdTaken = false then 1 else 0)
    rw [refsOf]
    omega
  · rw [href k]
    rfl
  · have hk0 : (s.file k).ref = 0 := href k ▸ hk
    have hkf : k ≠ f := by
      rintro rfl
      omega
    rw [hother k hkf]
    exact h.fileIp k hk0
  · obtain ⟨hip, hone', hmine'⟩ := (h.own q).opening k hk
    have hkf : k ≠ f := by
      rintro rfl
      have := h.filesOf_add_le (Ne.symm hq) k
      omega
    rw [hother k hkf]
    exact ⟨hip, hone'⟩

theorem fileclose_eq {s s' : Disk} {r : Closed} {ninodes : ℕ}
    (hr : (Op.fileclose f).perform ninodes p s = some (r, s')) :
    (r = .unreferenced ∧ (s.file f).ref = 0 ∧ s' = s) ∨
      (r = .last (s.file f).ip ∧ (s.file f).ref = 1 ∧ s' = s.setFile f ⟨0, none⟩) ∨
      ∃ m, r = .more ∧ (s.file f).ref = m + 2 ∧
        s' = s.setFile f ⟨m + 1, (s.file f).ip⟩ := by
  simp only [Op.perform] at hr
  split at hr
  · rename_i h0
    cases hr
    exact .inl ⟨rfl, h0, rfl⟩
  · rename_i h1
    cases hr
    exact .inr (.inl ⟨rfl, h1, rfl⟩)
  · rename_i m hm hne
    cases hr
    cases m with
    | zero => exact absurd rfl hm
    | succ m => exact .inr (.inr ⟨m, rfl, hne, rfl⟩)

theorem fileclose_step {r : Closed} {ninodes : ℕ} (h : Counts s G) (hf : f ∈ (G p).files)
    (hr : (Op.fileclose f).perform ninodes p s = some (r, s')) :
    Counts s' (update G p ((G p).next (.fileclose f) r)) := by
  have hp := h.own p
  have hpos : 1 ≤ filesOf s p (G p) f := by
    have := Multiset.one_le_count_iff_mem.2 hf
    rw [filesOf]
    omega
  have hle := h.filesOf_le_ref p f
  have hcount : ∀ k, ((G p).files.erase f).count k + (if f = k then 1 else 0) =
      (G p).files.count k := by
    intro k
    by_cases hk : f = k
    · subst hk
      have := Multiset.one_le_count_iff_mem.2 hf
      rw [Multiset.count_erase_self, if_pos rfl]
      omega
    · rw [Multiset.count_erase_of_ne (Ne.symm hk), if_neg hk, Nat.add_zero]
  -- No other process is opening the file: its reference would be the only one.
  have hopen : ∀ q, q ≠ p → ∀ k, (G q).opening = some k → k ≠ f := by
    rintro q hq k hk rfl
    obtain ⟨-, hone, hmine⟩ := (h.own q).opening k hk
    have := h.filesOf_add_le (Ne.symm hq) k
    omega
  rcases fileclose_eq hr with ⟨-, h0, -⟩ | ⟨rfl, h1, rfl⟩ | ⟨m, rfl, hm, rfl⟩
  · omega
  · have hself : (s.setFile f ⟨0, none⟩).file f = ⟨0, none⟩ := update_self ..
    have hother : ∀ k, k ≠ f → (s.setFile f ⟨0, none⟩).file k = s.file k :=
      fun k hk => update_of_ne hk ..
    have hg : ∃ R : Multiset ℕ, (G p).next (.fileclose f) (.last (s.file f).ip) =
          { G p with files := (G p).files.erase f, opening := none, refs := R } ∧
        ∀ j, R.count j = (G p).refs.count j + if (s.file f).ip = some j then 1 else 0 := by
      cases hip : (s.file f).ip with
      | none => exact ⟨(G p).refs, rfl, by simp⟩
      | some i =>
        refine ⟨i ::ₘ (G p).refs, rfl, fun j => ?_⟩
        rw [count_cons]
        simp only [Option.some.injEq]
    obtain ⟨R, hnext, hR⟩ := hg
    rw [hnext]
    refine h.of_move (fun _ _ => rfl) (fun _ _ => rfl) (fun _ _ => rfl) (fun j _ => ?_)
      (fun k => ?_) (fun k hk => ?_) (h.unused p) (fun q hq k hk => ?_)
      ⟨hp.running, hp.taken, hp.closed, fun k hk => (by cases hk)⟩
    · have h2 := fileRefs_setFile s f 0 none j
      have h3 := hR j
      simp only [reduceCtorEq, if_false] at h2
      show s.ref j + _ + refsOf s p (G p) j = s.ref j + _ + (R.count j +
        (G p).drops.count j + if s.cwd p = j ∧ (G p).cwdTaken = false then 1 else 0)
      rw [refsOf]
      omega
    · have h2 := hcount k
      show _ + filesOf s p (G p) k = _ + (s.fds p k + ((G p).files.erase f).count k)
      rw [filesOf]
      by_cases hk : k = f
      · subst hk
        rw [hself, h1]
        rw [if_pos rfl] at h2
        simp only
        omega
      · rw [hother k hk]
        rw [if_neg (Ne.symm hk)] at h2
        omega
    · by_cases hkf : k = f
      · rw [hkf, hself]
      · rw [hother k hkf] at hk ⊢
        exact h.fileIp k hk
    · rw [hother k (hopen q hq k hk)]
      exact ⟨((h.own q).opening k hk).1, ((h.own q).opening k hk).2.1⟩
  · have hself : (s.setFile f ⟨m + 1, (s.file f).ip⟩).file f =
      ⟨m + 1, (s.file f).ip⟩ := update_self ..
    have hother : ∀ k, k ≠ f → (s.setFile f ⟨m + 1, (s.file f).ip⟩).file k = s.file k :=
      fun k hk => update_of_ne hk ..
    refine h.of_move (fun _ _ => rfl) (fun _ _ => rfl) (fun _ _ => rfl) (fun j _ => ?_)
      (fun k => ?_) (fun k hk => ?_) (h.unused p) (fun q hq k hk => ?_)
      ⟨hp.running, hp.taken, hp.closed, fun k hk => (by cases hk)⟩
    · have h2 := fileRefs_setFile s f (m + 1) (s.file f).ip j
      show s.ref j + _ + refsOf s p (G p) j = s.ref j + _ + refsOf s p (G p) j
      omega
    · have h2 := hcount k
      show _ + filesOf s p (G p) k = _ + (s.fds p k + ((G p).files.erase f).count k)
      rw [filesOf]
      by_cases hk : k = f
      · subst hk
        rw [hself, hm]
        rw [if_pos rfl] at h2
        simp only
        omega
      · rw [hother k hk]
        rw [if_neg (Ne.symm hk)] at h2
        omega
    · by_cases hkf : k = f
      · rw [hkf, hself] at hk
        cases hk
      · rw [hother k hkf] at hk ⊢
        exact h.fileIp k hk
    · rw [hother k (hopen q hq k hk)]
      exact ⟨((h.own q).opening k hk).1, ((h.own q).opening k hk).2.1⟩

theorem fork_step (h : Counts s G) {np : Pid} (hrun : (G p).running = true)
    (hopen : (G p).opening = none) (hnp : s.used np = false) :
    Counts { s with
      ofile := update s.ofile np (s.ofile p)
      file := fun f => ⟨(s.file f).ref + s.fds p f, (s.file f).ip⟩
      ref := update s.ref (s.cwd p) (s.ref (s.cwd p) + 1)
      cwd := update s.cwd np (s.cwd p)
      used := update s.used np true } G := by
  set s' : Disk := { s with
    ofile := update s.ofile np (s.ofile p)
    file := fun f => ⟨(s.file f).ref + s.fds p f, (s.file f).ip⟩
    ref := update s.ref (s.cwd p) (s.ref (s.cwd p) + 1)
    cwd := update s.cwd np (s.cwd p)
    used := update s.used np true } with hs'
  have hne : p ≠ np := by
    rintro rfl
    exact absurd (hnp.symm.trans ((h.own p).running hrun)) (by simp)
  have hN := h.own np
  have hnrun : (G np).running ≠ true := fun hr => by simp [hN.running hr] at hnp
  have hntaken : (G np).cwdTaken = false := by
    simpa using fun ht => hnrun (hN.taken ht)
  have hfds : ∀ f, s.fds np f = 0 := by
    simp [Disk.fds, (h.unused np hnp).2]
  have hfds' : ∀ f, s'.fds np f = s.fds p f := by
    intro f
    have : s'.ofile np = s.ofile p := update_self ..
    simp only [Disk.fds, this]
  -- A file that is being opened has one reference, which is not the parent's.
  have hnot : ∀ q k, (G q).opening = some k → s.fds p k = 0 := by
    intro q k hk
    obtain ⟨-, hone, hmine⟩ := (h.own q).opening k hk
    have hqp : p ≠ q := by
      rintro rfl
      rw [hopen] at hk
      cases hk
    have := h.filesOf_add_le hqp k
    rw [filesOf] at this
    omega
  have hcounts : Counts s' (update G np (G np)) := by
    refine h.of_move (fun q hq => update_of_ne hq ..) (fun q hq => update_of_ne hq ..)
      (fun q hq => update_of_ne hq ..) (fun j hj => ?_) (fun k => ?_) (fun k hk => ?_)
      (fun hused => ?_) (fun q _ k hk => ?_)
      ⟨fun _ => update_self .., hN.taken, fun hr => absurd hr hnrun, fun k hk => ?_⟩
    · have hcwd : s'.cwd np = s.cwd p := update_self ..
      have hfile : s'.fileRefs j = s.fileRefs j := rfl
      have hcwd0 : s.cwd np = 0 := (h.unused np hnp).1
      rw [hfile, refsOf, refsOf, hcwd, hcwd0]
      simp only [hntaken, and_true, if_neg (Ne.symm hj)]
      by_cases hcj : s.cwd p = j
      · have : s'.ref j = s.ref j + 1 := by
          rw [← hcj]
          exact update_self ..
        rw [this, if_pos hcj]
        omega
      · have : s'.ref j = s.ref j := update_of_ne (Ne.symm hcj) ..
        rw [this, if_neg hcj]
    · rw [filesOf, filesOf, hfds, hfds']
      show (s.file k).ref + s.fds p k + _ = _
      omega
    · have hk0 : (s.file k).ref + s.fds p k = 0 := hk
      exact h.fileIp k (by omega)
    · have : s'.used np = true := update_self ..
      rw [this] at hused
      cases hused
    · refine ⟨((h.own q).opening k hk).1, ?_⟩
      show (s.file k).ref + s.fds p k = 1
      rw [hnot q k hk, ((h.own q).opening k hk).2.1]
    · obtain ⟨hip, hone, hmine⟩ := hN.opening k hk
      refine ⟨hip, ?_, ?_⟩
      · show (s.file k).ref + s.fds p k = 1
        rw [hnot np k hk, hone]
      · rw [filesOf, hfds', hnot np k hk]
        rw [filesOf, hfds] at hmine
        exact hmine
  rwa [update_eq_self] at hcounts

theorem exit_step (h : Counts s G) (htaken : (G p).cwdTaken = true)
    (hrun : (G p).running = true) (hclosed : ∀ fd, fd ∈ (G p).closed) :
    Counts { s with cwd := update s.cwd p 0, used := update s.used p false }
      (update G p { G p with cwdTaken := false, running := false }) := by
  have hp := h.own p
  refine h.of_move (fun q hq => update_of_ne hq ..) (fun _ _ => rfl)
    (fun q hq => update_of_ne hq ..) (fun j hj => ?_) (fun f => rfl) h.fileIp
    (fun _ => ⟨update_self .., fun fd => hp.closed hrun fd (hclosed fd)⟩)
    (fun q _ f hf => ⟨((h.own q).opening f hf).1, ((h.own q).opening f hf).2.1⟩)
    ⟨fun hr => (by cases hr), fun ht => (by cases ht), fun hr => (by cases hr), hp.opening⟩
  have hfiles : Disk.fileRefs { s with
    cwd := update s.cwd p 0, used := update s.used p false } j = s.fileRefs j := rfl
  rw [hfiles, refsOf, refsOf]
  simp only [htaken, update_self, and_true, if_neg (Ne.symm hj)]
  simp

theorem wrote_eq (g : Ghost) (dp off inum : ℕ) (name : Name) :
    ∃ L F D, g.wrote dp off inum name = { g with locks := L, fresh := F, debt := D } := by
  fun_cases Ghost.wrote
  all_goals exact ⟨_, _, _, rfl⟩

theorem counted_eq (g : Ghost) (i : ℕ) (n : ℤ) :
    ∃ L D, g.counted i n = { g with locks := L, debt := D } := by
  fun_cases Ghost.counted
  all_goals exact ⟨_, _, rfl⟩

theorem setValid (h : Counts s G) (i : ℕ) (b : Bool) : Counts (s.setValid i b) G :=
  ⟨h.ref, h.file, h.fileIp, h.unused, fun p =>
    ⟨(h.own p).running, (h.own p).taken, (h.own p).closed, (h.own p).opening⟩⟩

theorem take_step (h : Counts s G) (hi : i = 0 ∨ m = s.ref i + 1) :
    Counts (s.setRef i m) (update G p { G p with refs := i ::ₘ (G p).refs }) := by
  refine h.of_ref (fun h0 => ?_) (fun j hj => ?_) rfl rfl rfl rfl rfl
  · show m + _ = s.ref i + ((i ::ₘ (G p).refs).count i + (G p).drops.count i)
    rw [Multiset.count_cons_self, hi.resolve_left h0]
    omega
  · rw [Multiset.count_cons_of_ne hj]

theorem drop_step (h : Counts s G) (hi : i ∈ (G p).drops) :
    Counts (s.setRef i (s.ref i - 1)) (update G p { G p with drops := (G p).drops.erase i }) := by
  have hpos := Multiset.one_le_count_iff_mem.2 hi
  refine h.of_ref (fun h0 => ?_) (fun j hj => ?_) rfl rfl rfl rfl rfl
  · have := h.count_le_ref h0 p
    show _ + _ = s.ref i + ((G p).refs.count i + ((G p).drops.erase i).count i)
    rw [Multiset.count_erase_self]
    omega
  · rw [Multiset.count_erase_of_ne hj]

theorem step {ninodes : ℕ} {sound ordered : Prop} {o : Op} {r : o.Answer} {t : Disk}
    (h : Counts s G) (ha : allows ninodes sound ordered (G p) o)
    (hr : o.perform ninodes p s = some (r, t)) : Counts t (update G p ((G p).next o r)) := by
  -- An operation that takes and drops no reference, to which the counts do not matter.
  have same : ∀ {s' : Disk} {g : Ghost}, s'.ref = s.ref → s'.file = s.file → s'.ofile = s.ofile →
      s'.cwd = s.cwd → s'.used = s.used → g.refs = (G p).refs → g.drops = (G p).drops →
      g.files = (G p).files → g.opening = (G p).opening → g.cwdTaken = (G p).cwdTaken →
      g.closed = (G p).closed → g.running = (G p).running → Counts s' (update G p g) :=
    fun h1 h2 h3 h4 h5 h6 h7 h8 h9 h10 h11 h12 =>
      h.of_eq h1 h2 h3 h4 h5 (fun i => by rw [h6, h7]) h8 h9 h10 h11 h12
  cases o with
  | iget site i =>
    simp only [Op.perform] at hr
    split at hr
    · cases hr
      exact h.take_step (.inr rfl)
    · split at hr
      · cases hr
        exact (h.take_step (.inr (by omega))).setValid i false
      · cases hr
        exact same rfl rfl rfl rfl rfl rfl rfl rfl rfl rfl rfl rfl
  | idupCwd =>
    cases hr
    exact h.take_step (.inr rfl)
  | acquiresleep site i =>
    simp only [Op.perform] at hr
    split at hr
    · cases hr
      exact same rfl rfl rfl rfl rfl rfl rfl rfl rfl rfl rfl rfl
    · cases hr
  | load i =>
    simp only [Op.perform] at hr
    split at hr
    · cases hr
      exact same rfl rfl rfl rfl rfl rfl rfl rfl rfl rfl rfl rfl
    · cases hr
      exact same rfl rfl rfl rfl rfl rfl rfl rfl rfl rfl rfl rfl
  | ilockRef i | read i | holding i | releasesleep site i =>
    cases hr
    exact same rfl rfl rfl rfl rfl rfl rfl rfl rfl rfl rfl rfl
  | peek i =>
    cases hr
    simp only [Ghost.next]
    split
    · split
      · exact same rfl rfl rfl rfl rfl rfl rfl rfl rfl rfl rfl rfl
      · exact h.of_eq rfl rfl rfl rfl rfl (count_doom (g := (G p).learn i _) ha.1) rfl rfl rfl rfl rfl
    · exact h.of_eq rfl rfl rfl rfl rfl (count_doom ha.1) rfl rfl rfl rfl rfl
  | ref i =>
    cases hr
    simp only [Ghost.next]
    split
    · exact same rfl rfl rfl rfl rfl rfl rfl rfl rfl rfl rfl rfl
    · exact h.of_eq rfl rfl rfl rfl rfl (count_doom ha.1) rfl rfl rfl rfl rfl
  | free i =>
    cases hr
    exact h.of_eq rfl rfl rfl rfl rfl (count_doom (g := (G p).learn i none) ha.1)
      rfl rfl rfl rfl rfl
  | drop i =>
    cases hr
    exact h.drop_step ha.1
  | writei dp off inum name =>
    obtain ⟨L, F, D, hw⟩ := wrote_eq (G p) dp off inum name
    simp only [Op.perform] at hr
    split at hr
    · cases hr
      simp only [Ghost.next, if_true, hw]
      exact same rfl rfl rfl rfl rfl rfl rfl rfl rfl rfl rfl rfl
    · cases hr
      exact same rfl rfl rfl rfl rfl rfl rfl rfl rfl rfl rfl rfl
  | setNlink i n =>
    obtain ⟨L, D, hc⟩ := counted_eq (G p) i n
    cases hr
    simp only [Ghost.next, hc]
    exact same rfl rfl rfl rfl rfl rfl rfl rfl rfl rfl rfl rfl
  | ialloc i type =>
    simp only [Op.perform] at hr
    split at hr
    · cases hr
      exact same rfl rfl rfl rfl rfl rfl rfl rfl rfl rfl rfl rfl
    · cases hr
      exact same rfl rfl rfl rfl rfl rfl rfl rfl rfl rfl rfl rfl
  | cwd =>
    cases hr
    exact h.cwd_step ha.1 ha.2
  | setCwd i =>
    cases hr
    exact h.setCwd_step ha.1 ha.2.1 ha.2.2.1
  | takeFd fd =>
    cases hr
    exact h.takeFd_step ha fd
  | filealloc =>
    simp only [Op.perform] at hr
    split at hr
    · rename_i f hf
      cases hr
      exact h.filealloc_step (by simpa using List.find?_some hf)
    · cases hr
      exact same rfl rfl rfl rfl rfl rfl rfl rfl rfl rfl rfl rfl
  | fdalloc f =>
    simp only [Op.perform] at hr
    split at hr
    · rename_i fd hfd
      cases hr
      exact h.fdalloc_step (by simpa using List.find?_some hfd) ha.1 ha.2.2
    · cases hr
      exact same rfl rfl rfl rfl rfl rfl rfl rfl rfl rfl rfl rfl
  | setFile f i =>
    cases hr
    exact h.setFile_step ha.1 ha.2.1
  | fileclose f => exact h.fileclose_step ha.1 hr
  | fork np =>
    simp only [Ghost.next, update_eq_self]
    simp only [Op.perform] at hr
    split at hr
    · cases hr
      exact h.fork_step ha.2.1 ha.2.2 ‹_›
    · cases hr
      exact h
  | exit =>
    cases hr
    exact h.exit_step ha.2.1 ha.1 ha.2.2

end Counts

end Xv6.Fs
