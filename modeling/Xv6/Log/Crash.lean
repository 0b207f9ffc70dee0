import Xv6.Lib.Crash
import Xv6.Log.Program
import Mathlib.Tactic.Common

/-!
# Crash atomicity of the log

A disk with its log stands for contents of the blocks outside the log (`Represents`): those of the
blocks themselves, except that a block that the header on the disk names has the contents of its log
block. A cleared header names none.

`replay_safe` says that installing the log and clearing the header keeps what the disk stands for at
every point, and leaves a cleared header. It is what `recover_from_log` does, so that a crash during
recovery loses nothing, and also the second half of `commit`. In the first half of `commit` the disk
stands for the old contents until the header is written, and from then on for the new ones. With
that `commit_crash_atomic` follows from the rules of `Lib/Crash.lean`.
-/

namespace Xv6

open Prog

def Home (start size b : ℕ) : Prop := b < start ∨ start + size ≤ b

def LogHeader.Names (lh : LogHeader) (b : ℕ) : Prop := ∃ i : Fin LOGSIZE, i < lh.n ∧ lh.block i = b

instance (lh : LogHeader) (b : ℕ) : Decidable (lh.Names b) :=
  inferInstanceAs (Decidable (∃ i : Fin LOGSIZE, i < lh.n ∧ lh.block i = b))

/-- A transaction that fits into the log: its blocks are outside the log, and no more than there are
entries in the header and blocks in the log after it. -/
structure LogHeader.Fits (start size : ℕ) (lh : LogHeader) : Prop where
  le_entries : lh.n ≤ LOGSIZE
  lt_size : lh.n < size
  home : ∀ i : Fin LOGSIZE, i < lh.n → Home start size (lh.block i)

/-- The header of the disk `d` is `lh`, the log holds the contents in `v` of the blocks that it
names, and the other blocks hold theirs. -/
structure Logged (start size : ℕ) (lh : LogHeader) (v d : ℕ → Block) : Prop where
  fits : lh.Fits start size
  count : d start 0 = lh.n
  entry : ∀ i : Fin LOGSIZE, i < lh.n → d start (LogHeader.word i) = lh.block i
  logged : ∀ i : Fin LOGSIZE, i < lh.n → d (start + i + 1) = v (lh.block i)
  rest : ∀ b, Home start size b → ¬ lh.Names b → d b = v b

def Represents (start size : ℕ) (v d : ℕ → Block) : Prop := ∃ lh, Logged start size lh v d

/-- The header is cleared, and the blocks outside the log are as in `v`. -/
structure Clean (start size : ℕ) (v d : ℕ → Block) : Prop where
  header : d start 0 = 0
  home : ∀ b, Home start size b → d b = v b

/-! ## Disks and headers -/

section Disk

variable {start size : ℕ} {lh : LogHeader} {v d d' : ℕ → Block}

theorem not_home_start (h : 0 < size) : ¬ Home start size start := by
  unfold Home
  omega

theorem LogHeader.Fits.not_home {i : ℕ} (h : lh.Fits start size) (hi : i < lh.n) :
    ¬ Home start size (start + i + 1) := by
  have := h.lt_size
  unfold Home
  omega

theorem Clean.represents (h : Clean start size v d) (hsize : 0 < size) :
    Represents start size v d := by
  have hnone : ∀ i : Fin LOGSIZE, ¬ (i : ℕ) < LogHeader.zero.n := fun i => Nat.not_lt_zero i
  refine ⟨.zero, ⟨Nat.zero_le _, hsize, fun i hi => absurd hi (hnone i)⟩, h.header,
    fun i hi => absurd hi (hnone i), fun i hi => absurd hi (hnone i), fun b hb _ => h.home b hb⟩

theorem Logged.congr (h : Logged start size lh v d)
    (harea : ∀ b, ¬ Home start size b → d' b = d b)
    (hrest : ∀ b, Home start size b → ¬ lh.Names b → d' b = d b) : Logged start size lh v d' := by
  have hstart : d' start = d start :=
    harea start (not_home_start (Nat.zero_lt_of_lt h.fits.lt_size))
  refine ⟨h.fits, ?_, fun i hi => ?_, fun i hi => ?_, fun b hb hname => ?_⟩
  · rw [hstart, h.count]
  · rw [hstart, h.entry i hi]
  · rw [harea _ (h.fits.not_home hi), h.logged i hi]
  · rw [hrest b hb hname, h.rest b hb hname]

theorem Logged.load (h : Logged start size lh v d) (lh₀ : LogHeader) :
    Logged start size (.load (d start) lh₀) v d := by
  -- Only the entries in use are loaded; the others keep what the memory held.
  have hblock : ∀ i : Fin LOGSIZE, i < lh.n →
      (LogHeader.load (d start) lh₀).block i = lh.block i := by
    intro i hi
    show (if (i : ℕ) < d start 0 then d start (LogHeader.word i) else lh₀.block i) = lh.block i
    rw [h.count, if_pos hi, h.entry i hi]
  have hn : (LogHeader.load (d start) lh₀).n = lh.n := h.count
  refine ⟨⟨?_, ?_, fun i hi => ?_⟩, rfl, fun i hi => ?_, fun i hi => ?_, fun b hb hname => ?_⟩
  · rw [hn]
    exact h.fits.le_entries
  · rw [hn]
    exact h.fits.lt_size
  · rw [hn] at hi
    rw [hblock i hi]
    exact h.fits.home i hi
  · rw [hn] at hi
    rw [hblock i hi, h.entry i hi]
  · rw [hn] at hi
    rw [hblock i hi, h.logged i hi]
  · refine h.rest b hb fun ⟨i, hi, hbi⟩ => hname ⟨i, ?_, ?_⟩
    · rw [hn]
      exact hi
    · rw [hblock i hi]
      exact hbi

theorem LogHeader.store_zero (lh : LogHeader) (hb : Block) : lh.store hb 0 = lh.n := rfl

theorem LogHeader.store_word (lh : LogHeader) (hb : Block) {i : Fin LOGSIZE} (hi : i < lh.n) :
    lh.store hb (word i) = lh.block i := by
  have hw : ((word i : Fin 128) : ℕ) - 1 = i := Nat.add_sub_cancel i 1
  have hne : word i ≠ 0 := fun h => absurd (congrArg Fin.val h) (Nat.succ_ne_zero i)
  unfold store
  rw [if_neg hne, dif_pos (by rw [hw]; exact i.isLt), if_pos (by rw [hw]; exact hi)]
  exact congrArg lh.block (Fin.ext hw)

end Disk

/-! ## Installing the log -/

namespace Storage

variable {start size : ℕ} {v : ℕ → Block} {s t : Storage}

theorem view_of_clean {b : ℕ} (h : s.cache b = none) : s.view b = s.disk b := by
  rw [view, h]
  rfl

@[simp] theorem written_disk_self (b : ℕ) (data : Block) (s : Storage) :
    (s.written b data).disk b = data := by
  simp [written]

theorem written_disk_of_ne {a b : ℕ} (data : Block) (s : Storage) (h : a ≠ b) :
    (s.written b data).disk a = s.disk a := by
  simp [written, h]

@[simp] theorem written_cache_self (b : ℕ) (data : Block) (s : Storage) :
    (s.written b data).cache b = none := by
  simp [written]

theorem written_cache_of_ne {a b : ℕ} (data : Block) (s : Storage) (h : a ≠ b) :
    (s.written b data).cache a = s.cache a := by
  simp [written, h]

theorem written_clean {a : ℕ} (b : ℕ) (data : Block) (h : s.cache a = none) :
    (s.written b data).cache a = none := by
  by_cases hab : a = b
  · rw [hab, written_cache_self]
  · rw [written_cache_of_ne _ _ hab, h]

theorem rd_block {lh : LogHeader} {i : ℕ} (hi : i < LOGSIZE) :
    CArray.rd lh.block (i : ℤ) = some (lh.block ⟨i, hi⟩) :=
  CArray.rd_natCast lh.block ⟨i, hi⟩

/-- What installing the log keeps, from a state `s`: what the disk stands for, where the log is, and
that blocks were written. -/
structure Kept (start size : ℕ) (v : ℕ → Block) (s t : Storage) : Prop where
  start_eq : t.log.start = start
  represents : Represents start size v t.disk
  writes : ∀ b ∈ s.writes, b ∈ t.writes

/-- Before iteration `i` of `install_trans`, started in `s`. -/
structure Installing (start size : ℕ) (v : ℕ → Block) (s : Storage) (i : ℕ) (t : Storage) :
    Prop where
  log : t.log = s.log
  area : ∀ b, ¬ Home start size b → t.disk b = s.disk b
  rest : ∀ b, Home start size b → ¬ s.log.lh.Names b → t.disk b = s.disk b
  done : ∀ j : Fin LOGSIZE, j < s.log.lh.n → j < i →
    t.disk (s.log.lh.block j) = v (s.log.lh.block j)
  clean : ∀ j, j < s.log.lh.n → t.cache (start + j + 1) = none
  writes : ∀ b ∈ s.writes, b ∈ t.writes

theorem Installing.kept {i : ℕ} (h : Installing start size v s i t) (hstart : s.log.start = start)
    (hlog : Logged start size s.log.lh v s.disk) : Kept start size v s t where
  start_eq := by rw [h.log, hstart]
  represents := ⟨_, hlog.congr h.area h.rest⟩
  writes := h.writes

theorem Installing.home (h : Installing start size v s s.log.lh.n t)
    (hlog : Logged start size s.log.lh v s.disk) {b : ℕ} (hb : Home start size b) :
    t.disk b = v b := by
  by_cases hname : s.log.lh.Names b
  · obtain ⟨j, hj, rfl⟩ := hname
    exact h.done j hj hj
  · rw [h.rest b hb hname, hlog.rest b hb hname]

theorem Installing.step {i : Fin LOGSIZE} (h : Installing start size v s i t)
    (hfits : s.log.lh.Fits start size) (hi : i < s.log.lh.n) :
    Installing start size v s (i + 1)
      (t.written (s.log.lh.block i) (v (s.log.lh.block i))) := by
  refine ⟨h.log, fun b hb => ?_, fun b hb hname => ?_, fun j hj hji => ?_, fun j hj => ?_,
    fun b hb => List.mem_cons_of_mem _ (h.writes b hb)⟩
  · rw [written_disk_of_ne]
    · exact h.area b hb
    · rintro rfl
      exact hb (hfits.home i hi)
  · rw [written_disk_of_ne]
    · exact h.rest b hb hname
    · rintro rfl
      exact hname ⟨i, hi, rfl⟩
  · -- The block may be named twice; both times it has the same contents.
    by_cases hsame : s.log.lh.block j = s.log.lh.block i
    · rw [hsame, written_disk_self]
    · rw [written_disk_of_ne _ _ hsame]
      have hne : (j : ℕ) ≠ i := fun hval => hsame (congrArg _ (Fin.ext hval))
      exact h.done j hj (by omega)
  · exact written_clean _ _ (h.clean j hj)

theorem installTrans_safe (hstart : s.log.start = start)
    (hlog : Logged start size s.log.lh v s.disk)
    (hclean : ∀ j, j < s.log.lh.n → s.cache (start + j + 1) = none) :
    installTrans.Safe (Kept start size v s)
      (fun _ t => Installing start size v s s.log.lh.n t) s := by
  have hC : ∀ i t, Installing start size v s i t → Kept start size v s t :=
    fun i t h => h.kept hstart hlog
  have h0 : Installing start size v s 0 s :=
    ⟨rfl, fun _ _ => rfl, fun _ _ _ => rfl, fun _ _ hj => absurd hj (Nat.not_lt_zero _), hclean,
      fun _ hb => hb⟩
  refine Safe.get_bind (hC 0 s h0) rfl ?_
  rw [hstart]
  refine Safe.forRange (I := Installing start size v s) (Nat.zero_add _) hC ?_ h0
  intro i t _ hi h
  have hi' : i < LOGSIZE := Nat.lt_of_lt_of_le hi hlog.fits.le_entries
  -- The log block still has the contents for the block that entry `i` names.
  have hlbuf : t.view (start + i + 1) = v (s.log.lh.block ⟨i, hi'⟩) := by
    rw [view_of_clean (h.clean i hi), h.area _ (hlog.fits.not_home hi)]
    exact hlog.logged ⟨i, hi'⟩ hi
  refine Safe.get_bind (hC i t h) rfl ?_
  refine Safe.get_bind (hC i t h) (a := s.log.lh.block ⟨i, hi'⟩) ?_ ?_
  · rw [h.log]
    exact rd_block hi'
  · refine Safe.get_bind (hC i t h) rfl ?_
    have hnext := h.step (i := ⟨i, hi'⟩) hlog.fits hi
    rw [hlbuf]
    exact Safe.set (hC i t h) rfl (hC _ _ hnext) hnext

theorem writeHead_safe {C : Storage → Prop} {Q : Unit → Storage → Prop} (hC : C s)
    (hn : s.log.lh.n ≤ LOGSIZE)
    (hC' : C (s.written s.log.start (s.log.lh.store (s.view s.log.start))))
    (hQ : Q () (s.written s.log.start (s.log.lh.store (s.view s.log.start)))) :
    writeHead.Safe C Q s := by
  refine Safe.get_bind hC rfl (Safe.get_bind hC rfl (Safe.get_bind hC (if_pos hn) ?_))
  exact Safe.set hC rfl hC' hQ

theorem replay_safe (hstart : s.log.start = start) (hlog : Logged start size s.log.lh v s.disk)
    (hclean : ∀ j, j < s.log.lh.n → s.cache (start + j + 1) = none) :
    (do installTrans; clearHead; writeHead : Prog Storage Unit).Safe (Kept start size v s)
      (fun _ t => Clean start size v t.disk) s := by
  have hsize : 0 < size := Nat.zero_lt_of_lt hlog.fits.lt_size
  refine Safe.bind ((installTrans_safe hstart hlog hclean).mono (fun _ h => h) fun _ t h => ?_)
  have hkept : Kept start size v s t := h.kept hstart hlog
  -- `log.lh.n = 0` changes the memory only.
  obtain ⟨u, hu⟩ : ∃ u, u = t.setHeader { t.log.lh with n := 0 } := ⟨_, rfl⟩
  have hu' : Kept start size v s u := by
    rw [hu]
    exact ⟨hkept.start_eq, hkept.represents, hkept.writes⟩
  refine Safe.bind (Safe.set hkept (congrArg some hu.symm) hu' ?_)
  have hcleared : Clean start size v
      (u.written u.log.start (u.log.lh.store (u.view u.log.start))).disk := by
    rw [hu'.start_eq]
    refine ⟨?_, fun b hb => ?_⟩
    · rw [written_disk_self, LogHeader.store_zero, hu]
      rfl
    · rw [written_disk_of_ne]
      · rw [hu]
        exact h.home hlog hb
      · rintro rfl
        exact not_home_start hsize hb
  refine writeHead_safe hu' (by rw [hu]; exact Nat.zero_le _) ?_ hcleared
  exact ⟨hu'.start_eq, hcleared.represents hsize,
    fun b hb => List.mem_cons_of_mem _ (hu'.writes b hb)⟩

/-! ## Recovery -/

theorem recoverFromLog_safe (h : s.log.start = start ∧ Represents start size v s.disk) :
    recoverFromLog.Safe (fun t => t.log.start = start ∧ Represents start size v t.disk)
      (fun _ t => Clean start size v t.disk) s.reboot := by
  obtain ⟨hstart, hrep⟩ := h
  have hC : s.reboot.log.start = start ∧ Represents start size v s.reboot.disk := ⟨hstart, hrep⟩
  obtain ⟨lh, hlog⟩ := hrep
  -- The buffers are clean, so that `read_head` sees the header of the disk.
  have hload : (if s.reboot.view start 0 ≤ LOGSIZE then
      some (s.reboot.setHeader (s.reboot.log.lh.load (s.reboot.view start))) else none) =
      some (s.reboot.setHeader (.load (s.disk start) s.reboot.log.lh)) := by
    show (if s.disk start 0 ≤ LOGSIZE then _ else none) = _
    rw [if_pos (by rw [hlog.count]; exact hlog.fits.le_entries)]
    rfl
  have hread : readHead.Safe (fun t => t.log.start = start ∧ Represents start size v t.disk)
      (fun _ t => t = s.reboot.setHeader (.load (s.disk start) s.reboot.log.lh)) s.reboot := by
    refine Safe.get_bind hC rfl (Safe.get_bind hC rfl ?_)
    rw [show s.reboot.log.start = start from hstart]
    exact Safe.set hC hload hC rfl
  refine Safe.bind (hread.mono (fun _ h => h) ?_)
  rintro - t rfl
  have hreplay := replay_safe (s := s.reboot.setHeader (.load (s.disk start) s.reboot.log.lh))
    hstart (hlog.load _) fun _ _ => rfl
  exact hreplay.mono (fun t h => ⟨h.start_eq, h.represents⟩) fun _ _ h => h

/-! ## Commit -/

def newContents (s : Storage) (b : ℕ) : Block :=
  if s.log.lh.Names b then s.view b else s.disk b

def Committing (start size : ℕ) (s t : Storage) : Prop :=
  t.log.start = start ∧
    Represents start size (if start ∈ t.writes then s.newContents else s.disk) t.disk

/-- Before iteration `i` of `write_log`, started in `s`. -/
structure Copying (start size : ℕ) (s : Storage) (i : ℕ) (t : Storage) : Prop where
  log : t.log = s.log
  writes : start ∉ t.writes
  disk : ∀ b, (∀ j < s.log.lh.n, b ≠ start + j + 1) → t.disk b = s.disk b
  cache : ∀ b, Home start size b → t.cache b = s.cache b
  done : ∀ j : Fin LOGSIZE, j < i → t.disk (start + j + 1) = s.view (s.log.lh.block j)
  clean : ∀ j < i, t.cache (start + j + 1) = none

theorem Copying.disk_home {i : ℕ} (h : Copying start size s i t)
    (hfits : s.log.lh.Fits start size) {b : ℕ} (hb : Home start size b) : t.disk b = s.disk b := by
  refine h.disk b fun j hj => ?_
  rintro rfl
  exact hfits.not_home hj hb

theorem Copying.committing {i : ℕ} (h : Copying start size s i t) (hstart : s.log.start = start)
    (hfits : s.log.lh.Fits start size) (hclear : s.disk start 0 = 0) :
    Committing start size s t := by
  refine ⟨by rw [h.log, hstart], ?_⟩
  rw [if_neg h.writes]
  have hclean : Clean start size s.disk t.disk := by
    refine ⟨?_, fun b hb => h.disk_home hfits hb⟩
    rw [h.disk start (fun j _ => by omega), hclear]
  exact hclean.represents (Nat.zero_lt_of_lt hfits.lt_size)

theorem Copying.step {i : Fin LOGSIZE} (h : Copying start size s i t)
    (hfits : s.log.lh.Fits start size) (hi : i < s.log.lh.n) :
    Copying start size s (i + 1) (t.written (start + i + 1) (s.view (s.log.lh.block i))) := by
  refine ⟨h.log, ?_, fun b hb => ?_, fun b hb => ?_, fun j hj => ?_, fun j hj => ?_⟩
  · rw [written, List.mem_cons, not_or]
    exact ⟨by omega, h.writes⟩
  · rw [written_disk_of_ne _ _ (hb i hi)]
    exact h.disk b hb
  · rw [written_cache_of_ne]
    · exact h.cache b hb
    · rintro rfl
      exact hfits.not_home hi hb
  · by_cases hji : j = i
    · rw [hji, written_disk_self]
    · have hne : (j : ℕ) ≠ i := fun hval => hji (Fin.ext hval)
      rw [written_disk_of_ne _ _ (by omega)]
      exact h.done j (by omega)
  · by_cases hji : j = i
    · rw [hji, written_cache_self]
    · exact written_clean _ _ (h.clean j (by omega))

/-- `write_log` copies every block of the transaction to the log, and leaves the rest of the disk.
-/
theorem writeLog_safe (hstart : s.log.start = start) (hfits : s.log.lh.Fits start size)
    (hclear : s.disk start 0 = 0) (hwrites : start ∉ s.writes) :
    writeLog.Safe (Committing start size s) (fun _ t => Copying start size s s.log.lh.n t) s := by
  have hC : ∀ i t, Copying start size s i t → Committing start size s t :=
    fun i t h => h.committing hstart hfits hclear
  have h0 : Copying start size s 0 s :=
    ⟨rfl, hwrites, fun _ _ => rfl, fun _ _ => rfl, fun _ hj => absurd hj (Nat.not_lt_zero _),
      fun _ hj => absurd hj (Nat.not_lt_zero _)⟩
  refine Safe.get_bind (hC 0 s h0) rfl ?_
  rw [hstart]
  refine Safe.forRange (I := Copying start size s) (Nat.zero_add _) hC ?_ h0
  intro i t _ hi h
  have hi' : i < LOGSIZE := Nat.lt_of_lt_of_le hi hfits.le_entries
  have hhome := hfits.home ⟨i, hi'⟩ hi
  -- The block of the transaction is outside the log, so that the cache still has its contents.
  have hfrom : t.view (s.log.lh.block ⟨i, hi'⟩) = s.view (s.log.lh.block ⟨i, hi'⟩) := by
    rw [view, h.cache _ hhome, h.disk_home hfits hhome]
    rfl
  refine Safe.get_bind (hC i t h) rfl ?_
  refine Safe.get_bind (hC i t h) (a := s.log.lh.block ⟨i, hi'⟩) ?_ ?_
  · rw [h.log]
    exact rd_block hi'
  · refine Safe.get_bind (hC i t h) rfl ?_
    have hnext := h.step (i := ⟨i, hi'⟩) hfits hi
    rw [hfrom]
    exact Safe.set (hC i t h) rfl (hC _ _ hnext) hnext

theorem Copying.logged (h : Copying start size s s.log.lh.n t) (hfits : s.log.lh.Fits start size)
    (hb : Block) :
    Logged start size s.log.lh s.newContents (t.written start (s.log.lh.store hb)).disk := by
  have hsize : 0 < size := Nat.zero_lt_of_lt hfits.lt_size
  refine ⟨hfits, ?_, fun i hi => ?_, fun i hi => ?_, fun b hb hname => ?_⟩
  · rw [written_disk_self]
    rfl
  · rw [written_disk_self, LogHeader.store_word _ _ hi]
  · rw [written_disk_of_ne _ _ (by omega), h.done i hi, newContents, if_pos ⟨i, hi, rfl⟩]
  · rw [written_disk_of_ne, h.disk_home hfits hb, newContents, if_neg hname]
    rintro rfl
    exact not_home_start hsize hb

theorem Copying.rest_safe (h : Copying start size s s.log.lh.n t) (hstart : s.log.start = start)
    (hfits : s.log.lh.Fits start size) (hclear : s.disk start 0 = 0) :
    (do writeHead; installTrans; clearHead; writeHead : Prog Storage Unit).Safe
      (Committing start size s) (fun _ _ => True) t := by
  have hlog : t.log = s.log := h.log
  obtain ⟨u, hu⟩ : ∃ u, u = t.written start (s.log.lh.store (t.view start)) := ⟨_, rfl⟩
  have hulog : u.log = s.log := by
    rw [hu]
    exact hlog
  have hlogged : Logged start size u.log.lh s.newContents u.disk := by
    rw [hulog, hu]
    exact h.logged hfits _
  have hclean : ∀ j, j < u.log.lh.n → u.cache (start + j + 1) = none := by
    intro j hj
    rw [hulog] at hj
    rw [hu]
    exact written_clean _ _ (h.clean j hj)
  -- From the write of the header on, it is among the blocks written.
  have hafter : ∀ w, Kept start size s.newContents u w → Committing start size s w := by
    rintro w ⟨hw, hrep, hsub⟩
    have hin : start ∈ w.writes := hsub start (by rw [hu]; exact List.mem_cons_self)
    refine ⟨hw, ?_⟩
    rw [if_pos hin]
    exact hrep
  have hreplay : (do installTrans; clearHead; writeHead : Prog Storage Unit).Safe
      (Committing start size s) (fun _ _ => True) u :=
    (replay_safe (by rw [hulog, hstart]) hlogged hclean).mono hafter fun _ _ _ => trivial
  have hnow := h.committing hstart hfits hclear
  have hwrite : t.written t.log.start (t.log.lh.store (t.view t.log.start)) = u := by
    rw [hu, hlog, hstart]
  refine Safe.bind (writeHead_safe hnow (by rw [hlog]; exact hfits.le_entries) ?_ ?_)
  · rw [hwrite]
    exact hreplay.start
  · rw [hwrite]
    exact hreplay

theorem commit_safe (hstart : s.log.start = start) (hfits : s.log.lh.Fits start size)
    (hclear : s.disk start 0 = 0) (hwrites : start ∉ s.writes) :
    commit.Safe (Committing start size s) (fun _ _ => True) s := by
  have hfirst := writeLog_safe hstart hfits hclear hwrites
  refine Safe.get_bind hfirst.start rfl ?_
  split
  · exact Safe.bind (hfirst.mono (fun _ h => h) fun _ t h => h.rest_safe hstart hfits hclear)
  · exact ⟨hfirst.start, trivial⟩

def cutCommit (k : ℕ) (s : Storage) : Storage := commit.after k { s with writes := [] }

/-- Crash atomicity. Take a disk with a cleared header and a transaction in `log.lh` that fits into
the log. Cut off `commit` after any number of accesses, then `recover_from_log` any number of times,
and let it run to its end at last. It ends with a cleared header. The blocks outside the log have
the contents that the transaction gives them if the header block was among the blocks that `commit`
wrote, and those from before the transaction if not. -/
theorem commit_crash_atomic {s : Storage} (hclear : s.disk s.log.start 0 = 0)
    (hfits : s.log.lh.Fits s.log.start s.log.size) (k : ℕ) (cuts : List ℕ) :
    ∃ r, recoverFromLog.exec (recoverFromLog.restarts reboot cuts (s.cutCommit k)).reboot =
        some ((), r) ∧
      r.disk s.log.start 0 = 0 ∧
      (s.log.start ∈ (s.cutCommit k).writes →
        ∀ b, Home s.log.start s.log.size b → r.disk b = s.newContents b) ∧
      (s.log.start ∉ (s.cutCommit k).writes →
        ∀ b, Home s.log.start s.log.size b → r.disk b = s.disk b) := by
  have hcut : Committing s.log.start s.log.size { s with writes := [] } (s.cutCommit k) :=
    (commit_safe (s := { s with writes := [] }) rfl hfits hclear List.not_mem_nil).after k
  -- Every later crash and reboot keeps what the disk stands for at the first one.
  generalize s.cutCommit k = t at hcut
  have hagain := Safe.restarts (fun _ h => recoverFromLog_safe h) hcut cuts
  obtain ⟨⟨⟩, r, hexec, hr⟩ := (recoverFromLog_safe hagain).exec
  refine ⟨r, hexec, hr.header, fun hin b hb => ?_, fun hout b hb => ?_⟩
  · have hhome := hr.home b hb
    rw [if_pos hin] at hhome
    exact hhome
  · have hhome := hr.home b hb
    rw [if_neg hout] at hhome
    exact hhome

def oneBlock : Storage where
  disk := fun _ _ => 0
  cache := fun b => if b = 100 then some fun _ => 1 else none
  writes := []
  log := ⟨2, LOGSIZE, 0, true, ⟨1, fun _ => 100⟩⟩

/-- A crash right after the write of the header, and two more during recovery. -/
theorem commit_crash_atomic_oneBlock :
    (oneBlock.cutCommit 11).writes = [2, 3] ∧
    ∃ r, recoverFromLog.exec (recoverFromLog.restarts reboot [4, 9] (oneBlock.cutCommit 11)).reboot =
        some ((), r) ∧ r.disk 2 0 = 0 ∧ r.disk 100 = fun _ => 1 := by
  have hfits : oneBlock.log.lh.Fits 2 LOGSIZE :=
    ⟨by decide, by decide, fun _ _ => .inr (show 2 + LOGSIZE ≤ 100 by decide)⟩
  have hwrites : (oneBlock.cutCommit 11).writes = [2, 3] := by decide
  obtain ⟨r, hexec, hheader, hnew, -⟩ := commit_crash_atomic (s := oneBlock) rfl hfits 11 [4, 9]
  refine ⟨hwrites, r, hexec, hheader, ?_⟩
  rw [hnew (by rw [hwrites]; decide) 100 (.inr (by decide))]
  rfl

end Storage

end Xv6
