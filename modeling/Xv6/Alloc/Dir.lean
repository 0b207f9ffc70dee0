import Xv6.Alloc.ReadWrite
import Xv6.Fs.Entries
import Xv6.Strings

/-!
# Directories as bytes

The loops of `dirlookup` and `dirlink` and the writes of `dirlink` and `sys_unlink`, on the bytes of a
directory: an entry is two bytes of inode number and `DIRSIZ` bytes of name, which may be without a
terminating zero or have anything behind it. `ents` decodes the bytes to the entries of
`Xv6.Fs.Inode`, and the functions here do to the bytes what `find`, `emptyAt` and `putEnt` do to
them. `Xv6.Alloc.DirMap` puts them together with `iget` and `iput`.
-/

namespace Xv6.Alloc

open Fs (BSIZE MAXFILE DIRSIZ Itype Dirent find emptyAt putEnt)

variable {n : ℕ} {ι : Type}

/-! ## Entries -/

def direntSize : ℕ := 16

/-- `de.inum` -/
def direntInum (de : List Byte) : ℕ := (de.getD 0 0#8).toNat + 256 * (de.getD 1 0#8).toNat

/-- `de.name` -/
def direntName (de : List Byte) (k : ℕ) : Byte := de.getD (2 + k) 0#8

/-- The bytes of an entry. -/
def direntBytes (inum : ℕ) (name : ℕ → Byte) : List Byte :=
  BitVec.ofNat 8 inum :: BitVec.ofNat 8 (inum / 256) :: (List.range DIRSIZ).map name

def namecmp (s t : ℕ → Byte) : ℤ := strncmp s t DIRSIZ

def readDirent (sb : Super) (i : Fin n) (off : ℕ) (why : String) : Sys n (List Byte) := do
  let de ← readi sb i off direntSize
  panicUnless ((de.getD []).length = direntSize) why
  return de.getD []

def scanFrom (sb : Super) (i : Fin n) (name : ℕ → Byte) : ℕ → ℕ → Sys n (Option (ℕ × ℕ))
  | 0, _ => return none
  | fuel + 1, off => do
    let dp ← call (.inode i)
    if off < dp.size then do
      let de ← readDirent sb i off "dirlookup read"
      if direntInum de ≠ 0 ∧ namecmp name (direntName de) = 0 then
        return some (direntInum de, off)
      else
        scanFrom sb i name fuel (off + direntSize)
    else return none

def scan (sb : Super) (i : Fin n) (name : ℕ → Byte) : Sys n (Option (ℕ × ℕ)) := do
  let dp ← call (.inode i)
  panicUnless (dp.type = .dir) "dirlookup not DIR"
  scanFrom sb i name (dp.size / direntSize + 1) 0

def emptyFrom (sb : Super) (i : Fin n) : ℕ → ℕ → Sys n ℕ
  | 0, off => return off
  | fuel + 1, off => do
    let dp ← call (.inode i)
    if off < dp.size then do
      let de ← readDirent sb i off "dirlink read"
      if direntInum de = 0 then return off
      else emptyFrom sb i fuel (off + direntSize)
    else return off

def addEntry (sb : Super) (i : Fin n) (name : ℕ → Byte) (inum : ℕ) : Sys n Unit := do
  let dp ← call (.inode i)
  let off ← emptyFrom sb i (dp.size / direntSize + 1) 0
  let r ← writei sb i (direntBytes inum (strncpy (fun _ => 0#8) name DIRSIZ)) off
  panicUnless (r = some direntSize) "dirlink"

def clearEntry (sb : Super) (i : Fin n) (off : ℕ) : Sys n Unit := do
  let r ← writei sb i (List.replicate direntSize 0#8) off
  panicUnless (r = some direntSize) "unlink: writei"

/-! ## Decoding -/

def charOf (b : Byte) : Char := Char.ofNat b.toNat

theorem charOf_injective : Function.Injective charOf := by
  have hval : ∀ m < 256, (Char.ofNat m).toNat = m := by
    intro m hm
    have hchar : m.isValidChar := .inl (by omega)
    rw [Char.ofNat, dif_pos hchar]
    rfl
  intro b c h
  have h := congrArg Char.toNat h
  rw [charOf, charOf, hval _ b.isLt, hval _ c.isLt] at h
  exact BitVec.eq_of_toNat_eq h

def nameOf (t : ℕ → Byte) : Fs.Name := (cstr t 0 DIRSIZ).map charOf

theorem namecmp_eq_zero_iff {s t : ℕ → Byte} : namecmp s t = 0 ↔ nameOf s = nameOf t := by
  unfold namecmp nameOf
  rw [strncmp_eq_zero_iff]
  exact (List.map_injective_iff.2 charOf_injective).eq_iff.symm

def entOf (de : List Byte) : Dirent := ⟨direntInum de, nameOf (direntName de)⟩

def entBytes (a : List Byte) (k : ℕ) : List Byte := (a.drop (direntSize * k)).take direntSize

def ents (a : List Byte) : List Dirent :=
  (List.range (a.length / direntSize)).map fun k => entOf (entBytes a k)

theorem length_ents (a : List Byte) : (ents a).length = a.length / direntSize := by
  rw [ents, List.length_map, List.length_range]

theorem getElem?_ents (a : List Byte) (k : ℕ) :
    (ents a)[k]? = if k < a.length / direntSize then some (entOf (entBytes a k)) else none := by
  rw [ents, List.getElem?_map]
  split
  · rename_i hk
    rw [List.getElem?_range hk]
    rfl
  · rename_i hk
    rw [List.getElem?_eq_none (by rw [List.length_range]; omega)]
    rfl

theorem drop_ents {a : List Byte} {k : ℕ} (hk : k < a.length / direntSize) :
    (ents a).drop k = entOf (entBytes a k) :: (ents a).drop (k + 1) := by
  have hlen : k < (ents a).length := by rwa [length_ents]
  have hget := getElem?_ents a k
  rw [if_pos hk, List.getElem?_eq_getElem hlen] at hget
  rw [List.drop_eq_getElem_cons hlen, Option.some.inj hget]

theorem entOf_direntBytes {inum : ℕ} (hinum : inum < 65536) (junk name : ℕ → Byte) :
    entOf (direntBytes inum (strncpy junk name DIRSIZ)) = ⟨inum, nameOf name⟩ := by
  have hname : cstr (direntName (direntBytes inum (strncpy junk name DIRSIZ))) 0 DIRSIZ =
      cstr name 0 DIRSIZ := by
    refine cstr_eq_of_text (fun j hj => absurd hj (Nat.not_lt_zero j)) fun k _ hk => ?_
    have hk : k < DIRSIZ := by omega
    have htext : strncpy junk name DIRSIZ k = text name k := by rw [strncpy_apply, if_pos hk]
    rw [← htext]
    unfold direntName direntBytes
    rw [Nat.add_comm, List.getD_cons_succ, List.getD_cons_succ]
    simp [List.getD_eq_getElem?_getD, hk]
  unfold entOf nameOf
  rw [hname]
  congr 1
  simp only [direntInum, direntBytes, List.getD_cons_zero, List.getD_cons_succ, BitVec.toNat_ofNat]
  omega

theorem entBytes_overwrite {a de : List Byte} {k l : ℕ} (hde : de.length = direntSize)
    (hk : direntSize * k ≤ a.length) :
    entBytes (a.take (direntSize * k) ++ de ++ a.drop (direntSize * k + de.length)) l =
      if l = k then de else entBytes a l := by
  unfold direntSize at *
  have htake : (a.take (16 * k)).length = 16 * k := by rw [List.length_take, Nat.min_eq_left hk]
  unfold entBytes direntSize
  refine List.ext_getElem? fun j => ?_
  by_cases hj : j < 16
  · rw [List.getElem?_take_of_lt hj, List.getElem?_drop]
    rcases Nat.lt_trichotomy l k with hlt | rfl | hgt
    · rw [if_neg hlt.ne, List.getElem?_take_of_lt hj, List.getElem?_drop,
        List.getElem?_append_left (by rw [List.length_append]; omega),
        List.getElem?_append_left (by omega), List.getElem?_take_of_lt (by omega)]
    · rw [if_pos rfl, List.getElem?_append_left (by rw [List.length_append]; omega),
        List.getElem?_append_right (by omega), htake, Nat.add_sub_cancel_left]
    · rw [if_neg hgt.ne', List.getElem?_take_of_lt hj, List.getElem?_drop,
        List.getElem?_append_right (by rw [List.length_append]; omega), List.length_append, htake,
        List.getElem?_drop]
      congr 1
      omega
  · rw [List.getElem?_eq_none (by rw [List.length_take]; omega)]
    split
    · rw [List.getElem?_eq_none (by omega)]
    · rw [List.getElem?_eq_none (by rw [List.length_take]; omega)]

theorem ents_write {a de a' : List Byte} {k : ℕ} (hde : de.length = direntSize)
    (ha : a.length % direntSize = 0) (h : arrayWrite a de (direntSize * k) = some a') :
    ents a' = putEnt (ents a) k (entOf de) ∧ a'.length % direntSize = 0 := by
  obtain ⟨hk, -, rfl⟩ := arrayWrite_eq_some.1 h
  have hbytes := fun l => entBytes_overwrite (l := l) hde hk
  have hlen : (a.take (direntSize * k) ++ de ++ a.drop (direntSize * k + de.length)).length =
      max a.length (direntSize * k + direntSize) := by
    rw [List.length_append, List.length_append, List.length_take, List.length_drop, hde]
    omega
  generalize a.take (direntSize * k) ++ de ++ a.drop (direntSize * k + de.length) = a' at *
  unfold direntSize at *
  refine ⟨List.ext_getElem? fun l => ?_, by omega⟩
  have hle : k ≤ (ents a).length := by
    rw [length_ents]
    unfold direntSize
    omega
  rw [Fs.getElem?_putEnt hle, getElem?_ents, getElem?_ents, hbytes]
  unfold direntSize
  by_cases hl : l = k
  · rw [if_pos hl, if_pos hl, if_pos (by omega)]
  · rw [if_neg hl, if_neg hl]
    by_cases hin : l < a.length / 16
    · rw [if_pos hin, if_pos (by omega)]
    · rw [if_neg hin, if_neg (by omega)]

/-! ## The functions -/

/-- The bytes of file `i`. -/
def Store.bytes (s : Store n ι) (i : Fin n) : List Byte :=
  (List.range (s.cur i).size).map fun k =>
    s.blk ((s.cur i).blockAt s.blk (.of (k / BSIZE))) (k % BSIZE)

theorem Content.bytes {s : Store n ι} {i : Fin n} {a : List Byte} (h : Content s i a) :
    s.bytes i = a := by
  refine List.ext_getElem (by rw [Store.bytes, List.length_map, List.length_range, h.length])
    fun k hk hk' => ?_
  obtain ⟨b, href, hval⟩ := h.get k hk'
  simp only [Store.bytes, List.getElem_map, List.getElem_range, href.blockAt, hval]

section Wp

variable [DecidableEq ι] [Fintype ι] {sb : Super} {s s' : Store n ι} {p : ι} {i : Fin n}
  {a : List Byte} {name : ℕ → Byte} {D : String → Store n ι → Prop}

/-- Inode `i` is a directory with the bytes `a`, and is in memory. -/
structure DirAt (sb : Super) (i : Fin n) (a : List Byte) (s : Store n ι) : Prop where
  sane : Sane sb s
  valid : s.valid i = true
  type : (s.mem i).type = .dir
  content : Content s i a
  aligned : a.length % direntSize = 0
  small : a.length ≤ MAXFILE * BSIZE

namespace DirAt

omit [DecidableEq ι] [Fintype ι] in
theorem size (h : DirAt sb i a s) : (s.mem i).size = a.length := by
  rw [h.content.length, cur_of_valid h.valid]

omit [DecidableEq ι] [Fintype ι] in
theorem lt_size_iff {k : ℕ} (h : DirAt sb i a s) :
    direntSize * k < (s.mem i).size ↔ k < a.length / direntSize := by
  have := h.aligned
  rw [h.size]
  unfold direntSize at *
  omega

omit [DecidableEq ι] [Fintype ι] in
theorem congr (h : DirAt sb i a s) (hfiles : SameFiles s s') (hv : s'.valid i = true) :
    DirAt sb i a s' where
  sane := hfiles.sane h.sane
  valid := hv
  type := by rw [← cur_of_valid hv, hfiles.cur, cur_of_valid h.valid, h.type]
  content := hfiles.content h.content
  aligned := h.aligned
  small := h.small

theorem readDirent_ends {Q : List Byte → Store n ι → Prop} {k : ℕ} {why : String}
    (h : DirAt sb i a s) (hk : k < a.length / direntSize) (hQ : Q (entBytes a k) s) :
    Ends sb p D (readDirent sb i (direntSize * k) why) Q s := by
  have hsmall : a.length ≤ 71680 := h.small
  have hend : direntSize * k + direntSize ≤ a.length := by
    unfold direntSize at *
    omega
  have hread : arrayRead a (direntSize * k) direntSize = some (entBytes a k) := by
    rw [arrayRead, if_neg]
    · rfl
    · omega
  have hlen : (entBytes a k).length = direntSize := by
    rw [entBytes, List.length_take, List.length_drop]
    omega
  unfold readDirent
  refine Task.wp_bind.2 (readi_ends h.valid (by rw [h.type]; nofun) h.content (by omega)
    (by decide) ?_)
  rw [hread, panicUnless, Option.getD_some, if_pos hlen]
  exact hQ

theorem scanFrom_ends (h : DirAt sb i a s) (fuel : ℕ) :
    ∀ {Q : Option (ℕ × ℕ) → Store n ι → Prop} {k : ℕ}, k ≤ a.length / direntSize →
      a.length / direntSize - k < fuel →
      Q ((find (nameOf name) ((ents a).drop k)).map fun x => (x.1, direntSize * (k + x.2))) s →
      Ends sb p D (scanFrom sb i name fuel (direntSize * k)) Q s := by
  induction fuel with
  | zero =>
    intro Q k hk hfuel hQ
    exact absurd hfuel (Nat.not_lt_zero _)
  | succ fuel ih =>
    intro Q k hk hfuel hQ
    unfold scanFrom
    refine Task.wp_bind.2 (call_ends rfl ?_)
    by_cases hlt : k < a.length / direntSize
    · rw [if_pos (h.lt_size_iff.2 hlt)]
      rw [drop_ents hlt] at hQ
      refine Task.wp_bind.2 (h.readDirent_ends hlt ?_)
      have hname : direntInum (entBytes a k) ≠ 0 ∧
          namecmp name (direntName (entBytes a k)) = 0 ↔
          (entOf (entBytes a k)).inum ≠ 0 ∧ (entOf (entBytes a k)).name = nameOf name := by
        rw [namecmp_eq_zero_iff, eq_comm (a := nameOf name)]
        exact Iff.rfl
      by_cases hfound : direntInum (entBytes a k) ≠ 0 ∧
          namecmp name (direntName (entBytes a k)) = 0
      · rw [if_pos hfound]
        rw [find, if_pos (hname.1 hfound)] at hQ
        exact hQ
      · rw [if_neg hfound, ← Nat.mul_succ]
        refine ih hlt (by omega) ?_
        rw [find, if_neg fun hc => hfound (hname.2 hc), Option.map_map] at hQ
        have hfun : (fun x : ℕ × ℕ => (x.1, direntSize * (k + x.2))) ∘
            (fun x : ℕ × ℕ => (x.1, x.2 + 1)) =
            fun x : ℕ × ℕ => (x.1, direntSize * (k.succ + x.2)) := by
          funext x
          exact congrArg (fun m => (x.1, direntSize * m)) (Nat.succ_add_eq_add_succ k x.2).symm
        rw [hfun] at hQ
        exact hQ
    · rw [if_neg fun hc => hlt (h.lt_size_iff.1 hc)]
      rw [List.drop_of_length_le (by rw [length_ents]; omega)] at hQ
      exact hQ

theorem scan_ends {Q : Option (ℕ × ℕ) → Store n ι → Prop} (h : DirAt sb i a s)
    (hQ : Q ((find (nameOf name) (ents a)).map fun x => (x.1, direntSize * x.2)) s) :
    Ends sb p D (scan sb i name) Q s := by
  unfold scan
  refine Task.wp_bind.2 (call_ends rfl ?_)
  rw [panicUnless, if_pos h.type, h.size]
  refine h.scanFrom_ends _ (Nat.zero_le _) (Nat.lt_succ_self _) ?_
  simp only [List.drop_zero, Nat.zero_add]
  exact hQ

theorem emptyFrom_ends (h : DirAt sb i a s) (fuel : ℕ) :
    ∀ {Q : ℕ → Store n ι → Prop} {k : ℕ}, k ≤ a.length / direntSize →
      a.length / direntSize - k < fuel → Q (direntSize * (k + emptyAt ((ents a).drop k))) s →
      Ends sb p D (emptyFrom sb i fuel (direntSize * k)) Q s := by
  induction fuel with
  | zero =>
    intro Q k hk hfuel hQ
    exact absurd hfuel (Nat.not_lt_zero _)
  | succ fuel ih =>
    intro Q k hk hfuel hQ
    unfold emptyFrom
    refine Task.wp_bind.2 (call_ends rfl ?_)
    by_cases hlt : k < a.length / direntSize
    · rw [if_pos (h.lt_size_iff.2 hlt)]
      rw [drop_ents hlt] at hQ
      refine Task.wp_bind.2 (h.readDirent_ends hlt ?_)
      by_cases h0 : direntInum (entBytes a k) = 0
      · rw [if_pos h0]
        rw [emptyAt, if_pos (show (entOf (entBytes a k)).inum = 0 from h0)] at hQ
        exact hQ
      · rw [if_neg h0, ← Nat.mul_succ]
        refine ih hlt (by omega) ?_
        rw [emptyAt, if_neg (show ¬ (entOf (entBytes a k)).inum = 0 from h0), ← Nat.add_assoc,
          Nat.add_right_comm] at hQ
        exact hQ
    · rw [if_neg fun hc => hlt (h.lt_size_iff.1 hc)]
      rw [List.drop_of_length_le (by rw [length_ents]; omega)] at hQ
      exact hQ

omit [DecidableEq ι] [Fintype ι] in
theorem updated {de a' : List Byte} {k : ℕ} (h : DirAt sb i a s) (hde : de.length = direntSize)
    (hsome : arrayWrite a de (direntSize * k) = some a') (hs : Updated sb i a' s s') :
    DirAt sb i a' s' where
  sane := hs.sane
  valid := by rw [hs.valid, h.valid]
  type := by rw [hs.type, h.type]
  content := hs.content
  aligned := (ents_write hde h.aligned hsome).2
  small := by
    obtain ⟨hoff, hmax, rfl⟩ := arrayWrite_eq_some.1 hsome
    have := h.small
    rw [List.length_append, List.length_append, List.length_take, List.length_drop]
    omega

theorem writei_ends {Q : Option ℕ → Store n ι → Prop} {de : List Byte} {k : ℕ}
    (h : DirAt sb i a s) (hlog : 11 ≤ sb.logMax) (ht : s.trans p = true) (hlh : s.lh = ∅)
    (hde : de.length = direntSize) (hk : direntSize * k ≤ a.length)
    (hmax : direntSize * k + direntSize ≤ MAXFILE * BSIZE)
    (hD : (s.unmarked sb).card <
      (s.lacking i (places (direntSize * k) direntSize)).card → MayRunOut sb D)
    (hQ : ∀ s' a', DirAt sb i a' s' → Updated sb i a' s s' →
      Spent sb i (places (direntSize * k) direntSize) s s' →
      s'.lacking i (places (direntSize * k) direntSize) = ∅ →
      ents a' = putEnt (ents a) k (entOf de) → Q (some direntSize) s') :
    Ends sb p D (writei sb i de (direntSize * k)) Q s := by
  obtain ⟨a', ha'⟩ : ∃ a', arrayWrite a de (direntSize * k) = some a' :=
    ⟨_, arrayWrite_eq_some.2 ⟨hk, by rw [hde]; exact hmax, rfl⟩⟩
  have huse : s.writeUse sb i (direntSize * k) de.length ≤ 11 :=
    writeUse_le hlh (by rw [hde]; decide)
  refine Alloc.writei_ends h.sane h.valid (by rw [h.type]; nofun) (by rw [h.type]; nofun) ht
    h.content ha' (huse.trans hlog) (hde ▸ hD) fun s' hup hspent hlack => ?_
  rw [hde] at hspent hlack ⊢
  exact hQ s' a' (h.updated hde ha' hup) hup hspent hlack (ents_write hde h.aligned ha').1

theorem addEntry_ends {Q : Unit → Store n ι → Prop} {inum : ℕ} (h : DirAt sb i a s)
    (hlog : 11 ≤ sb.logMax) (ht : s.trans p = true) (hlh : s.lh = ∅) (hinum : inum < 65536)
    (hroom : a.length < MAXFILE * BSIZE)
    (hD : (s.unmarked sb).card < (s.lacking i (places (direntSize * emptyAt (ents a))
      direntSize)).card → MayRunOut sb D)
    (hQ : ∀ s' a', DirAt sb i a' s' → Updated sb i a' s s' →
      Spent sb i (places (direntSize * emptyAt (ents a)) direntSize) s s' →
      s'.lacking i (places (direntSize * emptyAt (ents a)) direntSize) = ∅ →
      ents a' = putEnt (ents a) (emptyAt (ents a)) ⟨inum, nameOf name⟩ → Q () s') :
    Ends sb p D (addEntry sb i name inum) Q s := by
  have hle : direntSize * emptyAt (ents a) ≤ a.length := by
    have := Fs.emptyAt_le (ents a)
    rw [length_ents] at this
    unfold direntSize at *
    omega
  have hfits : direntSize * emptyAt (ents a) + direntSize ≤ MAXFILE * BSIZE := by
    have hmax : MAXFILE * BSIZE = 71680 := rfl
    have := h.aligned
    unfold direntSize at *
    omega
  have hlen : (direntBytes inum (strncpy (fun _ => 0#8) name DIRSIZ)).length = direntSize := by
    rw [direntBytes, List.length_cons, List.length_cons, List.length_map, List.length_range]
    rfl
  unfold addEntry
  refine Task.wp_bind.2 (call_ends rfl ?_)
  rw [h.size]
  refine Task.wp_bind.2 (h.emptyFrom_ends _ (Nat.zero_le _) (Nat.lt_succ_self _) ?_)
  rw [List.drop_zero, Nat.zero_add]
  refine Task.wp_bind.2 (h.writei_ends hlog ht hlh hlen hle hfits hD
    fun s' a' hdir hup hspent hlack hents => ?_)
  rw [entOf_direntBytes hinum] at hents
  exact hQ s' a' hdir hup hspent hlack hents

theorem clearEntry_ends {Q : Unit → Store n ι → Prop} {k : ℕ} (h : DirAt sb i a s)
    (hlog : 11 ≤ sb.logMax) (ht : s.trans p = true) (hlh : s.lh = ∅)
    (hk : k < a.length / direntSize)
    (hQ : ∀ s' a', DirAt sb i a' s' → Updated sb i a' s s' →
      (∀ b < sb.size, s'.marked b = s.marked b) →
      ents a' = putEnt (ents a) k (entOf (List.replicate direntSize 0#8)) → Q () s') :
    Ends sb p D (clearEntry sb i (direntSize * k)) Q s := by
  have hend : direntSize * k + direntSize ≤ a.length := by
    unfold direntSize at *
    omega
  -- The entry is in the file, so that nothing is allocated for it.
  have hnone : s.lacking i (places (direntSize * k) direntSize) = ∅ :=
    Store.lacking_places fun l _ hl => ⟨_, h.content.get l (by omega)⟩
  unfold clearEntry
  refine Task.wp_bind.2 (h.writei_ends hlog ht hlh List.length_replicate (by omega)
    (hend.trans h.small) (fun hfew => ?_) fun s' a' hdir hup hspent hlack hents => ?_)
  · rw [hnone, Finset.card_empty] at hfew
    exact absurd hfew (Nat.not_lt_zero _)
  · exact hQ s' a' hdir hup (hspent.marked_eq hnone) hents

end DirAt

end Wp

end Xv6.Alloc
