import Xv6.Alloc.Dir
import Xv6.Fs.Alone
import Xv6.Fs.Entries
import Xv6.Fs.Held

/-!
# A directory is a map

`dirlookup`, `dirlink` and what `sys_unlink` does to a directory, on its bytes and on the inode cache.
The state has two parts: the blocks of `Xv6.Alloc`, for `readi` and `writei`, and the inode cache of
`Xv6.Fs`, whose `iget` and `iput` are run as they are. Over any sequence of calls, the directory is a
map from names to inode numbers.

`dirlink` drops the inode that it finds with `iput`, which takes the lock of that inode. If the name
is bound to the directory itself, the process waits for a lock that it holds.
-/

namespace Xv6.Alloc

open Function
open Fs (BSIZE MAXFILE DIRSIZ Dirent Pid find emptyAt putEnt bound Distinct)

variable {n m : ℕ} {sb : Super} {p : Pid} {i : Fin n} {a a' : List Byte} {name : ℕ → Byte}
  {s s' : Store n Pid} {c : Fs.Disk} {α : Type}

/-! ## The two parts of the state -/

/-- The blocks, and the inode cache. -/
structure Volume (n : ℕ) where
  store : Store n Pid
  cache : Fs.Disk

variable {v v' : Volume n}

/-- A program over both. -/
abbrev DirSys (n : ℕ) := Task (Op n ⊕ Fs.Op) (Sum.elim Op.Answer Fs.Op.Answer)

def Volume.perform (sb : Super) (m : ℕ) (p : Pid) :
    (o : Op n ⊕ Fs.Op) → Volume n → Option (Sum.elim Op.Answer Fs.Op.Answer o × Volume n)
  | .inl o, v => (o.perform sb p v.store).map fun x => (x.1, ⟨x.2, v.cache⟩)
  | .inr o, v => (o.perform m p v.cache).map fun x => (x.1, ⟨v.store, x.2⟩)

def blocks (t : Sys n α) : DirSys n α := t.map .inl fun _ => id

def inodes (t : Fs.Sys α) : DirSys n α := t.map .inr fun _ => id

namespace Volume

abbrev Ends (sb : Super) (m : ℕ) (p : Pid) (D : String → Volume n → Prop) (t : DirSys n α)
    (Q : α → Volume n → Prop) (v : Volume n) : Prop :=
  t.Wp (Volume.perform sb m p) (· = ·) D Q v

variable {D : String → Volume n → Prop}

theorem blocks_ends {t : Sys n α} {Q : α → Volume n → Prop}
    (h : Alloc.Ends sb p (fun why s => D why ⟨s, c⟩) t (fun x s => Q x ⟨s, c⟩) s) :
    Ends sb m p D (blocks t) Q ⟨s, c⟩ :=
  Task.Wp.map (Volume.mk · c) (fun _ _ => Option.map_map ..) h

theorem inodes_ends {t : Fs.Sys α} {Q : α → Volume n → Prop}
    (h : Fs.Ends m p (fun why c => D why ⟨s, c⟩) t (fun x c => Q x ⟨s, c⟩) c) :
    Ends sb m p D (inodes t) Q ⟨s, c⟩ :=
  Task.Wp.map (Volume.mk s) (fun _ _ => Option.map_map ..) h

theorem exec_inodes (t : Fs.Sys α) : (inodes t).exec (Volume.perform sb m p) ⟨s, c⟩ =
    (t.exec (Fs.Op.perform m p) c).map fun x => (x.1, ⟨s, x.2⟩) :=
  Task.exec_map (Volume.mk s) (fun _ _ => Option.map_map ..) t c

end Volume

/-! ## The functions -/

def dirlookup (sb : Super) (site : Fs.Site) (i : Fin n) (name : ℕ → Byte) :
    DirSys n (Option (ℕ × ℕ)) := do
  match ← blocks (scan sb i name) with
  | none => return none
  | some x =>
    inodes (Fs.iget site x.1)
    return some x

def dirlink (sb : Super) (i : Fin n) (name : ℕ → Byte) (inum : ℕ) : DirSys n Bool := do
  match ← dirlookup sb (.dirlink (nameOf name)) i name with
  | some x =>
    inodes (Fs.iput .other x.1)
    return false
  | none =>
    blocks (addEntry sb i name inum)
    return true

def unlinkEnt (sb : Super) (i : Fin n) (name : ℕ → Byte) : DirSys n Bool := do
  match ← dirlookup sb .other i name with
  | none => return false
  | some x =>
    blocks (clearEntry sb i x.2)
    return true

/-- The calls. -/
inductive DirOp
  | lookup (name : ℕ → Byte)
  | link (name : ℕ → Byte) (inum : ℕ)
  | unlink (name : ℕ → Byte)

/-- What they return. -/
inductive DirAnswer
  | found (r : Option (ℕ × ℕ))
  | done (ok : Bool)
  deriving DecidableEq

def DirOp.body (sb : Super) (i : Fin n) : DirOp → DirSys n DirAnswer
  | .lookup name => do
    let r ← dirlookup sb .other i name
    return .found r
  | .link name inum => do
    let ok ← dirlink sb i name inum
    return .done ok
  | .unlink name => do
    let ok ← unlinkEnt sb i name
    return .done ok

def DirOp.prog (sb : Super) (i : Fin n) (o : DirOp) : DirSys n DirAnswer := do
  blocks (call (.beginOp false))
  let r ← o.body sb i
  blocks (call .endOp)
  return r

section Functions

open Volume

variable {D : String → Volume n → Prop}

theorem dirlookup_ends {site : Fs.Site} {Q : Option (ℕ × ℕ) → Volume n → Prop}
    (h : DirAt sb i a s) (hnone : find (nameOf name) (ents a) = none → Q none ⟨s, c⟩)
    (hsome : ∀ j k, find (nameOf name) (ents a) = some (j, k) → c.Room m j →
      Q (some (j, direntSize * k)) ⟨s, c.got j⟩)
    (hD : ∀ j k, find (nameOf name) (ents a) = some (j, k) → ¬ c.Room m j →
      D "iget: no inodes" ⟨s, c⟩) :
    Volume.Ends sb m p D (dirlookup sb site i name) Q ⟨s, c⟩ := by
  unfold dirlookup
  refine Task.wp_bind.2 (blocks_ends (h.scan_ends ?_))
  cases hfind : find (nameOf name) (ents a) with
  | none => exact hnone hfind
  | some x =>
    exact Task.wp_bind.2 (inodes_ends (Fs.iget_ends (hsome x.1 x.2 hfind) (hD x.1 x.2 hfind)))

end Functions

/-! ## Transactions -/

/-- After `begin_op`. -/
def Store.began {ι : Type} [DecidableEq ι] (p : ι) (s : Store n ι) : Store n ι :=
  { s with
    trans := update s.trans p true
    pass := update s.pass p false
    logged := update s.logged p ∅ }

/-- After `end_op`. -/
def Store.ended {ι : Type} [DecidableEq ι] [Fintype ι] (p : ι) (s : Store n ι) : Store n ι :=
  { s with
    trans := update s.trans p false
    lh := if ∃ q, q ≠ p ∧ s.trans q = true then s.lh else ∅ }

theorem Store.sameFiles_began : SameFiles s (s.began p) := ⟨rfl, rfl, fun _ => rfl⟩

theorem Store.sameFiles_ended : SameFiles s (s.ended p) := ⟨rfl, rfl, fun _ => rfl⟩

theorem DirOp.prog_ends {o : DirOp} {D : String → Volume n → Prop}
    {Q : DirAnswer → Volume n → Prop}
    (h : Volume.Ends sb m p D (o.body sb i) (fun r v' => Q r ⟨v'.store.ended p, v'.cache⟩)
      ⟨s.began p, c⟩) : Volume.Ends sb m p D (o.prog sb i) Q ⟨s, c⟩ := by
  refine Task.wp_bind.2 (Volume.blocks_ends (call_ends rfl (Task.wp_bind.2 (h.mono ?_))))
  intro r v' hQ
  exact Task.wp_bind.2 (Volume.blocks_ends (call_ends rfl hQ))

/-! ## The map -/

/-- Inode `i` is a directory with the bytes `a` and with distinct names, which process `p` has locked.
Nobody is in a transaction. -/
structure MapAt (sb : Super) (m : ℕ) (p : Pid) (i : Fin n) (a : List Byte) (v : Volume n) :
    Prop where
  dir : DirAt sb i a v.store
  distinct : Distinct (ents a)
  known : ∀ e ∈ ents a, e.inum < m
  held : v.cache.lock i = some p
  idle : ∀ q, v.store.trans q = false
  lh : v.store.lh = ∅

/-- Nothing but inode `i` and what is in its blocks is different; and blocks are marked that it has
now. -/
structure Others (i : Fin n) (s s' : Store n Pid) : Prop where
  cur : ∀ j, j ≠ i → s'.cur j = s.cur j
  content : ∀ j, j ≠ i → ∀ {c}, Content s j c → Content s' j c
  marked : ∀ {b}, s'.marked b = true ↔ s.marked b = true ∨ ∃ pl, (s'.cur i).Ref s'.blk pl b
  nlink : (s'.cur i).nlink = (s.cur i).nlink

theorem Updated.toOthers (h : Updated sb i a s s') (hv : s.valid i = true) : Others i s s' where
  cur j hj := by simp only [Store.cur, h.valid, h.mem j hj, h.disk j hj]
  content j hj := h.others j hj
  marked := h.marked
  nlink := by rw [cur_of_valid hv, cur_of_valid (h.valid ▸ hv), h.nlink]

theorem Others.ended (h : Others i (s.began p) s') : Others i s (s'.ended p) :=
  ⟨h.cur, fun j hj _ hc => Store.sameFiles_ended.content
    (h.content j hj (Store.sameFiles_began.content hc)), h.marked, h.nlink⟩

def DirOp.Fits (m : ℕ) (i : Fin n) (v : Volume n) : DirOp → Prop
  | .link _ inum =>
    0 < inum ∧ inum < 65536 ∧ inum < m ∧ (v.store.mem i).size < MAXFILE * BSIZE
  | _ => True

def DirOp.Safe (sb : Super) (m : ℕ) (i : Fin n) (v : Volume n) : DirOp → Prop
  | .lookup name | .unlink name =>
    ∀ j, bound (ents (v.store.bytes i)) (nameOf name) = some j → v.cache.Room m j
  | .link name _ =>
    (∀ j, bound (ents (v.store.bytes i)) (nameOf name) = some j →
      v.cache.Room m j ∧ v.cache.lock j = none) ∧
    (bound (ents (v.store.bytes i)) (nameOf name) = none →
      (v.store.lacking i (places (direntSize * emptyAt (ents (v.store.bytes i)))
        direntSize)).card ≤ (v.store.unmarked sb).card)

/-- What a call returns and makes of the map that a directory with the bytes `a` stands for, and what
it leaves as it is. -/
inductive DirOp.Refines (sb : Super) (i : Fin n) :
    DirOp → DirAnswer → List Byte → Volume n → List Byte → Volume n → Prop
  | lookupAbsent {name : ℕ → Byte} {a : List Byte} {v v' : Volume n}
      (h : bound (ents a) (nameOf name) = none) (hfiles : SameFiles v.store v'.store)
      (hcache : v'.cache = v.cache) : Refines sb i (.lookup name) (.found none) a v a v'
  /-- The bound inode, to which there is a reference now, and the offset of its entry. -/
  | lookup {name : ℕ → Byte} {j k : ℕ} {a : List Byte} {v v' : Volume n}
      (h : find (nameOf name) (ents a) = some (j, k)) (hfiles : SameFiles v.store v'.store)
      (hcache : v'.cache = v.cache.got j) :
      Refines sb i (.lookup name) (.found (some (j, direntSize * k))) a v a v'
  /-- At most the copy in an entry of the cache without references is gone. -/
  | linkPresent {name : ℕ → Byte} {inum j : ℕ} {a : List Byte} {v v' : Volume n}
      (h : bound (ents a) (nameOf name) = some j) (hfiles : SameFiles v.store v'.store)
      (hcache : v'.cache = if 0 < v.cache.ref j then v.cache else v.cache.setValid j false) :
      Refines sb i (.link name inum) (.done false) a v a v'
  /-- The entry is the first that is empty; the directory gets longer only if none is. -/
  | link {name : ℕ → Byte} {inum : ℕ} {a a' : List Byte} {v v' : Volume n}
      (h : bound (ents a) (nameOf name) = none)
      (hents : ents a' = putEnt (ents a) (emptyAt (ents a)) ⟨inum, nameOf name⟩)
      (hbound : bound (ents a') = update (bound (ents a)) (nameOf name) (some inum))
      (hlen : (ents a').length = if ∃ e ∈ ents a, e.inum = 0 then (ents a).length
        else (ents a).length + 1)
      (hothers : Others i v.store v'.store) (hcache : v'.cache = v.cache) :
      Refines sb i (.link name inum) (.done true) a v a' v'
  | unlinkAbsent {name : ℕ → Byte} {a : List Byte} {v v' : Volume n}
      (h : bound (ents a) (nameOf name) = none) (hfiles : SameFiles v.store v'.store)
      (hcache : v'.cache = v.cache) : Refines sb i (.unlink name) (.done false) a v a v'
  | unlink {name : ℕ → Byte} {j k : ℕ} {a a' : List Byte} {v v' : Volume n}
      (h : find (nameOf name) (ents a) = some (j, k))
      (hents : ents a' = putEnt (ents a) k ⟨0, []⟩)
      (hbound : bound (ents a') = update (bound (ents a)) (nameOf name) none)
      (hlen : (ents a').length = (ents a).length) (hothers : Others i v.store v'.store)
      (hmarked : ∀ b < sb.size, v'.store.marked b = v.store.marked b)
      (hcache : v'.cache = v.cache.got j) :
      Refines sb i (.unlink name) (.done true) a v a' v'

namespace MapAt

theorem began (h : MapAt sb m p i a ⟨s, c⟩) : DirAt sb i a (s.began p) :=
  h.dir.congr Store.sameFiles_began h.dir.valid

theorem began_trans (s : Store n Pid) : (s.began p).trans p = true := update_self ..

theorem ended {c' : Fs.Disk} (h : MapAt sb m p i a ⟨s, c⟩) (hdir : DirAt sb i a' s')
    (htrans : s'.trans = (s.began p).trans) (hdist : Distinct (ents a'))
    (hknown : ∀ e ∈ ents a', e.inum < m) (hheld : c'.lock = c.lock) :
    MapAt sb m p i a' ⟨s'.ended p, c'⟩ := by
  have hidle : ∀ q, (s'.ended p).trans q = false := by
    intro q
    show update s'.trans p false q = false
    by_cases hq : q = p
    · rw [hq, update_self]
    · rw [update_of_ne hq, htrans]
      exact (update_of_ne hq ..).trans (h.idle q)
  refine ⟨hdir.congr Store.sameFiles_ended hdir.valid, hdist, hknown,
    (congrFun hheld i).trans h.held, hidle, if_neg ?_⟩
  rintro ⟨q, hq, hon⟩
  have hoff : update s'.trans p false q = false := hidle q
  rw [update_of_ne hq, hon] at hoff
  cases hoff

theorem unchanged (h : MapAt sb m p i a ⟨s, c⟩) {c' : Fs.Disk} (hheld : c'.lock = c.lock) :
    MapAt sb m p i a ⟨(s.began p).ended p, c'⟩ :=
  h.ended h.began rfl h.distinct h.known hheld

theorem prog_ends (h : MapAt sb m p i a ⟨s, c⟩) (hlog : 11 ≤ sb.logMax) {o : DirOp}
    (ho : o.Fits m i ⟨s, c⟩)
    (hwait : ∀ name inum j, o = .link name inum → bound (ents a) (nameOf name) = some j →
      c.lock j = none) :
    Volume.Ends sb m p (fun _ _ => ¬ o.Safe sb m i ⟨s, c⟩) (o.prog sb i)
      (fun r v' => o.Safe sb m i ⟨s, c⟩ ∧
        ∃ a', MapAt sb m p i a' v' ∧ o.Refines sb i r a ⟨s, c⟩ a' v') ⟨s, c⟩ := by
  have hbytes : s.bytes i = a := h.dir.content.bytes
  have hfiles : SameFiles s ((s.began p).ended p) := ⟨rfl, rfl, fun _ => rfl⟩
  have hbound : ∀ {name j k}, find name (ents a) = some (j, k) → bound (ents a) name = some j :=
    fun hfind => by rw [bound, hfind]; rfl
  refine DirOp.prog_ends ?_
  cases o with
  | lookup name =>
    refine Task.wp_bind.2 (dirlookup_ends h.began (fun hfind => ?_) (fun j k hfind hroom => ?_)
      fun j k hfind hroom hsafe => hroom (hsafe j (hbytes.symm ▸ hbound hfind)))
    · have hnone := Fs.bound_eq_none.2 hfind
      refine ⟨fun j hj => ?_, a, h.unchanged rfl, .lookupAbsent hnone hfiles rfl⟩
      rw [hbytes, hnone] at hj
      cases hj
    · refine ⟨fun j' hj' => ?_, a, h.unchanged (Fs.Disk.got_lock ..),
        .lookup hfind hfiles rfl⟩
      rw [hbytes, hbound hfind] at hj'
      rwa [← Option.some.inj hj']
  | link name inum =>
    obtain ⟨hpos, hlt, hm, hsize⟩ := ho
    have hsize : a.length < MAXFILE * BSIZE := by
      rw [← h.dir.size]
      exact hsize
    refine Task.wp_bind.2 (Task.wp_bind.2 (dirlookup_ends h.began (fun hfind => ?_)
      (fun j k hfind hroom => ?_)
      fun j k hfind hroom hsafe => hroom (hsafe.1 j (hbytes.symm ▸ hbound hfind)).1))
    · have hnone := Fs.bound_eq_none.2 hfind
      have hno : ∀ j, bound (ents (s.bytes i)) (nameOf name) ≠ some j := by
        intro j hj
        rw [hbytes, hnone] at hj
        cases hj
      refine Task.wp_bind.2 (Volume.blocks_ends (h.began.addEntry_ends hlog (began_trans s) h.lh hlt
        hsize (fun hfew _ _ _ hsafe => ?_) fun s' a' hdir hup hspent hlack hents => ?_))
      · have henough := hsafe.2 (hbytes.symm ▸ hnone)
        rw [hbytes] at henough
        exact absurd hfew (Nat.not_lt.2 henough)
      · refine ⟨⟨fun j hj => absurd hj (hno j), fun _ => ?_⟩, a',
          h.ended hdir hup.trans ?_ ?_ rfl, .link hnone hents ?_ ?_
            (hup.toOthers h.dir.valid).ended rfl⟩
        · have hcount := hspent.count _ (subset_refl _)
          rw [hlack, Finset.card_empty] at hcount
          rw [hbytes]
          exact (Nat.le_add_left ..).trans hcount.le
        · rw [hents]
          exact h.distinct.link hfind
        · rw [hents]
          intro e he
          rcases Fs.mem_putEnt he with rfl | he
          · exact hm
          · exact h.known e he
        · rw [hents]
          exact h.distinct.bound_link hfind hpos.ne'
        · rw [hents, Fs.length_putEnt]
          exact if_congr Fs.emptyAt_lt_iff rfl rfl
    · have hlock : (c.got j).lock j = none := by
        rw [Fs.Disk.got_lock]
        exact hwait name inum j rfl (hbound hfind)
      have hput := Fs.Disk.got_put c j
      refine Task.wp_bind.2 (Volume.inodes_ends (Fs.iput_ends hlock ?_))
      rw [hput]
      refine ⟨⟨fun j' hj' => ?_, fun hnone => ?_⟩, a, h.unchanged ?_,
        .linkPresent (hbound hfind) hfiles rfl⟩
      · rw [hbytes, hbound hfind] at hj'
        cases hj'
        exact ⟨hroom, hwait name inum _ rfl (hbound hfind)⟩
      · rw [hbytes, hbound hfind] at hnone
        cases hnone
      · split <;> rfl
  | unlink name =>
    refine Task.wp_bind.2 (Task.wp_bind.2 (dirlookup_ends h.began (fun hfind => ?_)
      (fun j k hfind hroom => ?_)
      fun j k hfind hroom hsafe => hroom (hsafe j (hbytes.symm ▸ hbound hfind))))
    · have hnone := Fs.bound_eq_none.2 hfind
      refine ⟨fun j hj => ?_, a, h.unchanged rfl, .unlinkAbsent hnone hfiles rfl⟩
      rw [hbytes, hnone] at hj
      cases hj
    · obtain ⟨e, he, -⟩ := Fs.find_eq_some hfind
      have hk := (List.getElem?_eq_some_iff.1 he).1
      refine Task.wp_bind.2 (Volume.blocks_ends (h.began.clearEntry_ends hlog (began_trans s) h.lh
        (by rwa [length_ents] at hk) fun s' a' hdir hup hmarked hents => ?_))
      refine ⟨fun j' hj' => ?_, a', h.ended hdir hup.trans ?_ ?_ (Fs.Disk.got_lock ..),
        .unlink hfind hents ?_ ?_ (hup.toOthers h.dir.valid).ended hmarked rfl⟩
      · rw [hbytes, hbound hfind] at hj'
        rwa [← Option.some.inj hj']
      · rw [hents]
        exact h.distinct.unlink hk.le
      · rw [hents]
        intro e' he'
        rcases Fs.mem_putEnt he' with rfl | he'
        · exact Nat.zero_lt_of_lt (h.known e (List.mem_of_getElem? he))
        · exact h.known e' he'
      · rw [hents]
        exact h.distinct.bound_unlink hfind
      · rw [hents, Fs.length_putEnt, if_pos hk]

theorem not_exec_link (h : MapAt sb m p i a ⟨s, c⟩) {inum j : ℕ}
    (hj : bound (ents a) (nameOf name) = some j) (hlock : c.lock j ≠ none) (r : DirAnswer)
    (v' : Volume n) :
    ((DirOp.link name inum).prog sb i).exec (Volume.perform sb m p) ⟨s, c⟩ ≠
      some (.inl r, v') := by
  have hlook : Volume.Ends sb m p (fun _ _ => True)
      (dirlookup sb (.dirlink (nameOf name)) i name)
      (fun r v' => ∃ off, r = some (j, off) ∧ v' = ⟨s.began p, c.got j⟩) ⟨s.began p, c⟩ := by
    refine dirlookup_ends h.began (fun hfind => ?_) (fun j' k hfind _ => ?_) fun _ _ _ _ => trivial
    · rw [Fs.bound_eq_none.2 hfind] at hj
      cases hj
    · rw [bound, hfind] at hj
      cases hj
      exact ⟨_, rfl, rfl⟩
  have hput : (inodes (Fs.iput .other j)).exec (Volume.perform sb m p) ⟨s.began p, c.got j⟩ =
      none := by
    have hlock : (c.got j).lock j ≠ none := by rwa [Fs.Disk.got_lock]
    rw [Volume.exec_inodes, Fs.exec_iput_of_locked hlock]
    rfl
  have hlink : ∀ ok v', (dirlink sb i name inum).exec (Volume.perform sb m p) ⟨s.began p, c⟩ ≠
      some (.inl ok, v') := by
    intro ok v' hexec
    unfold dirlink at hexec
    rw [Task.exec_bind] at hexec
    rcases hlook.exec (fun _ => rfl) with ⟨r, v₁, hv₁, off, rfl, rfl⟩ | ⟨why, v₁, hv₁, -⟩
    · rw [hv₁] at hexec
      dsimp only [Option.bind_some, Sum.elim_inl] at hexec
      rw [Task.exec_bind, hput] at hexec
      cases hexec
    · rw [hv₁] at hexec
      cases hexec
  intro hexec
  unfold DirOp.prog at hexec
  have hbegin : (blocks (call (.beginOp false))).exec (Volume.perform sb m p) ⟨s, c⟩ =
      some (.inl (), ⟨s.began p, c⟩) := rfl
  rw [Task.exec_bind, hbegin] at hexec
  dsimp only [Option.bind_some, Sum.elim_inl] at hexec
  rw [Task.exec_bind, DirOp.body, Task.exec_bind] at hexec
  cases hdir : (dirlink sb i name inum).exec (Volume.perform sb m p) ⟨s.began p, c⟩ with
  | none =>
    rw [hdir] at hexec
    cases hexec
  | some x =>
    obtain ⟨ok | why, v₁⟩ := x
    · exact hlink ok v₁ hdir
    · rw [hdir] at hexec
      cases hexec

end MapAt

/-! ## Sequences of calls -/

def DirStep (sb : Super) (m : ℕ) (p : Pid) (i : Fin n) (v : Volume n) (x : DirOp × DirAnswer)
    (v' : Volume n) : Prop :=
  (x.1.prog sb i).exec (Volume.perform sb m p) v = some (.inl x.2, v')

namespace MapAt

theorem step (h : MapAt sb m p i a v) (hlog : 11 ≤ sb.logMax) {o : DirOp} {r : DirAnswer}
    (ho : o.Fits m i v) (hstep : DirStep sb m p i v (o, r) v') :
    o.Safe sb m i v ∧ ∃ a', MapAt sb m p i a' v' ∧ o.Refines sb i r a v a' v' := by
  have hwait : ∀ name inum j, o = .link name inum → bound (ents a) (nameOf name) = some j →
      v.cache.lock j = none := by
    rintro name inum j rfl hj
    by_contra hlock
    exact h.not_exec_link hj hlock r v' hstep
  rcases (h.prog_ends hlog ho hwait).exec (fun _ => rfl) with
    ⟨r', v'', hexec, hsafe, a', ha', hr⟩ | ⟨why, v'', hexec, -⟩
  · obtain ⟨hr', rfl⟩ := Prod.mk.inj (Option.some.inj (hstep.symm.trans hexec))
    obtain rfl := Sum.inl.inj hr'
    exact ⟨hsafe, a', ha', hr⟩
  · cases hstep.symm.trans hexec

theorem returns_iff (h : MapAt sb m p i a v) (hlog : 11 ≤ sb.logMax) {o : DirOp}
    (ho : o.Fits m i v) : (∃ r v', DirStep sb m p i v (o, r) v') ↔ o.Safe sb m i v := by
  refine ⟨fun ⟨r, v', hstep⟩ => (h.step hlog ho hstep).1, fun hsafe => ?_⟩
  have hwait : ∀ name inum j, o = .link name inum → bound (ents a) (nameOf name) = some j →
      v.cache.lock j = none := by
    rintro name inum j rfl hj
    exact (hsafe.1 j (h.dir.content.bytes.symm ▸ hj)).2
  rcases (h.prog_ends hlog ho hwait).exec (fun _ => rfl) with ⟨r, v', hexec, -⟩ | ⟨why, v', -, hnot⟩
  · exact ⟨r, v', hexec⟩
  · exact absurd hsafe hnot

end MapAt

def Refined (sb : Super) (m : ℕ) (p : Pid) (i : Fin n) (v₀ : Volume n) :
    List ((DirOp × DirAnswer) × Volume n) → Prop
  | [] => True
  | (x, v) :: π => ∃ a a', MapAt sb m p i a (Run.last v₀ π) ∧ MapAt sb m p i a' v ∧
    x.1.Refines sb i x.2 a (Run.last v₀ π) a' v

/-- Any sequence of calls, with names that are terminated by a zero or not, on a directory whose
names are distinct. They stay so, and every call returns what the map says, changes it just as it
should, and leaves the rest of the file system as it is. A next call returns just if it is safe. -/
theorem directory_refines_map {v₀ : Volume n} {a₀ : List Byte}
    {π : List ((DirOp × DirAnswer) × Volume n)} (hlog : 11 ≤ sb.logMax)
    (h₀ : MapAt sb m p i a₀ v₀) (hrun : Run.IsRun (DirStep sb m p i) v₀ π)
    (hfits : Run.Meets (fun v x => x.1.Fits m i v) v₀ π) :
    Run.Along (fun π => Refined sb m p i v₀ π ∧ (∃ a, MapAt sb m p i a (Run.last v₀ π)) ∧
      ∀ o : DirOp, o.Fits m i (Run.last v₀ π) →
        ((∃ r v', DirStep sb m p i (Run.last v₀ π) (o, r) v') ↔
          o.Safe sb m i (Run.last v₀ π))) π := by
  refine hrun.along_of_meets ⟨trivial, ⟨a₀, h₀⟩, fun o ho => h₀.returns_iff hlog ho⟩ ?_ hfits
  rintro ⟨o, r⟩ v' π ⟨-, ⟨a, ha⟩, -⟩ ho hstep
  obtain ⟨-, a', ha', hr⟩ := ha.step hlog ho hstep
  exact ⟨⟨a, a', ha, ha', hr⟩, ⟨a', ha'⟩, fun o ho => ha'.returns_iff hlog ho⟩

def dotVolume : Volume 2 where
  store := {
    bits := fun bb j => if bb = 0 ∧ j = 0 then 31#8 else 0#8
    blk := fun b j => if b = 4 ∧ j = 0 then 1#8 else if b = 4 ∧ j = 2 then 46#8 else 0#8
    disk := fun j => ⟨if j.val = 1 then .dir else .free, 1, 16, fun k => if k = 0 then 4 else 0⟩
    mem := fun j => ⟨if j.val = 1 then .dir else .free, 1, 16, fun k => if k = 0 then 4 else 0⟩
    valid := fun _ => true
    lock := fun _ => none
    trans := fun _ => false
    pass := fun _ => false
    logged := fun _ => ∅
    lh := ∅
    off := fun _ => 0 }
  cache := { Fs.boot with lock := fun j => if j = 1 then some Fs.init else none }

/-- Its bytes. -/
def dotBytes : List Byte := direntBytes 1 fun k => if k = 0 then 46#8 else 0#8

theorem dotVolume_ref {j : Fin 2} {pl : Place} {b : ℕ}
    (h : (dotVolume.store.cur j).Ref dotVolume.store.blk pl b) : j = 1 ∧ pl = .addr 0 ∧ b = 4 := by
  have hj : j.val = 1 := by
    by_contra hne
    cases pl with
    | addr k => exact h.1 (if_neg hne)
    | entry k => exact h.1 (if_neg hne)
  refine ⟨Fin.ext hj, ?_⟩
  cases pl with
  | addr k =>
    obtain ⟨-, -, hk, hb⟩ := h
    by_cases h0 : k = 0
    · subst h0
      exact ⟨rfl, hk.symm⟩
    · exact absurd (hk.symm.trans (if_neg h0)) hb
  | entry k => exact absurd rfl h.2.2.1

theorem mapAt_dotVolume : MapAt eightBlocks 8 Fs.init 1 dotBytes dotVolume where
  dir := {
    sane := by
      refine ⟨by decide, fun {j pl b} href => ?_, fun {j j' pl pl' b} href href' => ?_⟩
      · rw [(dotVolume_ref href).2.2]
        exact ⟨by decide, by decide, by decide⟩
      · obtain ⟨rfl, rfl, -⟩ := dotVolume_ref href
        obtain ⟨rfl, rfl, -⟩ := dotVolume_ref href'
        exact ⟨rfl, rfl⟩
    valid := rfl
    type := rfl
    content := by
      refine ⟨rfl, fun k hk => ⟨4, ?_, ?_⟩⟩
      · rw [Nat.div_eq_of_lt (show k < BSIZE from hk.trans (by decide))]
        exact ⟨by decide, Nat.zero_le _, rfl, by decide⟩
      · have hall : ∀ k < 16, dotBytes[k]? = some (dotVolume.store.blk 4 (k % BSIZE)) := by
          decide
        exact (List.getElem?_eq_some_iff.1 (hall k hk)).2.symm
    aligned := rfl
    small := by decide }
  distinct := by
    intro j k e e' hj hk _ _ _
    have hlen : (ents dotBytes).length = 1 := rfl
    have := (List.getElem?_eq_some_iff.1 hj).1
    have := (List.getElem?_eq_some_iff.1 hk).1
    omega
  known := by decide
  held := rfl
  idle _ := rfl
  lh := rfl

def nameA (k : ℕ) : Byte := if k = 0 then 97#8 else if k = 2 then 120#8 else 0#8

/-- The name `a` is linked to inode 5 in it, and then it is there. -/
theorem directory_refines_map_dotVolume :
    ∃ v' a', DirStep eightBlocks 8 Fs.init 1 dotVolume (.link nameA 5, .done true) v' ∧
      MapAt eightBlocks 8 Fs.init 1 a' v' ∧
      bound (ents a') = update (bound (ents dotBytes)) ['a'] (some 5) := by
  have heval : ((DirOp.prog eightBlocks 1 (.link nameA 5)).exec
      (Volume.perform eightBlocks 8 Fs.init) dotVolume).map
        (fun x => decide (x.1 = .inl (.done true))) = some true := by decide +kernel
  obtain ⟨⟨r, v'⟩, hexec, htrue⟩ := Option.map_eq_some_iff.1 heval
  obtain rfl := of_decide_eq_true htrue
  have hstep : DirStep eightBlocks 8 Fs.init 1 dotVolume (.link nameA 5, .done true) v' := hexec
  have hfits : DirOp.Fits 8 1 dotVolume (.link nameA 5) := by
    refine ⟨by decide, by decide, by decide, by decide⟩
  obtain ⟨a, a', ha, ha', hr⟩ := (directory_refines_map (π := [((.link nameA 5, .done true), v')])
    (by decide) mapAt_dotVolume ⟨hstep, trivial⟩ ⟨hfits, trivial⟩).1.1
  obtain rfl : dotBytes = a :=
    mapAt_dotVolume.dir.content.bytes.symm.trans ha.dir.content.bytes
  refine ⟨v', a', hstep, ha', ?_⟩
  cases hr with
  | link h hents hbound hlen =>
    rw [hbound]
    rfl

/-- The name `"."`. -/
def nameDot (k : ℕ) : Byte := if k = 0 then 46#8 else 0#8

/-- `dirlink` of the name `"."` does not return -1: it waits for the lock of the directory, which the
process itself has. -/
theorem dirlink_waits :
    MapAt eightBlocks 8 Fs.init 1 dotBytes dotVolume ∧
      DirOp.Fits 8 1 dotVolume (.link nameDot 5) ∧
      bound (ents dotBytes) (nameOf nameDot) = some 1 ∧
      (DirOp.prog eightBlocks 1 (.link nameDot 5)).exec (Volume.perform eightBlocks 8 Fs.init)
        dotVolume = none := by
  refine ⟨mapAt_dotVolume, ⟨by decide, by decide, by decide, by decide⟩, by decide, ?_⟩
  rw [← Option.isNone_iff_eq_none]
  decide +kernel

/-! ## The functions on entries -/

def DirOp.spec (i : ℕ) : DirOp → Fs.Sys DirAnswer
  | .lookup name => do
    let r ← Fs.dirlookup .other i (nameOf name)
    return .found (r.map fun x => (x.1, direntSize * x.2))
  | .link name inum => do
    let ok ← Fs.dirlink i (nameOf name) inum
    return .done ok
  | .unlink name => do
    match ← Fs.dirlookup .other i (nameOf name) with
    | none => return .done false
    | some x =>
      let ok ← Fs.call (.writei i x.2 0 [])
      Fs.panicUnless (ok = true) "unlink: writei"
      return .done true

def Volume.disk (v : Volume n) (i : Fin n) : Fs.Disk :=
  v.cache.setInode i ⟨(v.store.cur i).type, (v.store.cur i).nlink, ents (v.store.bytes i)⟩

theorem MapAt.disk_eq (h : MapAt sb m p i a v) :
    v.disk i = v.cache.setInode i ⟨.dir, (v.store.cur i).nlink, ents a⟩ := by
  have htype : (v.store.cur i).type = .dir := by rw [cur_of_valid h.dir.valid, h.dir.type]
  rw [← htype, ← h.dir.content.bytes]
  rfl

theorem DirOp.Refines.spec_ends {o : DirOp} {r : DirAnswer} (h : MapAt sb m p i a v)
    (h' : MapAt sb m p i a' v') (ho : o.Fits m i v) (hsafe : o.Safe sb m i v)
    (hr : o.Refines sb i r a v a' v') :
    Fs.Ends m p (fun _ _ => False) (o.spec i)
      (fun r' d => r' = r ∧ { d with entGen := v.cache.entGen } = v'.disk i) (v.disk i) := by
  obtain ⟨s, c⟩ := v
  rw [h.disk_eq, h'.disk_eq]
  have hbytes : s.bytes i = a := h.dir.content.bytes
  have hsmall : a.length ≤ 71680 := h.dir.small
  have hlen := length_ents a
  have hmax : Fs.MAXDIRENT = 4480 := rfl
  generalize hx : Fs.Inode.mk .dir (s.cur i).nlink (ents a) = x
  have hents : ((c.setInode i x).inode i).ents = ents a := by rw [Fs.Disk.setInode_self, ← hx]
  have hdir : ((c.setInode i x).inode i).type = .dir := by rw [Fs.Disk.setInode_self, ← hx]
  -- An entry is written: the inode of the directory is replaced twice.
  have hwrite : ∀ (d : Fs.Disk) {k inum : ℕ} (nm : Fs.Name), inum < 65536 → k ≤ (ents a).length →
      k < 4480 → ∃ g, (Fs.Op.writei i k inum nm).perform m p (d.setInode i x) =
        some (true, { d.setInode i ⟨.dir, (s.cur i).nlink, putEnt (ents a) k ⟨inum, nm⟩⟩ with
          entGen := g }) := by
    intro d k inum nm hinum hk hk'
    have hfits : k ≤ ((d.setInode i x).inode i).ents.length ∧ k < Fs.MAXDIRENT := by
      rw [Fs.Disk.setInode_self, ← hx]
      exact ⟨hk, hk'⟩
    refine ⟨((d.setInode i x).writeEnt i k inum nm).entGen, (if_pos hfits).trans ?_⟩
    unfold Fs.Disk.writeEnt Fs.Disk.setInode
    dsimp only
    rw [update_self, update_idem, ← hx, Nat.mod_eq_of_lt hinum]
  have hlook : ∀ {site name} {Q : Option (ℕ × ℕ) → Fs.Disk → Prop},
      (find (nameOf name) (ents a) = none → Q none (c.setInode i x)) →
      (∀ j k, find (nameOf name) (ents a) = some (j, k) → c.Room m j ∧
        Q (some (j, k)) ((c.got j).setInode i x)) →
      Fs.Ends m p (fun _ _ => False) (Fs.dirlookup site i (nameOf name)) Q (c.setInode i x) := by
    intro site name Q hnone hsome
    refine Fs.dirlookup_ends hdir (fun hfind => hnone (hents ▸ hfind)) (fun j k hfind _ => ?_)
      fun j k hfind hroom => hroom (hsome j k (hents ▸ hfind)).1
    rw [Fs.Disk.got_setInode]
    exact (hsome j k (hents ▸ hfind)).2
  have hfound : ∀ {name j}, bound (ents a) (nameOf name) = some j →
      ∃ k, find (nameOf name) (ents a) = some (j, k) := by
    intro name j hj
    obtain ⟨y, hy, rfl⟩ := Option.map_eq_some_iff.1 hj
    exact ⟨y.2, hy⟩
  cases hr with
  | @lookupAbsent name _ _ _ hnone hfiles hcache =>
    rw [hfiles.cur, hcache, hx]
    refine Task.wp_bind.2 (hlook (fun _ => ⟨rfl, rfl⟩) fun j k hfind => ?_)
    rw [Fs.bound_eq_none.1 hnone] at hfind
    cases hfind
  | @lookup name j k _ _ _ hfind hfiles hcache =>
    rw [hfiles.cur, hcache, hx]
    refine Task.wp_bind.2 (hlook (fun hnone => ?_) fun j' k' hfind' => ?_)
    · rw [hfind] at hnone
      cases hnone
    · cases hfind.symm.trans hfind'
      refine ⟨hsafe j ?_, rfl, ?_⟩
      · rw [hbytes, bound, hfind]
        rfl
      · rw [← Fs.Disk.got_entGen c j]
        rfl
  | @linkPresent name inum j _ _ _ hbound hfiles hcache =>
    obtain ⟨k, hfind⟩ := hfound hbound
    obtain ⟨hroom, hlock⟩ := hsafe.1 j (hbytes.symm ▸ hbound)
    rw [hfiles.cur, hcache, hx]
    refine Task.wp_bind.2 (Task.wp_bind.2 (hlook (fun hnone => ?_) fun j' k' hfind' => ?_))
    · rw [hfind] at hnone
      cases hnone
    · cases hfind.symm.trans hfind'
      refine ⟨hroom, Task.wp_bind.2 (Fs.iput_ends ?_ ⟨rfl, ?_⟩)⟩
      · exact (congrFun (Fs.Disk.got_lock ..) j).trans hlock
      · rw [← Fs.Disk.got_setInode, Fs.Disk.got_put]
        by_cases hpos : 0 < c.ref j
        · rw [if_pos hpos, if_pos (show 0 < (c.setInode i x).ref j from hpos)]
          rfl
        · rw [if_neg hpos, if_neg (show ¬ 0 < (c.setInode i x).ref j from hpos)]
          rfl
  | @link name inum _ _ _ _ hnone hput hbound hlen hothers hcache =>
    obtain ⟨-, hinum, -, hsize⟩ := ho
    have hshort : a.length < 71680 := h.dir.size ▸ hsize
    have hle := Fs.emptyAt_le (ents a)
    rw [hothers.nlink, hcache, hput]
    refine Task.wp_bind.2 (Task.wp_bind.2 (hlook (fun _ => ?_) fun j k hfind => ?_))
    · refine Task.wp_bind.2 (Fs.call_ends rfl ?_)
      rw [hents]
      obtain ⟨g, hg⟩ := hwrite c (nameOf name) hinum hle (by unfold direntSize at *; omega)
      exact Task.wp_bind.2 (Fs.call_ends hg ⟨rfl, rfl⟩)
    · rw [Fs.bound_eq_none.1 hnone] at hfind
      cases hfind
  | @unlinkAbsent name _ _ _ hnone hfiles hcache =>
    rw [hfiles.cur, hcache, hx]
    refine Task.wp_bind.2 (hlook (fun _ => ⟨rfl, rfl⟩) fun j k hfind => ?_)
    rw [Fs.bound_eq_none.1 hnone] at hfind
    cases hfind
  | @unlink name j k _ _ _ _ hfind hput hbound hlen hothers hmarked hcache =>
    rw [hothers.nlink, hcache, hput]
    refine Task.wp_bind.2 (hlook (fun hnone => ?_) fun j' k' hfind' => ?_)
    · rw [hfind] at hnone
      cases hnone
    · cases hfind.symm.trans hfind'
      obtain ⟨e, he, -⟩ := Fs.find_eq_some hfind
      have hk := (List.getElem?_eq_some_iff.1 he).1
      obtain ⟨g, hg⟩ := hwrite (c.got j) [] (show 0 < 65536 by decide) hk.le
        (by unfold direntSize at *; omega)
      refine ⟨hsafe j ?_, Task.wp_bind.2 (Fs.call_ends hg ⟨rfl, ?_⟩)⟩
      · rw [hbytes, bound, hfind]
        rfl
      · rw [← Fs.Disk.got_entGen c j]
        rfl

theorem MapAt.step_spec (h : MapAt sb m p i a v) (hlog : 11 ≤ sb.logMax) {o : DirOp} {r : DirAnswer}
    (ho : o.Fits m i v) (hstep : DirStep sb m p i v (o, r) v') :
    ∃ d, (o.spec i).exec (Fs.Op.perform m p) (v.disk i) = some (.inl r, d) ∧
      { d with entGen := v.cache.entGen } = v'.disk i := by
  obtain ⟨hsafe, a', h', hr⟩ := h.step hlog ho hstep
  rcases (hr.spec_ends h h' ho hsafe).exec (fun _ => rfl) with
    ⟨r', d, hexec, rfl, hd⟩ | ⟨why, d, -, hfalse⟩
  · exact ⟨d, hexec, hd⟩
  · exact hfalse.elim

end Xv6.Alloc
