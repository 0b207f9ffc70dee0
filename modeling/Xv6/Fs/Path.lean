import Xv6.Alloc.Dir
import Xv6.Fs.Alone
import Xv6.Fs.Held

/-!
# Paths

`skipelem` as the pointer loops of the source, on the characters of a path and a buffer for the name,
and what repeated calls of it give: the elements between slashes. `namei` follows them from directory
to directory, and `nameiparent` stops one before the last.

The directories on the way are locked one after the other, and `ilock` panics on an inode that has
been freed. A directory that has been removed, and that is still the current directory of a process,
keeps its `".."`, so that there may be such an inode on the way.
-/

namespace Xv6.Fs

open Function
open Alloc (nameOf charOf charOf_injective)

/-! ## The elements of a path -/

def elementsOf (path : List Char) : List Name :=
  ((path.splitOn '/').filter (· ≠ [])).map (List.take DIRSIZ)

theorem elementsOf_slash (path : List Char) : elementsOf ('/' :: path) = elementsOf path := by
  unfold elementsOf List.splitOn
  rw [List.splitOnP_cons_eq_if_modifyHead, if_pos (beq_self_eq_true '/'),
    List.filter_cons_of_neg (by simp)]

theorem elementsOf_slashes (path : List Char) :
    elementsOf (path.dropWhile (· == '/')) = elementsOf path := by
  induction path with
  | nil => rfl
  | cons c path ih =>
    rw [List.dropWhile_cons]
    split
    · rename_i hc
      obtain rfl := eq_of_beq hc
      rw [ih, elementsOf_slash]
    · rfl

theorem elementsOf_cons {c : Char} {path : List Char} (hc : c ≠ '/') :
    elementsOf (c :: path) = ((c :: path).takeWhile (· != '/')).take DIRSIZ ::
      elementsOf ((c :: path).dropWhile (· != '/')) := by
  have hsplit := List.takeWhile_append_dropWhile (p := (· != '/')) (l := c :: path)
  have hhead : (c :: path).takeWhile (· != '/') ≠ [] := by
    rw [List.takeWhile_cons_of_pos (by simpa using hc)]
    nofun
  have hall : ∀ x ∈ (c :: path).takeWhile (· != '/'), (x == '/') = false := by
    intro x hx
    simpa using List.all_eq_true.1 List.all_takeWhile x hx
  generalize (c :: path).takeWhile (· != '/') = e at *
  cases hrest : (c :: path).dropWhile (· != '/') with
  | nil =>
    rw [hrest, List.append_nil] at hsplit
    rw [← hsplit]
    unfold elementsOf List.splitOn
    rw [List.splitOnP_eq_singleton hall, List.filter_cons_of_pos (by simpa using hhead)]
    rfl
  | cons d rest =>
    have hd : d = '/' := by
      have := List.head_dropWhile_not (· != '/') (w := by rw [hrest]; exact List.cons_ne_nil d rest)
      simpa [hrest] using this
    subst hd
    rw [elementsOf_slash, ← hsplit, hrest]
    unfold elementsOf List.splitOn
    rw [List.splitOnP_append_cons_of_forall_mem hall '/' (beq_self_eq_true _),
      List.filter_cons_of_pos (by simpa using hhead), List.map_cons]

theorem names_eq_elementsOf (path : List Char) : names path = elementsOf path := by
  -- Every call takes at least one character.
  induction hn : path.length using Nat.strong_induction_on generalizing path with
  | _ n ih =>
    subst hn
    rw [names_eq]
    cases hs : skipelem path with
    | none =>
      rw [← elementsOf_slashes path]
      unfold skipelem at hs
      split at hs
      · rename_i hnil
        rw [hnil]
        rfl
      · cases hs
    | some x =>
      obtain ⟨name, rest⟩ := x
      have hlt := length_of_skipelem hs
      dsimp only
      rw [ih _ hlt rest rfl, ← elementsOf_slashes path]
      unfold skipelem at hs
      split at hs
      · cases hs
      · rename_i c s hcons
        cases hs
        have hc : c ≠ '/' := by
          have := List.head_dropWhile_not (· == '/') (w := by rw [hcons]; exact List.cons_ne_nil c s)
          simpa [hcons] using this
        rw [hcons, elementsOf_cons hc, elementsOf_slashes]

/-! ## The loops of `skipelem` -/

namespace Pointer

def skipSlashes : List Byte → List Byte
  | [] => []
  | c :: path => if c = 47#8 then skipSlashes path else c :: path

def skipName : List Byte → List Byte
  | [] => []
  | c :: path => if c ≠ 47#8 ∧ c ≠ 0#8 then skipName path else c :: path

/-- `memmove(name, s, len)` -/
def memmove (name : ℕ → Byte) (s : List Byte) (len : ℕ) (k : ℕ) : Byte :=
  if k < len then s.getD k 0#8 else name k

def skipelem (path : List Byte) (name : ℕ → Byte) : Option (List Byte × (ℕ → Byte)) :=
  let s := skipSlashes path
  if s = [] then none
  else
    let path := skipName s
    let len := s.length - path.length
    let name :=
      if DIRSIZ ≤ len then memmove name s DIRSIZ
      else update (memmove name s len) len 0#8
    some (skipSlashes path, name)

def elements : ℕ → List Byte → (ℕ → Byte) → Option (List Name)
  | 0, _, _ => none
  | n + 1, path, name =>
    match skipelem path name with
    | none => some []
    | some (rest, name) => (elements n rest name).map (nameOf name :: ·)

theorem skipSlashes_eq (path : List Byte) : skipSlashes path = path.dropWhile (· == 47#8) := by
  induction path with
  | nil => rfl
  | cons c path ih =>
    rw [skipSlashes, List.dropWhile_cons, ih]
    simp only [beq_iff_eq]

theorem skipName_eq {path : List Byte} (h0 : 0#8 ∉ path) :
    skipName path = path.dropWhile (· != 47#8) := by
  induction path with
  | nil => rfl
  | cons c path ih =>
    have hc : c ≠ 0#8 := fun hc => h0 (hc ▸ List.mem_cons_self)
    rw [skipName, List.dropWhile_cons, ih fun h => h0 (List.mem_cons_of_mem c h)]
    simp only [hc, ne_eq, not_false_eq_true, and_true, bne_iff_ne]

theorem skipName_subset (path : List Byte) : skipName path ⊆ path := by
  induction path with
  | nil => exact List.Subset.refl []
  | cons c path ih =>
    rw [skipName]
    split
    · exact List.subset_cons_of_subset c ih
    · exact List.Subset.refl _

theorem skipelem_subset {path rest : List Byte} {name name' : ℕ → Byte}
    (h : skipelem path name = some (rest, name')) : rest ⊆ path := by
  have hslashes : ∀ l, skipSlashes l ⊆ l := fun l =>
    skipSlashes_eq l ▸ (List.dropWhile_sublist _).subset
  unfold skipelem at h
  dsimp only at h
  split at h
  · cases h
  · cases h
    exact List.Subset.trans (hslashes _) (List.Subset.trans (skipName_subset _) (hslashes path))

theorem nameOf_buffer (name : ℕ → Byte) {e : List Byte} (rest : List Byte) (h0 : 0#8 ∉ e) :
    nameOf (if DIRSIZ ≤ e.length then memmove name (e ++ rest) DIRSIZ
      else update (memmove name (e ++ rest) e.length) e.length 0#8) =
      (e.take DIRSIZ).map charOf := by
  unfold nameOf
  congr 1
  have hget : ∀ k, (hk : k < (e.take DIRSIZ).length) → (e ++ rest).getD k 0#8 = (e.take DIRSIZ)[k] := by
    intro k hk
    rw [List.length_take] at hk
    rw [List.getD_eq_getElem?_getD, List.getElem?_append_left (by omega), List.getElem_take,
      List.getElem?_eq_getElem (by omega), Option.getD_some]
  refine cstr_eq_of_getElem? (fun h => h0 (List.mem_of_mem_take h)) (List.length_take_le ..)
    (fun k hk => ?_) fun hlt => ?_
  · have hk' := hk
    rw [List.length_take] at hk'
    rw [Nat.zero_add, ← hget k hk]
    split
    · exact if_pos (by omega)
    · rw [update_of_ne (by omega)]
      exact if_pos (by omega)
  · rw [List.length_take] at hlt ⊢
    have hshort : ¬ DIRSIZ ≤ e.length := by omega
    rw [if_neg hshort, Nat.min_eq_right (by omega), Nat.zero_add, update_self]
    rfl

theorem skipelem_eq {path : List Byte} (h0 : 0#8 ∉ path) (name : ℕ → Byte) :
    (skipelem path name).map (fun x => (nameOf x.2, x.1.map charOf)) =
      Fs.skipelem (path.map charOf) := by
  have hslash : ((· == '/') ∘ charOf) = (· == 47#8) := by
    funext c
    rw [comp_apply, show '/' = charOf 47#8 from rfl, Bool.eq_iff_iff, beq_iff_eq,
      beq_iff_eq, charOf_injective.eq_iff]
  have hne : ((· != '/') ∘ charOf) = (· != 47#8) := by
    funext c
    exact congrArg not (congrFun hslash c)
  unfold skipelem Fs.skipelem
  rw [skipSlashes_eq, List.dropWhile_map, hslash]
  have hsub : 0#8 ∉ path.dropWhile (· == 47#8) := fun h =>
    h0 ((List.dropWhile_sublist _).subset h)
  generalize path.dropWhile (· == 47#8) = s at *
  cases s with
  | nil => rfl
  | cons c s =>
    dsimp only
    rw [if_neg (List.cons_ne_nil c s), Option.map_some, List.map_cons]
    dsimp only
    rw [← List.map_cons, List.takeWhile_map, List.dropWhile_map, List.dropWhile_map, hne, hslash, skipSlashes_eq,
      skipName_eq hsub, ← List.map_take]
    have hsplit := List.takeWhile_append_dropWhile (p := (· != 47#8)) (l := c :: s)
    have hlen : (c :: s).length - ((c :: s).dropWhile (· != 47#8)).length =
        ((c :: s).takeWhile (· != 47#8)).length := by
      have := congrArg List.length hsplit
      rw [List.length_append] at this
      omega
    rw [hlen]
    have hbuf := nameOf_buffer name ((c :: s).dropWhile (· != 47#8))
      (e := (c :: s).takeWhile (· != 47#8)) fun h => hsub ((List.takeWhile_sublist _).subset h)
    rw [hsplit] at hbuf
    rw [hbuf]

theorem elements_eq (n : ℕ) : ∀ {path : List Byte} (name : ℕ → Byte), 0#8 ∉ path →
    path.length < n → elements n path name = some (names (path.map charOf)) := by
  induction n with
  | zero =>
    intro path name _ hlen
    exact absurd hlen (Nat.not_lt_zero _)
  | succ n ih =>
    intro path name h0 hlen
    have hskip := skipelem_eq h0 name
    unfold elements
    rw [names_eq, ← hskip]
    cases hs : skipelem path name with
    | none => rfl
    | some x =>
      obtain ⟨rest, name'⟩ := x
      rw [hs] at hskip
      have hlt : (rest.map charOf).length < (path.map charOf).length :=
        length_of_skipelem hskip.symm
      rw [List.length_map, List.length_map] at hlt
      have hsub : 0#8 ∉ rest := fun h => h0 (skipelem_subset hs h)
      dsimp only [Option.map_some]
      rw [ih name' hsub (by omega)]
      rfl

end Pointer

/-! ## Following a path -/

namespace Disk

variable (s : Disk)

def step (i : ℕ) (name : Name) : Option ℕ :=
  if (s.inode i).type = .dir then bound (s.inode i).ents name else none

def walk : ℕ → List Name → Option ℕ
  | i, [] => some i
  | i, name :: rest => (s.step i name).bind fun j => walk j rest

def parent : ℕ → List Name → Option (ℕ × Name)
  | _, [] => none
  | i, [name] => if (s.inode i).type = .dir then some (i, name) else none
  | i, name :: rest => (s.step i name).bind fun j => parent j rest

/-- Where a path starts. -/
def start (p : Pid) (path : List Char) : ℕ := if path.head? = some '/' then ROOTINO else s.cwd p

def Goes (n : ℕ) (parent : Bool) : List ℕ → ℕ → List Name → Prop
  | _, _, [] => True
  | gone, i, name :: rest =>
    (s.inode i).type ≠ .free ∧ i ∉ gone ∧
      ((parent && rest.isEmpty) = false → ∀ next, s.step i name = some next →
        (s.setRef i (s.ref i + 1)).Room n next ∧
        Goes n parent (if next ≠ i ∧ (s.inode i).nlink = 0 ∧ s.ref i = 0 then i :: gone else gone)
          next rest)

def PathGoes (n : ℕ) (parent : Bool) (p : Pid) (path : List Char) : Prop :=
  (path.head? = some '/' → s.Room n ROOTINO) ∧ s.Goes n parent [] (s.start p path) (elementsOf path)

variable {s}

theorem parent_eq_some {i d : ℕ} {els : List Name} (hne : els ≠ []) {name : Name} :
    s.parent i els = some (d, name) ↔
      s.walk i els.dropLast = some d ∧ (s.inode d).type = .dir ∧ name = els.getLast hne := by
  induction els generalizing i with
  | nil => exact absurd rfl hne
  | cons e els ih =>
    cases els with
    | nil =>
      rw [parent, List.dropLast_singleton, walk, List.getLast_singleton]
      split
      · rename_i hdir
        rw [Option.some.injEq, Prod.mk.injEq, Option.some.injEq]
        constructor
        · rintro ⟨rfl, rfl⟩
          exact ⟨rfl, hdir, rfl⟩
        · rintro ⟨rfl, -, rfl⟩
          exact ⟨rfl, rfl⟩
      · rename_i hdir
        refine iff_of_false nofun ?_
        rintro ⟨hd, hdir', -⟩
        cases hd
        exact hdir hdir'
    | cons e' els =>
      rw [parent, List.dropLast_cons_cons, walk, List.getLast_cons (List.cons_ne_nil e' els)]
      · cases s.step i e with
        | none => exact iff_of_false nofun fun h => nomatch h.1
        | some j => exact ih (List.cons_ne_nil e' els)
      · nofun

theorem step_parent {i d : ℕ} {els : List Name} {name : Name}
    (h : s.parent i els = some (d, name)) : s.step d name = s.walk i els := by
  induction els generalizing i with
  | nil => cases h
  | cons e els ih =>
    cases els with
    | nil =>
      rw [parent] at h
      split at h
      · cases h
        exact (Option.bind_fun_some _).symm
      · cases h
    | cons e' els =>
      rw [parent] at h
      · obtain ⟨j, hj, hrest⟩ := Option.bind_eq_some_iff.1 h
        rw [walk, hj]
        exact ih hrest
      · nofun

end Disk

/-! ## `namex` -/

namespace Disk

/-- What `namex` returns. -/
def found (s : Disk) (nameiparent : Bool) (i : ℕ) (els : List Name) : Option (ℕ × Name) :=
  if nameiparent then s.parent i els else (s.walk i els).map fun j => (j, [])

variable {n : ℕ} {stop : Bool} {s₀ s s' : Disk} {i j next : ℕ} {gone : List ℕ} {p : Pid}
  {e : Name} {els : List Name}

theorem found_cons (h : (stop && els.isEmpty) = false) :
    s.found stop i (e :: els) = (s.step i e).bind fun j => s.found stop j els := by
  unfold found
  cases stop with
  | true =>
    cases els with
    | nil => cases h
    | cons e' els =>
      rw [if_pos rfl, Disk.parent]
      · rfl
      · nofun
  | false =>
    rw [if_neg (by nofun), walk]
    cases s.step i e with
    | none => rfl
    | some j => rfl

theorem found_of_not_dir (h : (s.inode i).type ≠ .dir) : s.found stop i (e :: els) = none := by
  cases hlast : stop && els.isEmpty with
  | true =>
    obtain ⟨rfl, hnil⟩ := Bool.and_eq_true_iff.1 hlast
    obtain rfl := List.isEmpty_iff.1 hnil
    exact if_neg h
  | false =>
    rw [found_cons hlast, step, if_neg h]
    rfl

theorem Goes.parent (h : s.Goes n false gone i els) : s.Goes n true gone i els := by
  induction els generalizing i gone with
  | nil => trivial
  | cons e els ih =>
    obtain ⟨htype, hgone, hnext⟩ := h
    refine ⟨htype, hgone, fun _ next hstep => ?_⟩
    obtain ⟨hroom, hrest⟩ := hnext rfl next hstep
    exact ⟨hroom, ih hrest⟩

theorem room_congr (h : s'.ref = s.ref) : s'.Room n i ↔ s.Room n i := by
  unfold Room cached
  rw [h]

def Kept (s₀ s : Disk) : Prop :=
  ∀ j, s.inode j = s₀.inode j ∨ (s₀.inode j).nlink = 0 ∧ s₀.ref j = 0

/-- The process has come to inode `i`, which it has a reference to, and on its way the inodes `gone`
were freed. -/
structure Came (s₀ : Disk) (gone : List ℕ) (i : ℕ) (s : Disk) : Prop where
  inode : ∀ j, j ∉ gone → s.inode j = s₀.inode j
  gone : ∀ j ∈ gone, (s.inode j).type = .free ∧ (s₀.inode j).nlink = 0 ∧ s₀.ref j = 0
  valid : ∀ j, s.valid j = true → (s.inode j).type ≠ .free
  ref : s.ref = update s₀.ref i (s₀.ref i + 1)
  lock : ∀ j, s.lock j = none

namespace Came

theorem kept (h : Came s₀ gone i s) : Kept s₀ s := by
  intro j
  by_cases hj : j ∈ gone
  · exact .inr (h.gone j hj).2
  · exact .inl (h.inode j hj)

theorem loads_iff (h : Came s₀ gone i s) :
    (s.valid i = true ∨ (s.inode i).type ≠ .free) ↔ (s₀.inode i).type ≠ .free ∧ i ∉ gone := by
  have hload : (s.valid i = true ∨ (s.inode i).type ≠ .free) ↔ (s.inode i).type ≠ .free :=
    or_iff_right_of_imp (h.valid i)
  rw [hload]
  by_cases hi : i ∈ gone
  · exact iff_of_false (not_not.2 (h.gone i hi).1) fun hnot => hnot.2 hi
  · rw [h.inode i hi]
    exact (and_iff_left hi).symm

theorem kept_put (h : Came s₀ gone i s) (hi : i ∉ gone) {s₁ : Disk} (hinode : s₁.inode = s.inode)
    (href : s₁.ref = s.ref) : Kept s₀ (s₁.put i) := by
  intro j
  by_cases hfree : j = i ∧ s₁.Unused i
  · obtain ⟨rfl, -, hlink, hone⟩ := hfree
    rw [hinode, h.inode j hi] at hlink
    rw [href, h.ref, update_self] at hone
    exact .inr ⟨hlink, by omega⟩
  · rw [put_inode hfree, hinode]
    exact h.kept j

theorem drop (h : Came s₀ gone i s) (hi : i ∉ gone) {s₁ : Disk} (hinode : s₁.inode = s.inode)
    (hlock : ∀ j, s₁.lock j = none) (href : s₁.ref = update s.ref next (s.ref next + 1))
    (hheld : s₁.valid i = true) (hvalid : ∀ j, s₁.valid j = true → (s.inode j).type ≠ .free) :
    Came s₀ (if next ≠ i ∧ (s₀.inode i).nlink = 0 ∧ s₀.ref i = 0 then i :: gone else gone) next
      (s₁.put i) := by
  have hunused : s₁.Unused i ↔ next ≠ i ∧ (s₀.inode i).nlink = 0 ∧ s₀.ref i = 0 := by
    unfold Unused
    rw [hheld, hinode, h.inode i hi, href, h.ref]
    by_cases hn : next = i
    · subst hn
      simp
    · rw [update_of_ne (Ne.symm hn), update_self]
      simp [hn]
  have hput : (s₁.put i).ref = update s₀.ref next (s₀.ref next + 1) := by
    rw [put_ref, href, h.ref]
    funext j
    simp only [update_apply]
    grind
  have hother : ∀ j, ¬ (j = i ∧ s₁.Unused i) →
      (s₁.put i).inode j = s.inode j ∧ (s₁.put i).valid j = s₁.valid j :=
    fun j hj => ⟨(put_inode hj).trans (congrFun hinode j), put_valid hj⟩
  refine ⟨fun j hj => ?_, fun j hj => ?_, fun j hj => ?_, hput,
    fun j => (congrFun put_lock j).trans (hlock j)⟩
  · have hne : ¬ (j = i ∧ s₁.Unused i) := by
      rintro ⟨rfl, hfree⟩
      rw [if_pos (hunused.1 hfree)] at hj
      exact hj List.mem_cons_self
    rw [(hother j hne).1]
    refine h.inode j fun hgone => hj ?_
    split
    · exact List.mem_cons_of_mem i hgone
    · exact hgone
  · by_cases hfree : j = i ∧ s₁.Unused i
    · obtain ⟨rfl, hfree⟩ := hfree
      exact ⟨hfree.type_put, (hunused.1 hfree).2⟩
    · rw [(hother j hfree).1]
      refine h.gone j ?_
      split at hj
      · rename_i hcond
        exact List.mem_of_ne_of_mem (fun heq => hfree ⟨heq, hunused.2 hcond⟩) hj
      · exact hj
  · by_cases hfree : j = i ∧ s₁.Unused i
    · obtain ⟨rfl, hfree⟩ := hfree
      rw [hfree.valid_put] at hj
      cases hj
    · rw [(hother j hfree).1]
      rw [(hother j hfree).2] at hj
      exact hvalid j hj

theorem leave (h : Came s₀ gone i s) (htype : (s₀.inode i).type ≠ .free) (hi : i ∉ gone) :
    Came s₀ (if next ≠ i ∧ (s₀.inode i).nlink = 0 ∧ s₀.ref i = 0 then i :: gone else gone) next
      (((((s.setLock i (some p)).setValid i true).got next).setLock i none).put i) := by
  have hpos : 0 < s.ref i := by
    rw [h.ref, update_self]
    exact Nat.succ_pos _
  have hvalid := got_valid ((s.setLock i (some p)).setValid i true) next
  refine h.drop hi (got_inode ..) (fun j => ?_) (got_ref ..) ?_ fun j hj => ?_
  · show update (got _ next).lock i none j = none
    rw [got_lock]
    by_cases hj : j = i
    · rw [hj, update_self]
    · rw [update_of_ne hj]
      exact (update_of_ne hj ..).trans (h.lock j)
  · show (got _ next).valid i = true
    rw [hvalid]
    split
    · exact update_self ..
    · rename_i h0
      have hne : i ≠ next := by
        rintro rfl
        exact h0 hpos
      rw [update_of_ne hne]
      exact update_self ..
  · by_cases hji : j = i
    · rw [hji, h.inode i hi]
      exact htype
    · refine h.valid j ?_
      have hother : update s.valid i true j = s.valid j := update_of_ne hji ..
      change (got _ next).valid j = true at hj
      rw [hvalid] at hj
      split at hj
      · exact hother.symm.trans hj
      · by_cases hjn : j = next
        · rw [hjn, update_self] at hj
          cases hj
        · rw [update_of_ne hjn] at hj
          exact hother.symm.trans hj

end Came

end Disk

section Namex

variable {n : ℕ} {p : Pid} {s₀ s : Disk} {i : ℕ} {gone : List ℕ} {stop : Bool}

theorem namexFrom_ends {els : List Name} (h : s₀.Came gone i s) (hne : stop = true → els ≠ []) :
    Ends n p (fun _ _ => ¬ s₀.Goes n stop gone i els) (namexFrom stop i els)
      (fun r s' => s₀.Goes n stop gone i els ∧ r = s₀.found stop i els ∧ s₀.Kept s') s := by
  induction els generalizing i s gone with
  | nil =>
    cases stop with
    | true => exact absurd rfl (hne rfl)
    | false => exact ⟨trivial, rfl, h.kept⟩
  | cons e els ih =>
    have hpos : 1 ≤ s.ref i := by
      rw [h.ref, update_self]
      exact Nat.succ_pos _
    unfold namexFrom
    refine Task.wp_bind.2 (ilock_ends hpos (h.lock i) (fun hload => ?_) fun hload hgoes =>
      hload (h.loads_iff.2 ⟨hgoes.1, hgoes.2.1⟩))
    obtain ⟨htype, hi⟩ := h.loads_iff.1 hload
    have hinode : ((s.setLock i (some p)).setValid i true).inode i = s₀.inode i := h.inode i hi
    have hheld : ((s.setLock i (some p)).setValid i true).lock i = some p := update_self ..
    have hput : s₀.Kept ((((s.setLock i (some p)).setValid i true).setLock i none).put i) :=
      h.kept_put hi rfl rfl
    have hroom : ∀ next, ((s.setLock i (some p)).setValid i true).Room n next ↔
        (s₀.setRef i (s₀.ref i + 1)).Room n next := fun next => Disk.room_congr h.ref
    refine Task.wp_bind.2 (call_ends rfl ?_)
    rw [hinode]
    by_cases hdir : (s₀.inode i).type = .dir
    · rw [if_neg (not_not.2 hdir)]
      have hstep : s₀.step i e = (find e (s₀.inode i).ents).map Prod.fst := if_pos hdir
      cases hlast : stop && els.isEmpty with
      | true =>
        -- The parent: it stops here.
        obtain ⟨rfl, hnil⟩ := Bool.and_eq_true_iff.1 hlast
        obtain rfl := List.isEmpty_iff.1 hnil
        rw [if_pos rfl]
        refine Task.wp_bind.2 (iunlock_ends hpos hheld ?_)
        exact ⟨⟨htype, hi, nofun⟩, (if_pos hdir).symm, h.kept⟩
      | false =>
        rw [if_neg (by nofun)]
        refine Task.wp_bind.2 (dirlookup_ends (hinode ▸ hdir) (fun hfind => ?_)
          (fun next off hfind hnext => ?_) fun next off hfind hnext hgoes => ?_)
        all_goals rw [hinode] at hfind
        all_goals rw [hfind] at hstep
        · refine Task.wp_bind.2 (iunlockput_ends hpos hheld ?_)
          refine ⟨⟨htype, hi, fun _ next hnext => ?_⟩, ?_, hput⟩
          · rw [hstep] at hnext
            cases hnext
          · rw [Disk.found_cons hlast, hstep]
            rfl
        · have hstop : stop = true → els ≠ [] := by
            rintro rfl rfl
            cases hlast
          have href : 0 < (((s.setLock i (some p)).setValid i true).got next).ref i := by
            rw [Disk.got_ref, update_apply]
            split
            · exact Nat.succ_pos _
            · exact hpos
          refine Task.wp_bind.2 (iunlockput_ends href
            ((congrFun (Disk.got_lock ..) i).trans hheld) ?_)
          have hgoes : s₀.Goes n stop gone i (e :: els) ↔ s₀.Goes n stop (if next ≠ i ∧
              (s₀.inode i).nlink = 0 ∧ s₀.ref i = 0 then i :: gone else gone) next els := by
            refine ⟨fun hgoes => (hgoes.2.2 hlast next hstep).2, fun hrest => ⟨htype, hi, ?_⟩⟩
            intro _ next' hnext'
            cases hstep.symm.trans hnext'
            exact ⟨(hroom _).1 hnext, hrest⟩
          rw [Disk.found_cons hlast, hstep, hgoes]
          exact ih (h.leave htype hi) hstop
        · exact hnext ((hroom next).2 (hgoes.2.2 hlast next hstep).1)
    · rw [if_pos hdir]
      refine Task.wp_bind.2 (iunlockput_ends hpos hheld ?_)
      refine ⟨⟨htype, hi, fun _ next hnext => ?_⟩, (Disk.found_of_not_dir hdir).symm, hput⟩
      rw [Disk.step, if_neg hdir] at hnext
      cases hnext

theorem namex_ends (stop : Bool) {path : List Char} (hlock : ∀ j, s.lock j = none)
    (hvalid : ∀ j, s.valid j = true → (s.inode j).type ≠ .free)
    (hne : stop = true → elementsOf path ≠ []) :
    Ends n p (fun _ _ => ¬ s.PathGoes n stop p path) (namex path stop)
      (fun r s' => s.PathGoes n stop p path ∧
        r = s.found stop (s.start p path) (elementsOf path) ∧ s.Kept s') s := by
  unfold namex Disk.PathGoes Disk.start
  rw [names_eq_elementsOf]
  by_cases hroot : path.head? = some '/'
  · simp only [hroot, true_imp_iff]
    refine Task.wp_bind.2 (iget_ends (fun hroom => ?_) fun hroom hgoes => hroom hgoes.1)
    have hcame : s.Came [] ROOTINO (s.got ROOTINO) := by
      refine ⟨fun j _ => congrFun (Disk.got_inode ..) j, nofun, fun j hj => ?_, Disk.got_ref ..,
        fun j => (congrFun (Disk.got_lock ..) j).trans (hlock j)⟩
      rw [Disk.got_inode]
      rw [Disk.got_valid] at hj
      split at hj
      · exact hvalid j hj
      · by_cases hroot : j = ROOTINO
        · rw [hroot, update_self] at hj
          cases hj
        · rw [update_of_ne hroot] at hj
          exact hvalid j hj
    simp only [hroom, true_and]
    exact namexFrom_ends hcame hne
  · simp only [hroot, false_imp_iff, true_and]
    refine Task.wp_bind.2 (call_ends rfl (namexFrom_ends ?_ hne))
    exact ⟨fun _ _ => rfl, nofun, hvalid, rfl, hlock⟩

end Namex

def Resolves (n : ℕ) (p : Pid) (s : Disk) (path : List Char) : Prop :=
  (∃ s', (namei path).exec (Op.perform n p) s =
    some (.inl (s.walk (s.start p path) (elementsOf path)), s')) ∧
  ∀ hne : elementsOf path ≠ [], ∃ r s',
    (nameiparent path).exec (Op.perform n p) s = some (.inl r, s') ∧
    (∀ d name, r = some (d, name) ↔
      s.walk (s.start p path) (elementsOf path).dropLast = some d ∧ (s.inode d).type = .dir ∧
        name = (elementsOf path).getLast hne) ∧
    ∀ d name, r = some (d, name) →
      bound (s.inode d).ents name = s.walk (s.start p path) (elementsOf path)

/-- Paths, in a state with no inode locked, and no copy of a free inode. Repeated calls of `skipelem`
give the elements of the path, and end. `namei` and `nameiparent` find what these lead to just if the
way goes on to its end, and then leave all inodes as they were, but for some without links that nobody
referred to. -/
theorem path_lookup {n : ℕ} {p : Pid} {s : Disk} {path : List Byte} (hpath : 0#8 ∉ path)
    (hlock : ∀ j, s.lock j = none) (hvalid : ∀ j, s.valid j = true → (s.inode j).type ≠ .free) :
    (∀ name, Pointer.elements (path.length + 1) path name = some (elementsOf (path.map charOf))) ∧
    (Resolves n p s (path.map charOf) ↔ s.PathGoes n false p (path.map charOf)) ∧
    (∀ r s', (namei (path.map charOf)).exec (Op.perform n p) s = some (.inl r, s') → s.Kept s') ∧
    (elementsOf (path.map charOf) ≠ [] → ∀ r s',
      (nameiparent (path.map charOf)).exec (Op.perform n p) s = some (.inl r, s') →
      s.Kept s') := by
  have hnames := names_eq_elementsOf (path.map charOf)
  refine ⟨fun name => ?_, ?_⟩
  · rw [Pointer.elements_eq _ name hpath (Nat.lt_succ_self _), hnames]
  generalize path.map charOf = path
  have hnamei : Ends n p (fun _ _ => ¬ s.PathGoes n false p path) (namei path) (fun r s' =>
      s.PathGoes n false p path ∧ r = s.walk (s.start p path) (elementsOf path) ∧ s.Kept s') s := by
    unfold namei
    refine Task.wp_bind.2 ((namex_ends false hlock hvalid nofun).mono ?_)
    rintro r s' ⟨hgoes, rfl, hkept⟩
    refine ⟨hgoes, ?_, hkept⟩
    rw [Disk.found, if_neg (by nofun), Option.map_map]
    exact Option.map_id'
  have hparent : elementsOf path ≠ [] → Ends n p (fun _ _ => ¬ s.PathGoes n true p path)
      (nameiparent path) (fun r s' => s.PathGoes n true p path ∧
        r = s.parent (s.start p path) (elementsOf path) ∧ s.Kept s') s :=
    fun hne => namex_ends true hlock hvalid fun _ => hne
  refine ⟨⟨fun hres => ?_, fun hgoes => ⟨?_, fun hne => ?_⟩⟩, fun r s' hexec => ?_,
    fun hne r s' hexec => ?_⟩
  · obtain ⟨⟨s', hexec⟩, -⟩ := hres
    rcases hnamei.exec (fun _ => rfl) with ⟨_, _, -, hgoes, -⟩ | ⟨why, _, hexec', -⟩
    · exact hgoes
    · cases hexec.symm.trans hexec'
  · rcases hnamei.exec (fun _ => rfl) with ⟨_, s', hexec, -, rfl, -⟩ | ⟨_, _, -, hnot⟩
    · exact ⟨s', hexec⟩
    · exact absurd hgoes hnot
  · rcases (hparent hne).exec (fun _ => rfl) with ⟨_, s', hexec, -, rfl, -⟩ | ⟨_, _, -, hnot⟩
    · refine ⟨_, s', hexec, fun d name => Disk.parent_eq_some hne, fun d name hr => ?_⟩
      rw [← Disk.step_parent hr, Disk.step, if_pos ((Disk.parent_eq_some hne).1 hr).2.1]
    · exact absurd ⟨hgoes.1, hgoes.2.parent⟩ hnot
  · rcases hnamei.exec (fun _ => rfl) with ⟨_, _, hexec', -, -, hkept⟩ | ⟨_, _, hexec', -⟩
    · cases hexec.symm.trans hexec'
      exact hkept
    · cases hexec.symm.trans hexec'
  · rcases (hparent hne).exec (fun _ => rfl) with ⟨_, _, hexec', -, -, hkept⟩ | ⟨_, _, hexec', -⟩
    · cases hexec.symm.trans hexec'
      exact hkept
    · cases hexec.symm.trans hexec'

/-- `/` and then `../..` from the root directory. -/
theorem path_lookup_boot :
    (∃ s', (namei ['/', '/', '.', '.', '/', '.', '.', '/']).exec (Op.perform 8 init) boot =
      some (.inl (some ROOTINO), s') ∧ boot.Kept s') ∧
    ∀ name, Pointer.elements 9 [47#8, 47#8, 46#8, 46#8, 47#8, 46#8, 46#8, 47#8] name =
      some [dotdot, dotdot] := by
  have hstep : ∀ j, boot.step ROOTINO dotdot = some j → j = ROOTINO := by
    intro j hj
    exact (Option.some.inj hj).symm
  have hgoes : boot.PathGoes 8 false init ['/', '/', '.', '.', '/', '.', '.', '/'] := by
    refine ⟨fun _ => by decide, by decide, by decide, fun _ j hj => ?_⟩
    obtain rfl := hstep j hj
    refine ⟨by decide, by decide, by decide, fun _ j hj => ?_⟩
    obtain rfl := hstep j hj
    exact ⟨by decide, trivial⟩
  have hpath : 0#8 ∉ [47#8, 47#8, 46#8, 46#8, 47#8, 46#8, 46#8, 47#8] := by decide
  obtain ⟨hels, hiff, hkept, -⟩ := path_lookup (n := 8) (p := init) (s := boot) hpath
    (fun _ => rfl) (fun j hj => by cases hj)
  obtain ⟨⟨s', hexec⟩, -⟩ := hiff.2 hgoes
  exact ⟨⟨s', hexec, hkept _ _ hexec⟩, hels⟩

def removeCwd : Sys ℤ := do
  let _ ← sys_mkdir 8 ['a']
  let _ ← sys_mkdir 8 ['a', '/', 'b']
  let _ ← sys_chdir ['a', '/', 'b']
  let _ ← sys_unlink ['/', 'a', '/', 'b']
  sys_unlink ['/', 'a']

/-- All of that succeeds, and then `..` leads to an inode that has been freed: `namei` does not return
0 for `../x`, but panics. -/
theorem namei_panics :
    ∃ s s', removeCwd.exec (Op.perform 8 init) boot = some (.inl 0, s) ∧
      s.walk (s.start init ['.', '.', '/', 'x']) (elementsOf ['.', '.', '/', 'x']) = none ∧
      (namei ['.', '.', '/', 'x']).exec (Op.perform 8 init) s =
        some (.inr "ilock: no type", s') := by
  have heval : ((removeCwd.exec (Op.perform 8 init) boot).bind fun x =>
      ((namei ['.', '.', '/', 'x']).exec (Op.perform 8 init) x.2).map fun y =>
        decide (x.1 = .inl 0 ∧
          x.2.walk (x.2.start init ['.', '.', '/', 'x']) (elementsOf ['.', '.', '/', 'x']) = none ∧
          y.1 = .inr "ilock: no type")) = some true := by decide +kernel
  obtain ⟨⟨r, s⟩, hs, heval⟩ := Option.bind_eq_some_iff.1 heval
  obtain ⟨⟨r', s'⟩, hs', htrue⟩ := Option.map_eq_some_iff.1 heval
  obtain ⟨rfl, hwalk, rfl⟩ := of_decide_eq_true htrue
  exact ⟨s, s', hs, hwalk, hs'⟩

end Xv6.Fs
