import Xv6.Fs.Follow

/-!
# The system calls keep to the protocol

Each system call, from the ghost state of a process that starts a call to one in which everything
has been given back. What a call holds on the way is written as `held refs locks fresh debt`.
-/

namespace Xv6.Fs

open Xv6.Task Ghost

namespace Ghost

def held (R : Multiset ℕ) (L : List (ℕ × Option Inode)) (fresh : Option (ℕ × Itype))
    (D : Multiset (ℕ × Itype)) : Ghost :=
  { start with refs := R, locks := L, fresh := fresh, debt := D }

def left (R : Multiset ℕ) (i : ℕ) (D : Multiset (ℕ × Itype)) : Multiset (ℕ × Itype) :=
  if i ∈ R.erase i then D else D.filter (·.1 ≠ i)

end Ghost

variable {n : ℕ} {W A : Prop} {α : Type} {i dp : ℕ} {c x : Inode} {R : Multiset ℕ}
  {L : List (ℕ × Option Inode)} {F : Option (ℕ × Itype)} {D : Multiset (ℕ × Itype)}

namespace Ghost

theorem calm_held : (held R L F D).Calm := ⟨rfl, rfl, rfl⟩

theorem settled_held (hD : W → D = 0) : (held 0 [] none D).Settled W :=
  ⟨rfl, rfl, rfl, rfl, rfl, rfl, hD, rfl, rfl, rfl⟩

theorem left_of_mem (h : ∀ y ∈ D, y.1 ∈ R) : left (i ::ₘ R) i D = D := by
  rw [left, Multiset.erase_cons_head]
  split
  · rfl
  · rename_i hi
    rw [Multiset.filter_eq_self]
    rintro y hy rfl
    exact hi (h y hy)

theorem left_zero : left R i 0 = 0 := by
  rw [left]
  split <;> simp

theorem keeps_of_zero (h : W → D = 0) : W → i ∈ R.erase i ∨ ∀ y ∈ D, y.1 ≠ i := by
  intro hW
  simp [h hW]

theorem learn_held_self {y : Option Inode} (hn : i ∉ L.map Prod.fst) (z : Option Inode) :
    learn (held R ((i, y) :: L) F D) i z = held R ((i, z) :: L) F D :=
  learn_of_locks z rfl hn

theorem learn_held_of_ne {y z : Option Inode} (hne : i ≠ dp) (w : Option Inode) :
    learn (held R [(i, y), (dp, z)] F D) dp w = held R [(i, y), (dp, w)] F D := by
  simp [learn, held, hne]

theorem known_held_self {y : Option Inode} : (held R ((i, y) :: L) F D).known i = y :=
  known_of_locks rfl

theorem known_held_of_ne {y z : Option Inode} (hne : i ≠ dp) :
    (held R ((i, y) :: (dp, z) :: L) F D).known dp = z :=
  known_of_locks_of_ne rfl (Ne.symm hne)

end Ghost

/-! ## Operations -/

theorem read_follows {f : Inode → Sys α} {Q : α → Ghost → Prop}
    (hk : (held R L F D).known i = some c)
    (h : (f c).Follows (protocol n W A) Q (held R L F D)) :
    (call (.read i) >>= f).Follows (protocol n W A) Q (held R L F D) := by
  refine call_bind_follows ⟨c, hk⟩ (calm_held.urgent _) fun d hd => ⟨_, rfl, ?_⟩
  obtain rfl : c = d := Option.some.inj (hk.symm.trans hd)
  exact h

theorem setNlink_follows {Q : Unit → Ghost → Prop} {k : ℤ} {L' : List (ℕ × Option Inode)}
    (hi : i ∈ R) (hk : (held R L F D).known i = some c)
    (hL : learn (held R L F D) i (some { c with nlink := short k }) = held R L' F D)
    (hW : W → k = c.nlink + 1 ∨ k = c.nlink - 1 ∧ (i, c.type) ∈ D)
    (hQ : ∀ D', (k = c.nlink + 1 → D' = (i, c.type) ::ₘ D) →
      (k = c.nlink - 1 → D' = D.erase (i, c.type)) → Q () (held R L' F D')) :
    (call (.setNlink i k)).Follows (protocol n W A) Q (held R L F D) := by
  refine call_follows ⟨hi, c, hk, fun hw => (hW hw).imp_left fun h => ⟨h, rfl⟩⟩
    (calm_held.urgent _) fun _ _ => ?_
  have hnext : (held R L F D).next (.setNlink i k) () = held R L' F
      (if k = c.nlink + 1 then (i, c.type) ::ₘ D else D.erase (i, c.type)) := by
    simp only [Ghost.next, counted, hk, hL]
    rfl
  rw [hnext]
  exact hQ _ (fun hk1 => if_pos hk1) fun hk1 => if_neg (by omega)

theorem ilock_held_follows {Q : Unit → Ghost → Prop} (hi : i ∈ R)
    (hA : A → (held R L F D).Orders i)
    (hQ : ∀ c, c.type ≠ .free → 0 < i → i < n → (∀ type, (i, type) ∈ D → c.type = type) →
      i ∉ L.map Prod.fst → (W → ∀ type, F = some (i, type) → c = ⟨type, 0, []⟩) →
      (W → (∀ type, F ≠ some (i, type)) → c.type = .dir →
        find dot c.ents ≠ none ∧ find dotdot c.ents ≠ none) →
      Q () (held R ((i, some c) :: L) F D)) :
    (ilock i).Follows (protocol n W A) Q (held R L F D) :=
  ilock_follows calm_held hi hA hQ

theorem orders_nil : (held R [] none D).Orders i := .inl ⟨rfl, .inl rfl⟩

theorem iunlock_held_follows {Q : Unit → Ghost → Prop} (hi : i ∈ R) (hn : i ∉ L.map Prod.fst)
    (hd : W → (i, .dir) ∉ D) (hQ : Q () (held R L F D)) :
    (iunlock .other i).Follows (protocol n W A) Q (held R ((i, some c) :: L) F D) := by
  refine iunlock_follows calm_held hi (locked_of_locks rfl) hd ?_
  rw [unlock_of_locks rfl hn]
  exact hQ

theorem iput_held_follows {Q : Unit → Ghost → Prop} (hi : i ∈ R) (hdir : W → (i, .dir) ∉ D)
    (hD : W → i ∈ R.erase i ∨ ∀ y ∈ D, y.1 ≠ i)
    (hQ : Q () (held (R.erase i) [] none (left R i D))) :
    (iput .other i).Follows (protocol n W A) Q (held R [] none D) :=
  iput_alone_follows calm_held rfl hi rfl hdir hD hQ

theorem iunlockput_held_follows {Q : Unit → Ghost → Prop} (hi : i ∈ R)
    (hdir : W → (i, .dir) ∉ D) (hD : W → i ∈ R.erase i ∨ ∀ y ∈ D, y.1 ≠ i)
    (hQ : Q () (held (R.erase i) [] none (left R i D))) :
    (iunlockput .other i).Follows (protocol n W A) Q (held R [(i, some c)] none D) :=
  iunlockput_follows calm_held rfl hi rfl hdir hD hQ

theorem iunlockput_last_follows (a : ℤ) (hD : W → D = 0) :
    (do iunlockput .other i; return a).Follows (protocol n W A) (fun _ => Settled W)
      (held {i} [(i, some c)] none D) := by
  refine follows_bind.2 (iunlockput_held_follows (Multiset.mem_singleton_self i)
    (fun hW => by simp [hD hW]) (keeps_of_zero hD) ?_)
  rw [Multiset.erase_singleton]
  exact settled_held fun hW => by rw [hD hW, left_zero]

theorem iunlockput_parent_follows {Q : Unit → Ghost → Prop} {y : Option Inode} (hne : i ≠ dp)
    (hdp : dp ∈ R) (hdir : W → (dp, .dir) ∉ D) (hD : W → dp ∈ R.erase dp ∨ ∀ y ∈ D, y.1 ≠ dp)
    (hQ : Q () (held (R.erase dp) [(i, y)] none (left R dp D))) :
    (iunlockput .parent dp).Follows (protocol n W A) Q
      (held R [(i, y), (dp, some c)] none D) := by
  have hlocked : (held R [(i, y), (dp, some c)] none D).Locked dp := by simp [Locked, held]
  refine follows_bind.2 (iunlock_follows calm_held hdp hlocked hdir ?_)
  have hunlock : unlock (held R [(i, y), (dp, some c)] none D) dp = held R [(i, y)] none D := by
    simp [unlock, held, hne]
  rw [hunlock, if_pos rfl]
  refine iput_follows rfl rfl hdp (fun j hj => ?_) (fun _ => rfl)
    (fun _ => .inl ⟨rfl, .inr rfl⟩) (fun _ => rfl) hdir hD hQ
  exact ⟨rfl, (Option.some.inj hj).symm⟩

theorem iput_child_follows {Q : Unit → Ghost → Prop} (hi : i ∈ R) (hdir : W → (i, .dir) ∉ D)
    (hD : W → i ∈ R.erase i ∨ ∀ y ∈ D, y.1 ≠ i) (htype : c.type = .dir)
    (hentry : A → ∃ e ∈ c.ents, e.inum = i ∧ e.inum ≠ 0 ∧ e.name ≠ dot ∧ e.name ≠ dotdot)
    (hQ : Q () (held (R.erase i) [(dp, some c)] none (left R i D))) :
    (iput .other i).Follows (protocol n W A) Q (held R [(dp, some c)] none D) := by
  refine iput_follows rfl rfl hi (fun j hj => ?_) (fun h => by cases h)
    (fun hA => .inr ⟨dp, c, rfl, htype, .inr ⟨rfl, hentry hA⟩⟩) (fun _ => rfl) hdir hD hQ
  cases hj

theorem dirlookup_held_follows {site : Site} {name : Name} {Q : Option (ℕ × ℕ) → Ghost → Prop}
    (hk : (held R L F D).known dp = some c)
    (hnone : c.type = .dir → find name c.ents = none → Q none (held R L F D))
    (hsome : ∀ inum off e, c.type = .dir → find name c.ents = some (inum, off) →
      (A → site ≠ .dirlink dot ∧ site ≠ .dirlink dotdot) → c.ents[off]? = some e →
      e.inum = inum → inum ≠ 0 → e.name = name →
      Q (some (inum, off)) (held (inum ::ₘ R) L F D)) :
    (dirlookup site dp name).Follows (protocol n W A) Q (held R L F D) :=
  dirlookup_follows calm_held hk hnone hsome

theorem namex_held_follows {parent : Bool} {path : List Char}
    {Q : Option (ℕ × Name) → Ghost → Prop} (hD : ∀ y ∈ D, y.1 ∈ R)
    (hdir : W → ∀ j, (j, .dir) ∉ D) (hnone : Q none (held R [] none D))
    (hsome : ∀ j name, Q (some (j, name)) (held (j ::ₘ R) [] none D)) :
    (namex path parent).Follows (protocol n W A) Q (held R [] none D) :=
  namex_follows calm_held rfl rfl rfl rfl hD hdir hnone hsome

theorem namei_follows {path : List Char} {Q : Option ℕ → Ghost → Prop}
    (hnone : Q none (held 0 [] none 0)) (hsome : ∀ i, Q (some i) (held {i} [] none 0)) :
    (namei path).Follows (protocol n W A) Q (held 0 [] none 0) :=
  follows_bind.2 (namex_held_follows (by simp) (by simp) hnone fun i _ => hsome i)

/-! ## `sys_link` -/

theorem linkBad_follows {type : Itype} (htype : type ≠ .dir) :
    (linkBad i).Follows (protocol n W A) (fun _ => Settled W)
      (held {i} [] none {(i, type)}) := by
  have hi : i ∈ ({i} : Multiset ℕ) := Multiset.mem_singleton_self i
  refine follows_bind.2 (ilock_held_follows hi (fun _ => orders_nil)
    fun c _ _ _ hdebt _ _ _ => ?_)
  obtain rfl : c.type = type := hdebt type (Multiset.mem_singleton_self _)
  refine read_follows known_held_self (follows_bind.2 (setNlink_follows hi known_held_self
    (learn_held_self (by simp) _) (fun _ => .inr ⟨rfl, Multiset.mem_singleton_self _⟩)
    fun D' _ hD' => ?_))
  obtain rfl : D' = 0 := by simpa using hD' rfl
  exact iunlockput_last_follows _ fun _ => rfl

theorem links_of_file {type : Itype} (hdir : type ≠ .dir) (hfree : type ≠ .free) (hne : i ≠ dp) :
    (held R [(dp, some c)] none {(i, type)}).links dp i = {(i, type)} := by
  have hne' : (i == dp) = false := by simpa using hne
  have hknown : (held R [(dp, some c)] none {(i, type)}).known i = none := by
    simp [known, held, List.lookup_cons, hne']
  have htype : (held R [(dp, some c)] none {(i, type)}).typeOf i = type := by
    rw [typeOf, hknown]
    cases type <;> simp_all [held]
  rw [links, htype, if_neg hdir]

theorem link_dirlink_follows {type : Itype} {name : Name} {Q : Bool → Ghost → Prop}
    (hdir : type ≠ .dir) (hfree : type ≠ .free) (hpos : 0 < i) (hne : c.type = .dir → i ≠ dp)
    (hdots : W → c.type = .dir → find dot c.ents ≠ none ∧ find dotdot c.ents ≠ none)
    (htrue : ∀ d, Q true (held (dp ::ₘ {i}) [(dp, some d)] none 0))
    (hfalse : Q false (held (dp ::ₘ {i}) [(dp, some c)] none {(i, type)})) :
    (dirlink dp name i).Follows (protocol n W A) Q
      (held (dp ::ₘ {i}) [(dp, some c)] none {(i, type)}) := by
  have hmem : dp ∈ dp ::ₘ ({i} : Multiset ℕ) := Multiset.mem_cons_self _ _
  refine follows_bind.2 (dirlookup_held_follows known_held_self
    (fun hd hfind => ?_) fun j off e hd _ hA he hinum hne0 hname => ?_)
  · have hlinks := links_of_file (R := dp ::ₘ {i}) (c := c) hdir hfree (hne hd)
    have hnames : W → Names (held (dp ::ₘ {i}) [(dp, some c)] none {(i, type)}) dp
        (emptyAt c.ents) i name := by
      intro hW
      refine ⟨c, known_held_self, by simp [held], ?_, ?_, rfl, ?_,
        .inr ⟨rfl, type, hdir, Multiset.mem_singleton_self _⟩⟩
      · rintro rfl
        exact (hdots hW hd).1 hfind
      · rintro rfl
        exact (hdots hW hd).2 hfind
      · exact hlinks.symm
    refine read_follows known_held_self (call_bind_follows ⟨hmem, ⟨c, known_held_self, hd⟩,
      fun h0 => absurd h0 (by omega), fun _ _ _ => .inr ⟨type, hdir, Multiset.mem_singleton_self _⟩,
        fun hW _ => ⟨by simp [held], .inr (hnames hW)⟩⟩ (calm_held.urgent _) fun r _ =>
          ⟨_, rfl, ?_⟩)
    refine follows_bind.2 (panicUnless_follows (fun hr => ?_) fun _ _ => by decide)
    subst hr
    have hwrote : wrote (held (dp ::ₘ {i}) [(dp, some c)] none {(i, type)}) dp (emptyAt c.ents) i
        name = held (dp ::ₘ {i}) [(dp, some { c with
          ents := putEnt c.ents (emptyAt c.ents) ⟨i % 65536, name⟩ })] none 0 := by
      have hzero : i ≠ 0 := by omega
      simp only [wrote, known_held_self, if_neg hzero, hlinks, learn_held_self (L := [])
        (by simp)]
      simp [held, start, idle]
    show Q true (wrote _ _ _ _ _)
    rw [hwrote]
    exact htrue _
  · -- The name is taken: the inode that it names is put back, with the directory locked.
    have hkeep : ∀ y ∈ ({(i, type)} : Multiset (ℕ × Itype)), y.1 ∈ dp ::ₘ ({i} : Multiset ℕ) := by
      simp
    refine follows_bind.2 (iput_child_follows (Multiset.mem_cons_self _ _) (fun _ hmem' => ?_)
      (fun _ => keeps_debt rfl hkeep) hd (fun hA' => ?_) ?_)
    · rw [Multiset.mem_singleton, Prod.mk.injEq] at hmem'
      exact hdir hmem'.2.symm
    · refine ⟨e, List.mem_of_getElem? he, hinum, hinum ▸ hne0, ?_, ?_⟩
      · rintro hdot
        exact (hA hA').1 (by rw [← hname, hdot])
      · rintro hdot
        exact (hA hA').2 (by rw [← hname, hdot])
    · rw [left_of_mem hkeep, Multiset.erase_cons_head]
      exact hfalse

theorem sys_link_follows (old new : List Char) :
    (sys_link old new).Follows (protocol n W A) (fun _ => Settled W) start := by
  refine follows_bind.2 (namei_follows (settled_held fun _ => rfl) fun i => ?_)
  have hi : i ∈ ({i} : Multiset ℕ) := Multiset.mem_singleton_self i
  refine follows_bind.2 (ilock_held_follows hi (fun _ => orders_nil)
    fun c hfree hpos _ _ _ _ _ => ?_)
  refine read_follows known_held_self ?_
  by_cases hdir : c.type = .dir
  · rw [if_pos hdir]
    exact iunlockput_last_follows _ fun _ => rfl
  rw [if_neg hdir]
  refine follows_bind.2 (setNlink_follows hi known_held_self (learn_held_self (by simp) _)
    (fun _ => .inl rfl) fun D' hD' _ => ?_)
  obtain rfl : D' = {(i, c.type)} := hD' rfl
  have hnodir : ∀ j, (j, Itype.dir) ∉ ({(i, c.type)} : Multiset (ℕ × Itype)) := by
    intro j hj
    rw [Multiset.mem_singleton, Prod.mk.injEq] at hj
    exact hdir hj.2.symm
  refine follows_bind.2 (iunlock_held_follows hi (by simp) (fun _ => hnodir i) ?_)
  -- The new link is counted, and the reference to `i` is kept while its directory is looked up.
  refine follows_bind.2 (namex_held_follows (by simp) (fun _ => hnodir) (linkBad_follows hdir)
    fun dp name => ?_)
  have hmem : dp ∈ dp ::ₘ ({i} : Multiset ℕ) := Multiset.mem_cons_self _ _
  refine follows_bind.2 (ilock_held_follows hmem (fun _ => orders_nil)
    fun d _ _ _ hdebt _ _ hdots => ?_)
  have hput : ∀ (d' : Inode) (D' : Multiset (ℕ × Itype)) (Q : Unit → Ghost → Prop),
      (∀ y ∈ D', y.1 ∈ ({i} : Multiset ℕ)) → (∀ j, (j, Itype.dir) ∉ D') →
      Q () (held {i} [] none D') → (iunlockput .other dp).Follows (protocol n W A) Q
        (held (dp ::ₘ {i}) [(dp, some d')] none D') := by
    intro d' D' Q hD' hno hQ
    refine iunlockput_held_follows hmem (fun _ => hno dp) (fun _ => keeps_debt rfl hD') ?_
    rw [left_of_mem hD', Multiset.erase_cons_head]
    exact hQ
  have hidp : d.type = .dir → i ≠ dp := by
    rintro hd rfl
    exact hdir ((hdebt c.type (Multiset.mem_singleton_self _)).symm.trans hd)
  refine follows_bind.2 (link_dirlink_follows hdir hfree hpos hidp
    (fun hW => hdots hW fun _ h => by cases h) (fun d' => ?_) ?_)
  · refine follows_bind.2 (hput d' 0 _ (by simp) (by simp) ?_)
    refine follows_bind.2 (iput_held_follows hi (by simp) (by simp) ?_)
    rw [left_zero, Multiset.erase_singleton]
    exact settled_held fun _ => rfl
  · exact follows_bind.2 (hput d _ _ (by simp) hnodir (linkBad_follows hdir))

/-! ## `sys_unlink` -/

def unlinked (dp i : ℕ) (type : Itype) : Multiset (ℕ × Itype) :=
  if type = .dir then {(i, .dir), (dp, .dir)} else {(i, type)}

theorem unlinkDotdot_follows {Q : Unit → Ghost → Prop} {type : Itype} {y : Option Inode}
    (hne : i ≠ dp) (hc : c.type = .dir) (hdp : dp ∈ R)
    (hQ : ∀ d : Inode, d.type = .dir → d.ents = c.ents →
      Q () (held R [(i, y), (dp, some d)] none {(i, type)})) :
    (unlinkDotdot dp type).Follows (protocol n W A) Q
      (held R [(i, y), (dp, some c)] none (unlinked dp i type)) := by
  unfold unlinkDotdot
  split
  · rename_i htype
    subst htype
    refine read_follows (known_held_of_ne hne) (setNlink_follows hdp (known_held_of_ne hne)
      (learn_held_of_ne hne _) (fun _ => .inr ⟨rfl, ?_⟩) fun D' _ hD' => ?_)
    · simp [unlinked, hc]
    · have hD : D' = {(i, .dir)} := by
        rw [hD' rfl, hc]
        simp only [unlinked, if_true, Multiset.insert_eq_cons]
        have hswap : (i, Itype.dir) ::ₘ {(dp, Itype.dir)} = (dp, Itype.dir) ::ₘ {(i, Itype.dir)} :=
          Multiset.cons_swap _ _ 0
        rw [hswap, Multiset.erase_cons_head]
      rw [hD]
      exact hQ { c with nlink := short (c.nlink - 1) } hc rfl
  · rename_i htype
    have : unlinked dp i type = {(i, type)} := if_neg htype
    rw [this]
    exact hQ c hc rfl

theorem unlinkAt_follows {off : ℕ} {e : Dirent} (hc : c.type = .dir) (he : c.ents[off]? = some e)
    (hinum : e.inum = i) (hi0 : i ≠ 0) (hdot : e.name ≠ dot) (hdotdot : e.name ≠ dotdot) :
    (unlinkAt dp off i).Follows (protocol n W A) (fun _ => Settled W)
      (held (i ::ₘ {dp}) [(dp, some c)] none 0) := by
  have hi : i ∈ i ::ₘ ({dp} : Multiset ℕ) := Multiset.mem_cons_self _ _
  have hdp : dp ∈ i ::ₘ ({dp} : Multiset ℕ) := by simp
  have hentry : ∃ e ∈ c.ents, e.inum = i ∧ e.inum ≠ 0 ∧ e.name ≠ dot ∧ e.name ≠ dotdot :=
    ⟨e, List.mem_of_getElem? he, hinum, hinum ▸ hi0, hdot, hdotdot⟩
  refine follows_bind.2 (ilock_held_follows hi
    (fun _ => .inr ⟨dp, c, rfl, hc, .inr ⟨rfl, hentry⟩⟩) fun x _ _ _ _ hlocked _ _ => ?_)
  have hne : i ≠ dp := by simpa using hlocked
  refine read_follows known_held_self ?_
  refine follows_bind.2 (panicUnless_follows (fun _ => ?_) fun _ _ => by decide)
  by_cases hempty : x.type = .dir ∧ isdirempty x.ents = false
  · rw [if_pos hempty]
    refine follows_bind.2 (follows_bind.2 (iunlock_held_follows hi (by simpa using hne) (by simp)
      (iput_child_follows hi (by simp) (by simp) hc (fun _ => hentry) ?_)))
    rw [left_zero, Multiset.erase_cons_head]
    exact iunlockput_last_follows _ fun _ => rfl
  rw [if_neg hempty]
  -- The entry is erased, and two counts are one too high until they are decremented.
  have herase : Erases (held (i ::ₘ {dp}) [(i, some x), (dp, some c)] none 0) dp off := by
    refine ⟨c, e, x, known_held_of_ne hne, he, hinum ▸ hi0, hdot, hdotdot, ?_, hinum ▸ hi,
      hinum ▸ hne, ?_⟩
    · rw [hinum]
      exact known_held_self
    · intro hx
      simpa using fun h => hempty ⟨hx, h⟩
  refine call_bind_follows ⟨hdp, ⟨c, known_held_of_ne hne, hc⟩, fun _ => herase,
    by simp, by simp⟩ (calm_held.urgent _) fun r _ => ⟨_, rfl, ?_⟩
  refine follows_bind.2 (panicUnless_follows (fun hr => ?_) fun _ _ => by decide)
  subst hr
  have hwrote : wrote (held (i ::ₘ {dp}) [(i, some x), (dp, some c)] none 0) dp off 0 [] =
      held (i ::ₘ {dp}) [(i, some x), (dp, some { c with ents := putEnt c.ents off ⟨0, []⟩ })] none
        (unlinked dp i x.type) := by
    have hlinks : (held (i ::ₘ {dp}) [(i, some x), (dp, some c)] none 0).links dp i =
        unlinked dp i x.type := by
      rw [links, typeOf_of_known known_held_self, unlinked]
    simp only [wrote, known_held_of_ne hne, if_true, he, learn_held_of_ne hne, hinum, hlinks]
    simp [held]
  show Task.Follows _ _ _ (wrote _ _ _ _ _)
  rw [hwrote]
  refine follows_bind.2 (unlinkDotdot_follows hne hc hdp fun d hd _ => ?_)
  have hdebt : (dp, Itype.dir) ∉ ({(i, x.type)} : Multiset (ℕ × Itype)) := by
    simp [Ne.symm hne]
  have hkeep : ∀ y ∈ ({(i, x.type)} : Multiset (ℕ × Itype)), y.1 ∈ ({i} : Multiset ℕ) := by
    simp
  have hswap : i ::ₘ ({dp} : Multiset ℕ) = dp ::ₘ {i} := Multiset.cons_swap _ _ _
  refine follows_bind.2 (iunlockput_parent_follows hne hdp (fun _ => hdebt)
    (fun _ => keeps_debt hswap hkeep) ?_)
  rw [hswap, left_of_mem hkeep, Multiset.erase_cons_head]
  refine follows_bind.2 (setNlink_follows (Multiset.mem_singleton_self i) known_held_self
    (learn_held_self (by simp) _) (fun _ => .inr ⟨rfl, Multiset.mem_singleton_self _⟩)
    fun D' _ hD' => ?_)
  obtain rfl : D' = 0 := by simpa using hD' rfl
  exact iunlockput_last_follows _ fun _ => rfl

theorem sys_unlink_follows (path : List Char) :
    (sys_unlink path).Follows (protocol n W A) (fun _ => Settled W) start := by
  refine follows_bind.2 (namex_held_follows (R := 0) (D := 0) (by simp) (by simp)
    (settled_held fun _ => rfl) fun dp name => ?_)
  have hdp : dp ∈ dp ::ₘ (0 : Multiset ℕ) := Multiset.mem_cons_self _ _
  refine follows_bind.2 (ilock_held_follows hdp (fun _ => orders_nil) fun c _ _ _ _ _ _ _ => ?_)
  by_cases hname : name = dot ∨ name = dotdot
  · rw [if_pos hname]
    exact iunlockput_last_follows _ fun _ => rfl
  rw [if_neg hname]
  obtain ⟨hdot, hdotdot⟩ := not_or.1 hname
  refine follows_bind.2 (dirlookup_held_follows known_held_self (fun _ _ => ?_)
    fun i off e hc _ _ he hinum hi0 hename => ?_)
  · exact iunlockput_last_follows _ fun _ => rfl
  · exact unlinkAt_follows hc he hinum hi0 (hename ▸ hdot) (hename ▸ hdotdot)

/-! ## `create` -/

theorem iallocFrom_follows {type : Itype} {is : List ℕ} {Q : ℕ → Ghost → Prop}
    (htype : type ≠ .free) (his : ∀ i ∈ is, 0 < i ∧ i < n)
    (hQ : ∀ i, 0 < i → i < n → i ≠ dp →
      Q i (held (i ::ₘ R) [(dp, some c)] (some (i, type)) D)) :
    (iallocFrom type is).Follows (protocol n W A) Q (held R [(dp, some c)] none D) := by
  induction is with
  | nil => exact fun _ => by decide
  | cons i is ih =>
    obtain ⟨hpos, hlt⟩ := his i List.mem_cons_self
    refine call_bind_follows ⟨hpos, hlt, htype, rfl, dp, c, rfl⟩ (calm_held.urgent _)
      fun r hr => ⟨_, rfl, ?_⟩
    cases r with
    | true =>
      have hne : i ≠ dp := by
        rintro rfl
        exact hr rfl c known_held_self
      have hfollows : (iget .other i).Follows (protocol n W A)
          (fun _ g => (pure i : Sys ℕ).Follows (protocol n W A) Q g)
          (held R [(dp, some c)] (some (i, type)) D) :=
        iget_follows calm_held (.inr (.inl ⟨type, rfl⟩)) fun _ => hQ i hpos hlt hne
      exact follows_bind.2 hfollows
    | false => exact ih fun j hj => his j (List.mem_cons_of_mem i hj)

theorem ialloc_follows {type : Itype} {Q : ℕ → Ghost → Prop} (htype : type ≠ .free)
    (hQ : ∀ i, 0 < i → i < n → i ≠ dp →
      Q i (held (i ::ₘ R) [(dp, some c)] (some (i, type)) D)) :
    (ialloc n type).Follows (protocol n W A) Q (held R [(dp, some c)] none D) := by
  refine iallocFrom_follows htype (fun i hi => ?_) hQ
  rw [List.mem_range'_1] at hi
  omega

theorem create_dirlink_follows {inum : ℕ} {name : Name} {g : Ghost} {Q : Bool → Ghost → Prop}
    (hg : g.Calm) (hk : g.known dp = some c)
    (hW : W → find name c.ents = none)
    (hA : A → (name ≠ dot ∧ name ≠ dotdot → find name c.ents = none))
    (ha : c.type = .dir → find name c.ents = none →
      allows n W A g (.writei dp (emptyAt c.ents) inum name))
    (hQ : c.type = .dir → find name c.ents = none →
      Q true (g.wrote dp (emptyAt c.ents) inum name))
    (hfalse : ∀ g, Q false g) :
    (dirlink dp name inum).Follows (protocol n W A) Q g := by
  refine follows_bind.2 (dirlookup_follows hg hk (fun hd hfind => ?_)
    fun j off e hd hfind hsite _ _ _ _ => ?_)
  · refine call_bind_follows ⟨c, hk⟩ (hg.urgent _) fun d hd' => ⟨g, rfl, ?_⟩
    obtain rfl : c = d := Option.some.inj (hk.symm.trans hd')
    refine call_bind_follows (ha hd hfind) (hg.urgent _) fun r _ => ⟨_, rfl, ?_⟩
    refine follows_bind.2 (panicUnless_follows (fun hr => ?_) fun _ _ => by decide)
    subst hr
    exact hQ hd hfind
  · have hnW : ¬ W := fun h => by simp [hW h] at hfind
    have hnA : ¬ A := by
      intro h
      have hname : name ≠ dot ∧ name ≠ dotdot := by
        refine ⟨?_, ?_⟩
        · rintro rfl
          exact (hsite h).1 rfl
        · rintro rfl
          exact (hsite h).2 rfl
      simp [hA h hname] at hfind
    refine follows_bind.2 (iput_follows hg.freeing hg.drops (Multiset.mem_cons_self _ _)
      (fun k hk' => ?_) (fun h => by cases h) (fun h => absurd h hnA)
      (fun h => absurd h (not_or.2 ⟨hnW, hnA⟩)) (fun h => absurd h hnW) (fun h => absurd h hnW) (hfalse _))
    exact absurd (hg.window ▸ hk' : (none : Option ℕ) = some k) (by simp)

theorem createDots_follows {type : Itype} {Q : Unit → Ghost → Prop} {y : Inode}
    (hn : n ≤ 65536) (hne : i ≠ dp) (hc : c.type = .dir) (hpos : 0 < i) (hlt : i < n)
    (hdpos : 0 < dp) (hdp : dp < n) (hy : W → y.type = type ∧ y.ents = []) (hD : W → D = {(i, type)})
    (hQ : ∀ (x d : Inode) (D' : Multiset (ℕ × Itype)), d.type = .dir → d.ents = c.ents →
      (W → x.type = type ∧ (type = .dir → x.ents = [⟨i, dot⟩, ⟨dp, dotdot⟩]) ∧
        D' = unlinked dp i type) →
      Q () (held (i ::ₘ {dp}) [(i, some x), (dp, some d)] (some (i, type)) D')) :
    (createDots dp i type).Follows (protocol n W A) Q
      (held (i ::ₘ {dp}) [(i, some y), (dp, some c)] (some (i, type)) D) := by
  unfold createDots
  split
  · rename_i htype
    subst htype
    have hi : i ∈ i ::ₘ ({dp} : Multiset ℕ) := Multiset.mem_cons_self _ _
    have hdpR : dp ∈ i ::ₘ ({dp} : Multiset ℕ) := by simp
    refine read_follows (known_held_of_ne hne) (follows_bind.2 (setNlink_follows hdpR
      (known_held_of_ne hne) (learn_held_of_ne hne _) (fun _ => .inl rfl) fun D' hD' _ => ?_))
    obtain rfl := hD' rfl
    set d : Inode := { c with nlink := short (c.nlink + 1) } with hd
    have hi16 : i % 65536 = i := Nat.mod_eq_of_lt (by omega)
    have hdp16 : dp % 65536 = dp := Nat.mod_eq_of_lt (by omega)
    have hi0 : i ≠ 0 := by omega
    have hwrote : ∀ (x : Inode) (E : Multiset (ℕ × Itype)) (inum off : ℕ) (name : Name),
        0 < inum → wrote (held (i ::ₘ {dp}) [(i, some x), (dp, some d)] (some (i, .dir)) E)
          i off inum name = held (i ::ₘ {dp}) [(i, some { x with
            ents := putEnt x.ents off ⟨inum % 65536, name⟩ }), (dp, some d)]
              (some (i, .dir)) E := by
      intro x E inum off name hinum
      have hinum0 : inum ≠ 0 := by omega
      have hfresh : (held (i ::ₘ {dp}) [(i, some x), (dp, some d)] (some (i, .dir)) E).fresh.map
          Prod.fst = some i := rfl
      simp only [wrote, known_held_self, if_neg hinum0, if_pos hfresh]
      exact learn_held_self (by simpa using hne) _
    -- The entry for `"."`.
    refine follows_bind.2 (create_dirlink_follows calm_held known_held_self (fun hW => ?_)
      (fun _ h => absurd rfl h.1) (fun hyd _ => ?_) (fun hyd _ => ?_) fun g => ?_)
    · rw [(hy hW).2]
      rfl
    · refine ⟨hi, ⟨y, known_held_self, hyd⟩, fun h => absurd h hi0, fun _ h => absurd rfl h,
        fun hW _ => ⟨hi, .inl ⟨y, known_held_self, rfl, .inl ⟨(hy hW).2, ?_, rfl, rfl⟩⟩⟩⟩
      rw [(hy hW).2]
      rfl
    · refine follows_bind.2 (panicUnless_follows (fun _ => ?_) fun _ _ => by decide)
      rw [hwrote y _ i _ dot hpos, hi16]
      set x : Inode := { y with ents := putEnt y.ents (emptyAt y.ents) ⟨i, dot⟩ } with hx
      have hxents : W → x.ents = [⟨i, dot⟩] := by
        intro hW
        rw [hx]
        simp [(hy hW).2, putEnt]
      -- The entry for `".."`.
      refine follows_bind.2 (create_dirlink_follows calm_held known_held_self (fun hW => ?_)
        (fun _ h => absurd rfl h.2) (fun hxd _ => ?_) (fun hxd _ => ?_) fun g => ?_)
      · rw [hxents hW]
        simp [find, dot, dotdot]
      · refine ⟨hi, ⟨x, known_held_self, hxd⟩, fun h => absurd h (by omega),
          fun _ _ h => absurd rfl h, fun hW _ => ⟨hdpR, .inl ⟨x, known_held_self, rfl,
            .inr ⟨hxents hW, ?_, rfl, Ne.symm hne, d, known_held_of_ne hne, hc⟩⟩⟩⟩
        rw [hxents hW]
        simp [emptyAt, hi0]
      · refine panicUnless_follows (fun _ => ?_) fun _ _ => by decide
        rw [hwrote x _ dp _ dotdot hdpos, hdp16]
        refine hQ _ d _ hc rfl fun hW => ⟨(hy hW).1, fun _ => ?_, ?_⟩
        · rw [hxents hW]
          simp [putEnt, emptyAt, hi0]
        · rw [hD hW, hc]
          exact Multiset.cons_swap _ _ _
      · exact panicUnless_follows (fun h => by cases h) fun _ _ => by decide
    · exact follows_bind.2 (panicUnless_follows (fun h => by cases h) fun _ _ => by decide)
  · rename_i htype
    exact hQ y c D hc rfl fun hW =>
      ⟨(hy hW).1, fun h => absurd h htype, by rw [hD hW, unlinked, if_neg htype]⟩

theorem createIn_follows {name : Name} {type : Itype} {Q : ℕ → Ghost → Prop} (hn : n ≤ 65536)
    (htype : type ≠ .free) (hc : c.type = .dir) (hdpos : 0 < dp) (hdp : dp < n)
    (hfind : find name c.ents = none)
    (hdots : W → find dot c.ents ≠ none ∧ find dotdot c.ents ≠ none)
    (hQ : ∀ i x D, (W → D = 0) → Q i (held {i} [(i, some x)] none D)) :
    (createIn n dp name type).Follows (protocol n W A) Q
      (held {dp} [(dp, some c)] none 0) := by
  refine follows_bind.2 (ialloc_follows htype fun i hpos hlt hne => ?_)
  have hi : i ∈ i ::ₘ ({dp} : Multiset ℕ) := Multiset.mem_cons_self _ _
  have hdpR : dp ∈ i ::ₘ ({dp} : Multiset ℕ) := by simp
  refine follows_bind.2 (ilock_held_follows hi
    (fun _ => .inr ⟨dp, c, rfl, hc, .inl ⟨⟨type, rfl⟩, hne⟩⟩) fun x _ _ _ _ _ hfresh _ => ?_)
  have hx : W → x = ⟨type, 0, []⟩ := fun hW => hfresh hW type rfl
  refine follows_bind.2 (setNlink_follows hi known_held_self (learn_held_self (by simpa using hne) _)
    (fun hW => .inl (by simp [hx hW])) fun D hD _ => ?_)
  have hD1 : W → D = {(i, type)} := by
    intro hW
    rw [hD (by simp [hx hW]), hx hW]
    rfl
  refine follows_bind.2 (createDots_follows hn hne hc hpos hlt hdpos hdp
    (fun hW => by simp [hx hW]) hD1 fun x d D' hd hents hx' => ?_)
  -- The new inode gets its name in `dp`.
  set g := held (i ::ₘ {dp}) [(i, some x), (dp, some d)] (some (i, type)) D' with hg
  have hknown : g.known dp = some d := known_held_of_ne hne
  have hlinks : W → g.links dp i = D' := by
    intro hW
    rw [(hx' hW).2.2, links, typeOf_of_known known_held_self, unlinked, (hx' hW).1]
  have hi0 : i ≠ 0 := by omega
  refine follows_bind.2 (create_dirlink_follows calm_held hknown (fun _ => hents ▸ hfind)
    (fun _ _ => hents ▸ hfind) (fun _ _ => ?_) (fun _ _ => ?_) fun g => ?_)
  · refine ⟨hdpR, ⟨d, hknown, hd⟩, fun h => absurd h hi0, fun _ _ _ => .inl ⟨⟨type, rfl⟩, hne⟩,
      fun hW _ => ⟨hi, .inr ⟨d, hknown, fun t ht => ?_, ?_, ?_, rfl, ?_,
        .inl ⟨x, ?_, known_held_self, ?_⟩⟩⟩⟩
    · exact hne (Prod.mk.inj (Option.some.inj ht)).1
    · rintro rfl
      exact (hdots hW).1 hfind
    · rintro rfl
      exact (hdots hW).2 hfind
    · exact (hlinks hW).symm
    · rw [(hx' hW).1]
      rfl
    · exact fun hxd => (hx' hW).2.1 ((hx' hW).1.symm.trans hxd)
  · refine follows_bind.2 (panicUnless_follows (fun _ => ?_) fun _ _ => by decide)
    have hwrote : g.wrote dp (emptyAt d.ents) i name = held (i ::ₘ {dp}) [(i, some x), (dp, some
        { d with ents := putEnt d.ents (emptyAt d.ents) ⟨i % 65536, name⟩ })] none
          (D' - g.links dp i) := by
      have hfresh : g.fresh.map Prod.fst ≠ some dp := by
        simpa [hg, held] using hne
      simp only [wrote, hknown, if_neg hi0, if_neg hfresh]
      rw [hg, learn_held_of_ne hne]
      rfl
    rw [hwrote]
    have hzero : W → D' - g.links dp i = 0 := by
      intro hW
      rw [hlinks hW]
      ext a
      rw [Multiset.count_sub, Nat.sub_self, Multiset.count_zero]
    refine follows_bind.2 (iunlockput_parent_follows hne hdpR (fun hW => by simp [hzero hW])
      (keeps_of_zero hzero) ?_)
    have hswap : i ::ₘ ({dp} : Multiset ℕ) = dp ::ₘ {i} := Multiset.cons_swap _ _ _
    rw [hswap, Multiset.erase_cons_head]
    exact hQ i x _ fun hW => by rw [hzero hW, left_zero]
  · exact follows_bind.2 (panicUnless_follows (fun h => by cases h) fun _ _ => by decide)

theorem create_follows {path : List Char} {type : Itype} {Q : Option ℕ → Ghost → Prop}
    (hn : n ≤ 65536) (htype : type ≠ .free) (hnone : Q none (held 0 [] none 0))
    (hsome : ∀ i x D, (W → D = 0) → Q (some i) (held {i} [(i, some x)] none D)) :
    (create n path type).Follows (protocol n W A) Q (held 0 [] none 0) := by
  refine follows_bind.2 (namex_held_follows (by simp) (by simp) hnone fun dp name => ?_)
  have hdp : dp ∈ ({dp} : Multiset ℕ) := Multiset.mem_singleton_self dp
  refine follows_bind.2 (ilock_held_follows hdp (fun _ => orders_nil)
    fun c _ hpos hlt _ _ _ hdots => ?_)
  refine follows_bind.2 (dirlookup_held_follows known_held_self (fun hc hfind => ?_)
    fun i off e _ _ _ _ _ _ _ => ?_)
  · exact follows_bind.2 (createIn_follows hn htype hc hpos hlt hfind
      (fun hW => hdots hW (by simp) hc) fun i x D hD => hsome i x D hD)
  · -- The name exists: `dp` is put back before its inode is locked.
    have hswap : i ::ₘ dp ::ₘ (0 : Multiset ℕ) = dp ::ₘ {i} := Multiset.cons_swap _ _ _
    rw [hswap]
    refine follows_bind.2 (iunlockput_held_follows (Multiset.mem_cons_self _ _) (by simp)
      (by simp) ?_)
    rw [left_zero, Multiset.erase_cons_head]
    have hi : i ∈ ({i} : Multiset ℕ) := Multiset.mem_singleton_self i
    refine follows_bind.2 (ilock_held_follows hi (fun _ => orders_nil) fun x _ _ _ _ _ _ _ => ?_)
    refine read_follows known_held_self ?_
    split
    · exact hsome i x 0 fun _ => rfl
    · refine follows_bind.2 (iunlockput_held_follows hi (by simp) (by simp) ?_)
      rw [left_zero, Multiset.erase_singleton]
      exact hnone

theorem mknod_follows {path : List Char} {type : Itype} (hn : n ≤ 65536) (htype : type ≠ .free) :
    (mknod n path type).Follows (protocol n W A) (fun _ => Settled W) start :=
  follows_bind.2 (create_follows hn htype (settled_held fun _ => rfl)
    fun _ _ _ hD => iunlockput_last_follows _ hD)

/-! ## `fileclose`, `sys_close` and `sys_open` -/

theorem fileclose_follows {g : Ghost} {f : Fin NFILE} {Q : Unit → Ghost → Prop} (hg : g.Calm)
    (hl : g.locks = []) (hfresh : g.fresh = none) (hdebt : g.debt = 0) (hopen : g.opening = none)
    (hf : f ∈ g.files) (hQ : Q () { g with files := g.files.erase f }) :
    (fileclose f).Follows (protocol n W A) Q g := by
  have hQ' : Q () { g with files := g.files.erase f, opening := none } := by
    rw [← hopen]
    exact hQ
  refine call_bind_follows ⟨hf, .inl hopen⟩ (hg.urgent _) fun r _ => ?_
  cases r with
  | unreferenced => exact ⟨_, rfl, fun _ => by decide⟩
  | more => exact ⟨_, rfl, hQ'⟩
  | last ip =>
    cases ip with
    | none => exact ⟨_, rfl, hQ'⟩
    | some j =>
      refine ⟨{ g with files := g.files.erase f, opening := none, refs := j ::ₘ g.refs }, rfl, ?_⟩
      refine iput_alone_follows ⟨hg.window, hg.freeing, hg.drops⟩ hl (Multiset.mem_cons_self _ _)
        hfresh (fun _ => by simp [hdebt]) (fun _ => .inr (by simp [hdebt])) ?_
      rw [give_of_refs (R := g.refs) rfl (by simp [hdebt])]
      exact hQ'

theorem fileclose_new_follows {g : Ghost} {f : Fin NFILE} {Q : Unit → Ghost → Prop} (hg : g.Calm)
    (hopen : g.opening = some f) (hf : f ∈ g.files)
    (hQ : Q () { g with files := g.files.erase f, opening := none }) :
    (fileclose f).Follows (protocol n W A) Q g := by
  refine call_bind_follows ⟨hf, .inr hopen⟩ (hg.urgent _) fun r hr => ?_
  obtain rfl : r = .last none := hr hopen
  exact ⟨_, rfl, hQ⟩

theorem sys_close_follows (fd : Fin NOFILE) :
    (sys_close fd).Follows (protocol n W A) (fun _ => Settled W) start := by
  refine call_bind_follows rfl (calm_held.urgent _) fun r _ => ?_
  cases r with
  | none => exact ⟨_, rfl, rfl, rfl, rfl, rfl, rfl, rfl, fun _ => rfl, rfl, rfl, rfl⟩
  | some f =>
    refine ⟨{ start with files := {f}, closed := [fd] }, rfl, ?_⟩
    refine follows_bind.2 (fileclose_follows ⟨rfl, rfl, rfl⟩ rfl rfl rfl rfl
      (Multiset.mem_singleton_self f) ?_)
    exact ⟨rfl, rfl, rfl, rfl, rfl, rfl, fun _ => rfl, Multiset.erase_singleton f, rfl, rfl⟩

theorem openInode_follows {path : List Char} {omode : ℕ} {Q : Option ℕ → Ghost → Prop}
    (hn : n ≤ 65536) (hnone : Q none (held 0 [] none 0))
    (hsome : ∀ i x D, (W → D = 0) → Q (some i) (held {i} [(i, some x)] none D)) :
    (openInode n path omode).Follows (protocol n W A) Q (held 0 [] none 0) := by
  unfold openInode
  split
  · exact create_follows hn (by decide) hnone hsome
  · refine follows_bind.2 (namei_follows hnone fun i => ?_)
    have hi : i ∈ ({i} : Multiset ℕ) := Multiset.mem_singleton_self i
    refine follows_bind.2 (ilock_held_follows hi (fun _ => orders_nil) fun x _ _ _ _ _ _ _ => ?_)
    refine read_follows known_held_self ?_
    split
    · refine follows_bind.2 (iunlockput_held_follows hi (by simp) (by simp) ?_)
      rw [left_zero, Multiset.erase_singleton]
      exact hnone
    · exact hsome i x 0 fun _ => rfl

theorem sys_open_follows (hn : n ≤ 65536) (path : List Char) (omode : ℕ) :
    (sys_open n path omode).Follows (protocol n W A) (fun _ => Settled W) start := by
  refine follows_bind.2 (openInode_follows hn (settled_held fun _ => rfl) fun i x D hD => ?_)
  have hi : i ∈ ({i} : Multiset ℕ) := Multiset.mem_singleton_self i
  refine call_bind_follows rfl (calm_held.urgent _) fun r _ => ?_
  cases r with
  | none => exact ⟨_, rfl, iunlockput_last_follows _ hD⟩
  | some f =>
    refine ⟨{ held {i} [(i, some x)] none D with files := {f}, opening := some f }, rfl, ?_⟩
    have hcalm : Calm { held {i} [(i, some x)] none D with files := {f}, opening := some f } :=
      ⟨rfl, rfl, rfl⟩
    refine call_bind_follows ⟨Multiset.mem_singleton_self f, rfl, rfl⟩ (hcalm.urgent _) fun r _ => ?_
    cases r with
    | none =>
      refine ⟨_, rfl, follows_bind.2 (fileclose_new_follows hcalm rfl
        (Multiset.mem_singleton_self f) ?_)⟩
      show Task.Follows _ _ _ { held {i} [(i, some x)] none D with
        files := ({f} : Multiset (Fin NFILE)).erase f, opening := none }
      rw [Multiset.erase_singleton]
      exact iunlockput_last_follows _ hD
    | some fd =>
      refine ⟨{ held {i} [(i, some x)] none D with files := 0, opening := some f, closed := [] },
        ?_, ?_⟩
      · show { held {i} [(i, some x)] none D with
          files := ({f} : Multiset (Fin NFILE)).erase f, opening := some f, closed := [] } = _
        rw [Multiset.erase_singleton]
      refine follows_bind.2 (iunlock_follows ⟨rfl, rfl, rfl⟩ hi (locked_of_locks rfl)
        (fun hW => by simp [held, hD hW]) ?_)
      rw [unlock_of_locks rfl (by simp), if_neg (by decide)]
      refine call_bind_follows ⟨rfl, hi, by simp [Locked], keeps_of_zero hD⟩ (Calm.urgent ⟨rfl, rfl, rfl⟩ _)
        fun _ _ => ⟨_, rfl, ?_⟩
      refine ⟨Multiset.erase_singleton i, rfl, rfl, rfl, rfl, rfl, fun hW => ?_, rfl, rfl, rfl⟩
      simp [Ghost.next, give, held, hD hW]

/-! ## `sys_chdir`, `fork` and `exit` -/

theorem sys_chdir_follows (path : List Char) :
    (sys_chdir path).Follows (protocol n W A) (fun _ => Settled W) start := by
  refine follows_bind.2 (namei_follows (settled_held fun _ => rfl) fun i => ?_)
  have hi : i ∈ ({i} : Multiset ℕ) := Multiset.mem_singleton_self i
  refine follows_bind.2 (ilock_held_follows hi (fun _ => orders_nil) fun x _ _ _ _ _ _ _ => ?_)
  refine read_follows known_held_self ?_
  split
  · exact iunlockput_last_follows _ fun _ => rfl
  · refine follows_bind.2 (iunlock_held_follows hi (by simp) (by simp) ?_)
    refine call_bind_follows ⟨rfl, rfl⟩ (calm_held.urgent _) fun old _ =>
      ⟨{ held (old ::ₘ {i}) [] none 0 with cwdTaken := true }, rfl, ?_⟩
    have hold : old ∈ old ::ₘ ({i} : Multiset ℕ) := Multiset.mem_cons_self _ _
    refine follows_bind.2 (iput_alone_follows ⟨rfl, rfl, rfl⟩ rfl hold rfl
      (by simp [held]) (by simp [held]) ?_)
    rw [give_of_refs (R := {i}) rfl (by simp [held])]
    refine call_bind_follows ⟨rfl, rfl, hi, by simp [Locked, held], by simp [held]⟩ (Calm.urgent ⟨rfl, rfl, rfl⟩ _)
      fun _ _ => ⟨_, rfl, ?_⟩
    refine ⟨Multiset.erase_singleton i, rfl, rfl, rfl, rfl, rfl, fun _ => ?_, rfl, rfl, rfl⟩
    simp [Ghost.next, give, held]

theorem fork_follows (np : Pid) :
    (fork np).Follows (protocol n W A) (fun _ => Settled W) start := by
  refine call_bind_follows ⟨rfl, rfl, rfl⟩ (calm_held.urgent _) fun r _ => ⟨start, rfl, ?_⟩
  split <;> exact settled_held fun _ => rfl

theorem closeAll_follows {fds C : List (Fin NOFILE)} {Q : Unit → Ghost → Prop}
    (hQ : ∀ C', (∀ fd ∈ fds, fd ∈ C') → (∀ fd ∈ C, fd ∈ C') → Q () { start with closed := C' }) :
    (closeAll fds).Follows (protocol n W A) Q { start with closed := C } := by
  induction fds generalizing C with
  | nil => exact hQ C (by simp) fun _ h => h
  | cons fd fds ih =>
    have hrest : (closeAll fds).Follows (protocol n W A) Q { start with closed := fd :: C } := by
      refine ih fun C' hfds hC => hQ C' (fun fd' hfd => ?_) fun fd' hfd =>
        hC fd' (List.mem_cons_of_mem _ hfd)
      rcases List.mem_cons.1 hfd with rfl | hfd
      · exact hC fd' List.mem_cons_self
      · exact hfds fd' hfd
    refine call_bind_follows rfl (Calm.urgent ⟨rfl, rfl, rfl⟩ _) fun r _ => ?_
    cases r with
    | none => exact ⟨_, rfl, hrest⟩
    | some f =>
      refine ⟨{ start with files := {f}, closed := fd :: C }, rfl, ?_⟩
      refine follows_bind.2 (fileclose_follows ⟨rfl, rfl, rfl⟩ rfl rfl rfl rfl
        (Multiset.mem_singleton_self f) ?_)
      rw [Multiset.erase_singleton]
      exact hrest

theorem exit_follows : exit.Follows (protocol n W A) (fun _ => Settled W) start := by
  refine follows_bind.2 (closeAll_follows (C := []) fun C hC _ => ?_)
  refine call_bind_follows ⟨rfl, rfl⟩ (Calm.urgent ⟨rfl, rfl, rfl⟩ _) fun i _ =>
    ⟨{ start with closed := C, refs := {i}, cwdTaken := true }, rfl, ?_⟩
  refine follows_bind.2 (iput_alone_follows ⟨rfl, rfl, rfl⟩ rfl (Multiset.mem_singleton_self i) rfl
    (by simp [start, idle]) (by simp [start, idle]) ?_)
  rw [give_of_refs (R := 0) rfl (by simp [start, idle])]
  refine call_bind_follows ⟨rfl, rfl, fun fd => hC fd (List.mem_finRange fd)⟩
    (Calm.urgent ⟨rfl, rfl, rfl⟩ _) fun _ _ => ⟨_, rfl, ?_⟩
  exact ⟨rfl, rfl, rfl, rfl, rfl, rfl, fun _ => rfl, rfl, rfl, rfl⟩

theorem prog_follows (hn : n ≤ 65536) (c : Call) :
    (c.prog n).Follows (protocol n W A) (fun _ => Settled W) start := by
  cases c with
  | «open» path omode => exact sys_open_follows hn path omode
  | mkdir path => exact mknod_follows hn (by decide)
  | mknod path => exact mknod_follows hn (by decide)
  | link old new => exact sys_link_follows old new
  | unlink path => exact sys_unlink_follows path
  | chdir path => exact sys_chdir_follows path
  | close fd => exact sys_close_follows fd
  | fork np => exact fork_follows np
  | exit => exact exit_follows

end Xv6.Fs
