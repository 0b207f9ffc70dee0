import Xv6.Fs.Entries
import Xv6.Fs.Protocol

/-!
# The calls keep to the protocol

One lemma for each function of `Xv6.Fs.Calls` says from which ghost states it keeps to the protocol
and in which it leaves the call, for any postcondition. They are used from the inner functions to
the system calls, and `prog_follows` is what the others use.
-/

namespace Xv6.Fs

open Xv6.Task

namespace Ghost

variable {g : Ghost} {i j dp : ℕ} {c x : Inode} {R : Multiset ℕ}

/-- Nothing has to be done at once. -/
structure Calm (g : Ghost) : Prop where
  window : g.window = none
  freeing : g.freeing = none
  drops : g.drops = 0

theorem Calm.urgent (h : g.Calm) (o : Op) : g.Urgent o where
  window i hi := by simp [h.window] at hi
  freeing i hi := by simp [h.freeing] at hi
  drops i hi := by simp [h.drops] at hi

theorem known_of_locks {L : List (ℕ × Option Inode)} {y : Option Inode}
    (h : g.locks = (i, y) :: L) : g.known i = y := by
  cases y <;> simp [known, h]

theorem known_of_locks_of_ne {L : List (ℕ × Option Inode)} {y z : Option Inode}
    (h : g.locks = (i, y) :: (j, z) :: L) (hne : j ≠ i) : g.known j = z := by
  have hji : (j == i) = false := by simpa using hne
  cases z <;> simp [known, h, List.lookup_cons, hji]

theorem locked_of_locks {L : List (ℕ × Option Inode)} {y : Option Inode}
    (h : g.locks = (i, y) :: L) : g.Locked i := by
  simp [Locked, h]

theorem learn_of_locks {L : List (ℕ × Option Inode)} {y : Option Inode} (z : Option Inode)
    (h : g.locks = (i, y) :: L) (hn : i ∉ L.map Prod.fst) :
    g.learn i z = { g with locks := (i, z) :: L } := by
  have hL : (L.map fun w => if w.1 = i then (i, z) else w) = L := by
    conv_rhs => rw [← List.map_id L]
    refine List.map_congr_left fun w hw => ?_
    have hne : w.1 ≠ i := by
      rintro rfl
      exact hn (List.mem_map_of_mem hw)
    rw [if_neg hne]
    rfl
  simp only [learn, h, List.map_cons, if_true, hL]

theorem unlock_of_locks {L : List (ℕ × Option Inode)} {y : Option Inode}
    (h : g.locks = (i, y) :: L) (hn : i ∉ L.map Prod.fst) :
    g.unlock i = { g with locks := L } := by
  have hL : L.filter (·.1 ≠ i) = L := by
    rw [List.filter_eq_self]
    intro w hw
    simp only [decide_eq_true_eq]
    rintro rfl
    exact hn (List.mem_map_of_mem hw)
  simp only [unlock, h]
  rw [List.filter_cons_of_neg (by simp), hL]

theorem give_of_refs (h : g.refs = i ::ₘ R) (hD : ∀ y ∈ g.debt, y.1 ∈ R) :
    g.give i = { g with refs := R } := by
  have hR : g.refs.erase i = R := by rw [h, Multiset.erase_cons_head]
  simp only [give, hR]
  split
  · rfl
  · rename_i hi
    have : g.debt.filter (·.1 ≠ i) = g.debt := by
      rw [Multiset.filter_eq_self]
      rintro y hy rfl
      exact hi (hD y hy)
    rw [this]

end Ghost

open Ghost

variable {n : ℕ} {W A : Prop} {α : Type} {g : Ghost} {i dp : ℕ} {c : Inode} {R : Multiset ℕ}

theorem call_bind_follows {o : Op} {f : o.Answer → Sys α} {Q : α → Ghost → Prop}
    (ha : allows n W A g o) (hu : g.Urgent o)
    (h : ∀ r, answers n W A g o r →
      ∃ g', g.next o r = g' ∧ (f r).Follows (protocol n W A) Q g') :
    (call o >>= f).Follows (protocol n W A) Q g := by
  refine follows_bind.2 ⟨⟨ha, hu⟩, fun r hr => ?_⟩
  obtain ⟨g', rfl, hrest⟩ := h r hr
  exact hrest

theorem call_follows {o : Op} {Q : o.Answer → Ghost → Prop} (ha : allows n W A g o)
    (hu : g.Urgent o) (h : ∀ r, answers n W A g o r → Q r (g.next o r)) :
    (call o).Follows (protocol n W A) Q g :=
  ⟨⟨ha, hu⟩, h⟩

theorem panicUnless_follows {b : Prop} [Decidable b] {why : String} {Q : Unit → Ghost → Prop}
    (hQ : b → Q () g) (hwhy : ¬ b → W → why ≠ "ilock: no type") :
    (panicUnless b why).Follows (protocol n W A) Q g := by
  unfold panicUnless
  split
  · exact hQ ‹_›
  · exact hwhy ‹_›

/-! ## Inodes -/

theorem iget_follows {site : Site} {Q : Unit → Ghost → Prop} (hg : g.Calm)
    (ha : allows n W A g (.iget site i))
    (hQ : (A → site ≠ .dirlink dot ∧ site ≠ .dirlink dotdot) →
      Q () { g with refs := i ::ₘ g.refs }) :
    (iget site i).Follows (protocol n W A) Q g := by
  refine call_bind_follows ha (hg.urgent _) fun r hr => ⟨_, rfl, ?_⟩
  refine panicUnless_follows (fun hr' => ?_) fun _ _ => by decide
  subst hr'
  exact hQ hr

theorem ilock_follows {Q : Unit → Ghost → Prop} (hg : g.Calm) (hi : i ∈ g.refs)
    (hA : A → g.Orders i)
    (hQ : ∀ c, c.type ≠ .free → 0 < i → i < n →
      (∀ type, (i, type) ∈ g.debt → c.type = type) → ¬ g.Locked i →
      (W → ∀ type, g.fresh = some (i, type) → c = ⟨type, 0, []⟩) →
      (W → (∀ type, g.fresh ≠ some (i, type)) → c.type = .dir →
        find dot c.ents ≠ none ∧ find dotdot c.ents ≠ none) →
      Q () { g with locks := (i, some c) :: g.locks }) :
    (ilock i).Follows (protocol n W A) Q g := by
  refine call_bind_follows hi (hg.urgent _) fun r hr => ⟨g, rfl, ?_⟩
  refine follows_bind.2 (panicUnless_follows (fun _ => ?_) fun _ _ => by decide)
  have hsite : Site.other = .parent → g.window = some i := fun h => by cases h
  refine call_bind_follows ⟨hi, hsite, hA⟩ (hg.urgent _) fun _ hlocked =>
    ⟨{ g with locks := (i, none) :: g.locks }, by rw [hg.window]; rfl, ?_⟩
  -- The lock is held from here on, and the inode is read.
  have hcalm : Calm { g with locks := (i, none) :: g.locks } := ⟨hg.window, hg.freeing, hg.drops⟩
  refine call_bind_follows ⟨hi, locked_of_locks rfl, known_of_locks rfl⟩ (hcalm.urgent _) ?_
  intro r ⟨hc, hsound, hfresh, hdots⟩
  refine ⟨{ g with locks := (i, r) :: g.locks }, learn_of_locks _ rfl hlocked, ?_⟩
  refine panicUnless_follows (fun hr => ?_) fun hr hW => absurd (hsound hW) hr
  obtain ⟨c, rfl⟩ := Option.ne_none_iff_exists'.1 hr
  obtain ⟨htype, hpos, hlt, hdebt⟩ := hc c rfl
  exact hQ c htype hpos hlt hdebt hlocked
    (fun hW type ht => Option.some.inj (hfresh hW type ht)) fun hW hn => hdots hW hn c rfl

theorem iunlock_follows {site : Site} {Q : Unit → Ghost → Prop} (hg : g.Calm) (hi : i ∈ g.refs)
    (hl : g.Locked i) (hd : W → (i, .dir) ∉ g.debt)
    (hQ : Q () { g.unlock i with window := if site = .parent then some i else none }) :
    (iunlock site i).Follows (protocol n W A) Q g := by
  refine call_bind_follows ⟨hi, hl⟩ (hg.urgent _) fun r hr => ⟨g, rfl, ?_⟩
  refine follows_bind.2 (panicUnless_follows (fun _ => ?_) fun hr' => absurd hr hr')
  exact call_follows ⟨hl, hg.freeing, hd⟩ (hg.urgent _) fun _ _ => hQ

theorem iput_end_follows {Q : Unit → Ghost → Prop} {L : List (ℕ × Option Inode)}
    {y : Option Inode} (hl : g.locks = (i, y) :: L) (hn : i ∉ L.map Prod.fst)
    (hw : g.window = none) (hf : g.freeing = none) (hdrop : g.drops = {i})
    (hd : W → (i, .dir) ∉ g.debt) (hQ : Q () { g with locks := L, drops := 0 }) :
    (do call (.releasesleep .other i); call (.drop i)).Follows (protocol n W A) Q g := by
  have hlock : g.Locked i := locked_of_locks hl
  have hu : g.Urgent (.releasesleep .other i) := by
    refine ⟨fun j hj => by simp [hw] at hj, fun j hj => by simp [hf] at hj, fun j hj hnl => ?_⟩
    rw [hdrop, Multiset.mem_singleton] at hj
    exact absurd (hj ▸ hlock) hnl
  refine call_bind_follows ⟨hlock, hf, hd⟩ hu fun _ _ => ⟨{ g with locks := L }, ?_, ?_⟩
  · show { g.unlock i with window := none } = _
    rw [unlock_of_locks hl hn, ← hw]
  · have hmem : i ∈ g.drops := by simp [hdrop]
    refine call_follows ⟨hmem, hn⟩
      ⟨fun j hj => by simp [hw] at hj, fun j hj => by simp [hf] at hj, fun j hj _ => ?_⟩ ?_
    · rw [Multiset.mem_singleton.1 (hdrop ▸ hj : j ∈ ({i} : Multiset ℕ))]
    · intro _ _
      have hzero : g.drops.erase i = 0 := by rw [hdrop]; simp
      show Q () { g with locks := L, drops := g.drops.erase i }
      rw [hzero]
      exact hQ

theorem iput_follows {site : Site} {Q : Unit → Ghost → Prop} (hf : g.freeing = none)
    (hdrop : g.drops = 0) (hi : i ∈ g.refs)
    (hw : ∀ j, g.window = some j → site = .parent ∧ j = i)
    (hs : site = .parent → g.window = some i) (hA : A → g.Orders i)
    (hfresh : W ∨ A → g.fresh = none) (hd : W → (i, .dir) ∉ g.debt)
    (hD : W → i ∈ g.refs.erase i ∨ ∀ x ∈ g.debt, x.1 ≠ i)
    (hQ : Q () { g.give i with window := none }) :
    (iput site i).Follows (protocol n W A) Q g := by
  have hu : g.Urgent (.acquiresleep site i) := by
    refine ⟨fun j hj => ?_, fun j hj => by simp [hf] at hj, fun j hj => by simp [hdrop] at hj⟩
    obtain ⟨rfl, rfl⟩ := hw j hj
    rfl
  refine call_bind_follows ⟨hi, hs, hA⟩ hu fun _ hlocked =>
    ⟨{ g with locks := (i, none) :: g.locks, window := none }, rfl, ?_⟩
  have hcalm : ∀ y, Calm { g with locks := (i, y) :: g.locks, window := none } :=
    fun y => ⟨rfl, hf, hdrop⟩
  -- However the test ends, the reference is dropped with the inode locked.
  have hend : ∀ y, (do call (.releasesleep .other i); call (.drop i)).Follows (protocol n W A) Q
      (doom { g with locks := (i, y) :: g.locks, window := none } i) := by
    intro y
    refine iput_end_follows (L := g.locks) (y := y) rfl hlocked rfl hf ?_ ?_ ?_
    · simp [doom, hdrop]
    · exact fun hW hmem => hd hW (mem_debt_of_give (g := g) hmem)
    · rw [← hdrop]
      exact hQ
  refine call_bind_follows ⟨hi, locked_of_locks rfl, known_of_locks rfl, hf, hdrop, hfresh, hD⟩
    ((hcalm none).urgent _) fun r _ => ?_
  obtain ⟨valid, ip⟩ := r
  have hlearn : learn { g with locks := (i, none) :: g.locks, window := none } i (some ip) =
      { g with locks := (i, some ip) :: g.locks, window := none } := learn_of_locks _ rfl hlocked
  cases valid with
  | false => exact ⟨_, rfl, follows_bind.2 (hend none)⟩
  | true =>
    by_cases hnlink : ip.nlink = 0
    · refine ⟨{ g with locks := (i, some ip) :: g.locks, window := none }, ?_, ?_⟩
      · simp only [Ghost.next, hnlink, if_true, hlearn]
      rw [iputFree, if_pos ⟨rfl, hnlink⟩]
      refine follows_bind.2 (call_bind_follows ⟨hi, hf, hdrop, hfresh, hD, ip,
        known_of_locks rfl, hnlink⟩ ((hcalm _).urgent _) fun r _ => ?_)
      by_cases hr : r = 1
      · refine ⟨_, if_pos hr, ?_⟩
        rw [if_pos hr]
        refine call_follows ⟨hi, rfl, hfresh, hD, ip, known_of_locks rfl, hnlink⟩ ⟨fun j hj => ?_, fun j hj => ?_,
          fun j hj => ?_⟩ fun _ _ => ?_
        · cases hj
        · obtain rfl : i = j := Option.some.inj hj
          rfl
        · simp [hdrop] at hj
        · simp only [Ghost.next]
          rw [learn_of_locks none rfl hlocked]
          have := hend none
          simp only [doom, give, hf] at this ⊢
          exact this
      · refine ⟨_, if_neg hr, ?_⟩
        rw [if_neg hr]
        exact hend (some ip)
    · refine ⟨doom { g with locks := (i, some ip) :: g.locks, window := none } i, ?_, ?_⟩
      · simp only [Ghost.next, if_true, if_neg hnlink, hlearn]
      · rw [iputFree, if_neg fun h => hnlink h.2]
        exact follows_bind.2 (hend (some ip))

theorem iput_alone_follows {Q : Unit → Ghost → Prop} (hg : g.Calm) (hl : g.locks = [])
    (hi : i ∈ g.refs) (hfresh : g.fresh = none) (hdir : W → (i, .dir) ∉ g.debt)
    (hD : W → i ∈ g.refs.erase i ∨ ∀ x ∈ g.debt, x.1 ≠ i) (hQ : Q () (g.give i)) :
    (iput .other i).Follows (protocol n W A) Q g := by
  refine iput_follows hg.freeing hg.drops hi (fun j hj => ?_) (fun h => by cases h)
    (fun _ => .inl ⟨hfresh, .inl hl⟩) (fun _ => hfresh) hdir hD ?_
  · exact absurd (hg.window ▸ hj : (none : Option ℕ) = some j) (by simp)
  · rw [← hg.window]
    exact hQ

theorem iunlockput_follows {Q : Unit → Ghost → Prop} (hg : g.Calm) (hl : g.locks = [(i, some c)])
    (hi : i ∈ g.refs) (hfresh : g.fresh = none) (hdir : W → (i, .dir) ∉ g.debt)
    (hD : W → i ∈ g.refs.erase i ∨ ∀ x ∈ g.debt, x.1 ≠ i)
    (hQ : Q () { g.give i with locks := [] }) :
    (iunlockput .other i).Follows (protocol n W A) Q g := by
  refine follows_bind.2 (iunlock_follows hg hi (locked_of_locks hl) hdir ?_)
  have hunlock : { g.unlock i with window := if Site.other = .parent then some i else none } =
      { g with locks := [] } := by
    rw [unlock_of_locks hl (by simp), if_neg (by decide), ← hg.window]
  rw [hunlock]
  exact iput_alone_follows ⟨hg.window, hg.freeing, hg.drops⟩ rfl hi hfresh hdir hD hQ

theorem keeps_debt {S : Multiset ℕ} {D : Multiset (ℕ × Itype)} (hS : S = i ::ₘ R)
    (hD : ∀ x ∈ D, x.1 ∈ R) : i ∈ S.erase i ∨ ∀ x ∈ D, x.1 ≠ i := by
  rw [hS, Multiset.erase_cons_head]
  by_cases hi : i ∈ R
  · exact .inl hi
  · refine .inr ?_
    rintro x hx rfl
    exact hi (hD x hx)

/-! ## Directories -/

theorem dirlookup_follows {site : Site} {name : Name} {Q : Option (ℕ × ℕ) → Ghost → Prop}
    (hg : g.Calm) (hk : g.known dp = some c)
    (hnone : c.type = .dir → find name c.ents = none → Q none g)
    (hsome : ∀ inum off e, c.type = .dir → find name c.ents = some (inum, off) →
      (A → site ≠ .dirlink dot ∧ site ≠ .dirlink dotdot) → c.ents[off]? = some e →
      e.inum = inum → inum ≠ 0 → e.name = name →
      Q (some (inum, off)) { g with refs := inum ::ₘ g.refs }) :
    (dirlookup site dp name).Follows (protocol n W A) Q g := by
  refine call_bind_follows ⟨c, hk⟩ (hg.urgent _) fun d hd => ⟨g, rfl, ?_⟩
  obtain rfl : c = d := Option.some.inj (hk.symm.trans hd)
  refine follows_bind.2 (panicUnless_follows (fun hdir => ?_) fun _ _ => by decide)
  cases hfind : find name c.ents with
  | none => exact hnone hdir hfind
  | some x =>
    obtain ⟨inum, off⟩ := x
    obtain ⟨e, he, hinum, hne, hname⟩ := find_eq_some hfind
    refine follows_bind.2 (iget_follows hg ?_ fun hA => ?_)
    · exact .inr (.inr ⟨dp, c, e, hk, hdir, List.mem_of_getElem? he, hinum, hne⟩)
    · exact hsome inum off e hdir hfind hA he hinum hne hname

/-! ## Paths -/

theorem namexFrom_follows {parent : Bool} {path : List Name}
    {Q : Option (ℕ × Name) → Ghost → Prop} (hg : g.Calm) (hl : g.locks = [])
    (hfresh : g.fresh = none) (hR : g.refs = i ::ₘ R) (hD : ∀ x ∈ g.debt, x.1 ∈ R)
    (hdir : W → ∀ j, (j, .dir) ∉ g.debt) (hnone : Q none { g with refs := R })
    (hsome : ∀ j name, Q (some (j, name)) { g with refs := j ::ₘ R }) :
    (namexFrom parent i path).Follows (protocol n W A) Q g := by
  have hi : i ∈ g.refs := by simp [hR]
  have horder : A → g.Orders i := fun _ => .inl ⟨hfresh, .inl hl⟩
  induction path generalizing i g with
  | nil =>
    rw [namexFrom]
    split
    · refine follows_bind.2 (iput_alone_follows hg hl hi hfresh (fun hW => hdir hW i)
        (fun _ => keeps_debt hR hD) ?_)
      rw [give_of_refs hR hD]
      exact hnone
    · have := hsome i []
      rw [← hR] at this
      exact this
  | cons name rest ih =>
    refine follows_bind.2 (ilock_follows hg hi horder fun c hc _ _ _ _ _ _ => ?_)
    rw [hl]
    have hcalm : Calm { g with locks := [(i, some c)] } := ⟨hg.window, hg.freeing, hg.drops⟩
    have hput : ∀ (R' : Multiset ℕ) (Q' : Unit → Ghost → Prop), (∀ x ∈ g.debt, x.1 ∈ R') →
        Q' () { g with refs := R' } →
        (iunlockput .other i).Follows (protocol n W A) Q'
          { g with refs := i ::ₘ R', locks := [(i, some c)] } := by
      intro R' Q' hD' hQ'
      refine iunlockput_follows ⟨hg.window, hg.freeing, hg.drops⟩ rfl (Multiset.mem_cons_self _ _)
        hfresh (fun hW => hdir hW i) (fun _ => keeps_debt rfl hD') ?_
      rw [give_of_refs (g := { g with refs := i ::ₘ R', locks := [(i, some c)] }) rfl hD', ← hl]
      exact hQ'
    refine call_bind_follows ⟨c, known_of_locks rfl⟩ (hcalm.urgent _) fun d hd => ⟨_, rfl, ?_⟩
    obtain rfl : c = d := Option.some.inj ((known_of_locks rfl).symm.trans hd)
    by_cases htype : c.type ≠ .dir
    · rw [if_pos htype, hR]
      exact follows_bind.2 (hput R _ hD hnone)
    · rw [if_neg htype]
      split
      · refine follows_bind.2 (iunlock_follows hcalm hi (locked_of_locks rfl)
          (fun hW => hdir hW i) ?_)
        rw [unlock_of_locks rfl (by simp), if_neg (by decide)]
        have := hsome i name
        rw [← hR] at this
        show Q (some (i, name)) { g with locks := [], window := none }
        rw [← hl, ← hg.window]
        exact this
      · refine follows_bind.2 (dirlookup_follows hcalm (known_of_locks rfl) (fun _ _ => ?_)
          fun next off e _ _ _ _ _ _ _ => ?_)
        · rw [hR]
          exact follows_bind.2 (hput R _ hD hnone)
        · have hswap : next ::ₘ g.refs = i ::ₘ next ::ₘ R := by
            rw [hR, Multiset.cons_swap]
          refine follows_bind.2 ?_
          show Task.Follows _ _ _ { g with refs := next ::ₘ g.refs, locks := [(i, some c)] }
          rw [hswap]
          refine hput (next ::ₘ R) _ (fun x hx => Multiset.mem_cons_of_mem (hD x hx)) ?_
          exact ih ⟨hg.window, hg.freeing, hg.drops⟩ hl hfresh rfl hD hdir hnone hsome
            (Multiset.mem_cons_self _ _) fun _ => .inl ⟨hfresh, .inl hl⟩

theorem namex_follows {parent : Bool} {path : List Char} {Q : Option (ℕ × Name) → Ghost → Prop}
    (hg : g.Calm) (hl : g.locks = []) (hfresh : g.fresh = none) (hcwd : g.cwdTaken = false)
    (hrun : g.running = true) (hD : ∀ x ∈ g.debt, x.1 ∈ g.refs)
    (hdir : W → ∀ j, (j, .dir) ∉ g.debt) (hnone : Q none g)
    (hsome : ∀ j name, Q (some (j, name)) { g with refs := j ::ₘ g.refs }) :
    (namex path parent).Follows (protocol n W A) Q g := by
  have hfrom : ∀ i, (namexFrom parent i (names path)).Follows (protocol n W A) Q
      { g with refs := i ::ₘ g.refs } := fun i =>
    namexFrom_follows ⟨hg.window, hg.freeing, hg.drops⟩ hl hfresh rfl hD hdir hnone hsome
  unfold namex
  split
  · exact follows_bind.2 (iget_follows hg (.inl rfl) fun _ => hfrom ROOTINO)
  · exact call_bind_follows ⟨hcwd, hrun⟩ (hg.urgent _) fun i _ => ⟨_, rfl, hfrom i⟩

end Xv6.Fs
