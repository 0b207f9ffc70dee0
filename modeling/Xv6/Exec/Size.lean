import Xv6.Exec.Machine
import Xv6.Lib.Wp
import Xv6.Syscall.Args
import Mathlib.Logic.Relation

/-!
# The size of a process

`allocuvm` gives no size of `KERNBASE` or more, and `exec` and `growproc` set the size to what it and
`deallocuvm` return; so the size of every process is below `KERNBASE`, whatever the answers to the
operations have been. This is what the checks of system call arguments need.
-/

namespace Xv6.Exec

open Function
open Vm (Layout PGROUNDUP)

variable {L : Layout} {α : Type}

theorem zero_lt_base : 0 < KERNBASE := by
  unfold KERNBASE
  omega

theorem pgsize_lt_base : PGSIZE < KERNBASE := by
  unfold PGSIZE KERNBASE
  omega

/-! ## Sizes that the functions return -/

abbrev anyVm : Task.Protocol Vm.Op Vm.Op.Answer Unit := .only fun _ => True

def SizeOk : Op → Prop
  | .commit p => p.sz < KERNBASE
  | _ => True

theorem vm_follows {Q : α → Unit → Prop} {t : Vm.Sys α} (h : t.Follows anyVm Q ()) :
    (vm t).Follows (.only SizeOk) Q () := by
  induction t with
  | ret a => exact h
  | op o k ih => exact ⟨trivial, fun r hr => ih r (h.2 r hr)⟩
  | panic why => trivial

theorem allocuvm_size (pgdir oldsz newsz : ℕ) :
    (Vm.allocuvm pgdir oldsz newsz).Follows anyVm
      (fun r _ => r ≠ 0 → r = oldsz ∧ newsz < oldsz ∨ r = newsz ∧ newsz < KERNBASE) () := by
  unfold Vm.allocuvm
  split
  · exact fun h => absurd rfl h
  · split
    · next hlt => exact fun _ => .inl ⟨rfl, hlt⟩
    · next hbase _ =>
      refine Task.Follows.bind (Task.follows_only (fun _ => trivial) _) fun ok _ _ => ?_
      cases ok with
      | true => exact fun _ => .inr ⟨rfl, Nat.lt_of_not_le hbase⟩
      | false => exact fun h => absurd rfl h

theorem deallocuvm_size (pgdir oldsz newsz : ℕ) :
    (Vm.deallocuvm pgdir oldsz newsz).Follows anyVm (fun r _ => r ≤ oldsz) () := by
  unfold Vm.deallocuvm
  split
  · exact le_rfl
  · next hlt =>
    refine Task.Follows.bind (Task.follows_only (fun _ => trivial) _) fun _ _ _ => ?_
    exact (Nat.lt_of_not_le hlt).le

theorem growproc_size {sz : ℕ} (pgdir : ℕ) (n : ℤ) (hsz : sz < KERNBASE) :
    (growproc pgdir sz n).Follows anyVm (fun r _ => ∀ sz', r = some sz' → sz' < KERNBASE) () := by
  unfold growproc
  split
  · refine Task.Follows.bind (allocuvm_size ..) fun r _ hr sz' h => ?_
    split at h
    · cases h
    · next hne =>
      cases h
      rcases hr hne with ⟨rfl, -⟩ | ⟨rfl, hlt⟩
      · exact hsz
      · exact hlt
  · split
    · refine Task.Follows.bind (deallocuvm_size ..) fun r _ hr sz' h => ?_
      split at h
      · cases h
      · cases h
        exact hr.trans_lt hsz
    · intro sz' h
      cases h
      exact hsz

/-! ## `exec` -/

/-- The protocol of `exec`. -/
abbrev sizeOk : Task.Protocol Op Op.Answer Unit := .only SizeOk

theorem vm_any (t : Vm.Sys α) : (vm t).Follows sizeOk (fun _ _ => True) () :=
  vm_follows (Task.follows_only (fun _ => trivial) t)

theorem call_any {o : Op} (ho : SizeOk o) : (call o).Follows sizeOk (fun _ _ => True) () :=
  ⟨ho, fun _ _ => trivial⟩

theorem bad_follows (pgdir : Option ℕ) (ip : Bool) :
    (bad pgdir ip).Follows sizeOk (fun _ _ => True) () := by
  have hrest : (do
      if ip = true then do
        call .iunlockput
        call .endOp
      return false : Sys Bool).Follows sizeOk (fun _ _ => True) () := by
    split
    · exact ⟨trivial, fun _ _ => ⟨trivial, fun _ _ => trivial⟩⟩
    · trivial
  cases pgdir with
  | none => exact hrest
  | some d => exact Task.Follows.bind (vm_any _) fun _ _ _ => hrest

theorem loaduvm_follows (pgdir addr offset sz : ℕ) :
    (loaduvm pgdir addr offset sz).Follows sizeOk (fun _ _ => True) () := by
  have hloop : ∀ fuel i, (loaduvmFrom pgdir addr offset sz fuel i).Follows sizeOk
      (fun _ _ => True) () := by
    intro fuel
    induction fuel with
    | zero => exact fun _ => trivial
    | succ fuel ih =>
      intro i
      unfold loaduvmFrom
      split
      · refine Task.Follows.bind (vm_any _) fun x _ _ => ?_
        cases x with
        | none => trivial
        | some x =>
          refine Task.Follows.bind (call_any trivial) fun pte _ _ => ?_
          refine Task.Follows.bind (call_any trivial) fun r _ _ => ?_
          cases r with
          | none => trivial
          | some bs =>
            refine Task.Follows.bind (call_any trivial) fun _ _ _ => ?_
            generalize (if sz - i < PGSIZE then sz - i else PGSIZE) = n
            split
            · exact ih _
            · trivial
      · trivial
  unfold loaduvm
  split
  · trivial
  · exact hloop _ _

theorem readStruct_follows (off n : ℕ) :
    (readStruct off n).Follows sizeOk (fun _ _ => True) () :=
  Task.Follows.bind (call_any trivial) fun _ _ _ => trivial

theorem load_follows (pgdir n : ℕ) {off sz : ℕ} (hsz : sz < KERNBASE) :
    (load pgdir n off sz).Follows sizeOk (fun r _ => ∀ sz', r = some sz' → sz' < KERNBASE) () := by
  induction n generalizing off sz with
  | zero =>
    intro sz' h
    cases h
    exact hsz
  | succ n ih =>
    unfold load
    refine Task.Follows.bind (readStruct_follows ..) fun bs _ _ => ?_
    cases bs with
    | none => exact nofun
    | some bs =>
      dsimp only
      split
      · exact ih hsz
      · split
        · exact nofun
        · split
          · exact nofun
          · refine Task.Follows.bind (vm_follows (allocuvm_size ..)) fun r _ hr => ?_
            split
            · exact nofun
            · next hne =>
              have hr' : r < KERNBASE := by
                rcases hr hne with ⟨rfl, -⟩ | ⟨rfl, hlt⟩
                · exact hsz
                · exact hlt
              split
              · exact nofun
              · refine Task.Follows.bind (loaduvm_follows ..) fun ok _ _ => ?_
                split
                · exact ih hr'
                · exact nofun

theorem buildStack_follows (null : Vm.Sys ℕ) (pgdir sz : ℕ) (argv : List (List Byte)) :
    (buildStack null pgdir sz argv).Follows sizeOk (fun _ _ => True) () := by
  have hargs : ∀ argc sp ptrs, (pushArgs null pgdir argv argc sp ptrs).Follows sizeOk
      (fun _ _ => True) () := by
    induction argv with
    | nil => exact fun _ _ _ => trivial
    | cons s argv ih =>
      intro argc sp ptrs
      unfold pushArgs
      split
      · trivial
      · refine Task.Follows.bind (vm_any _) fun ok _ _ => ?_
        split
        · exact ih _ _ _
        · trivial
  refine Task.Follows.bind (hargs _ _ _) fun r _ _ => ?_
  cases r with
  | none => trivial
  | some x => exact Task.Follows.bind (vm_any _) fun _ _ _ => trivial

theorem execStack_follows {sz : ℕ} (pgdir oldpgdir entry : ℕ) (path : List Byte)
    (argv : List (List Byte)) (hsz : sz < KERNBASE) :
    (execStack pgdir sz oldpgdir entry path argv).Follows sizeOk (fun _ _ => True) () := by
  unfold execStack
  refine Task.Follows.bind (vm_follows (allocuvm_size ..)) fun r _ hr => ?_
  split
  · exact bad_follows ..
  · next hne =>
    have hr' : r < KERNBASE := by
      rcases hr hne with ⟨-, hlt⟩ | ⟨rfl, hlt⟩
      · -- the sum does not wrap
        unfold KERNBASE at hsz
        unfold PGROUNDUP at hlt
        rw [uint_of_lt (show sz + 4095 < 4294967296 by omega), uint_of_lt] at hlt
        all_goals
          unfold PGSIZE at *
          omega
      · exact hlt
    refine Task.Follows.bind (vm_any _) fun _ _ _ => ?_
    refine Task.Follows.bind (buildStack_follows ..) fun r' _ _ => ?_
    cases r' with
    | none => exact bad_follows ..
    | some sp =>
      refine Task.Follows.bind (call_any hr') fun _ _ _ => ?_
      exact Task.Follows.bind (vm_any _) fun _ _ _ => trivial

theorem exec_follows (L : Layout) (oldpgdir : ℕ) (path : List Byte) (argv : List (List Byte)) :
    (exec L oldpgdir path argv).Follows sizeOk (fun _ _ => True) () := by
  unfold exec
  refine Task.Follows.bind (call_any trivial) fun _ _ _ => ?_
  refine Task.Follows.bind (call_any trivial) fun found _ _ => ?_
  split
  · exact Task.Follows.bind (call_any trivial) fun _ _ _ => trivial
  · refine Task.Follows.bind (call_any trivial) fun _ _ _ => ?_
    refine Task.Follows.bind (readStruct_follows ..) fun r _ _ => ?_
    cases r with
    | none => exact bad_follows ..
    | some bs =>
      dsimp only
      split
      · exact bad_follows ..
      · refine Task.Follows.bind (vm_any _) fun d _ _ => ?_
        cases d with
        | none => exact bad_follows ..
        | some pgdir =>
          refine Task.Follows.bind (load_follows _ _ zero_lt_base) fun r' _ hr' => ?_
          cases r' with
          | none => exact bad_follows ..
          | some sz =>
            refine Task.Follows.bind (call_any trivial) fun _ _ _ => ?_
            refine Task.Follows.bind (call_any trivial) fun _ _ _ => ?_
            exact execStack_follows _ _ _ _ _ (hr' sz rfl)

/-! ## All processes -/

abbrev Sizes := ℕ → Option ℕ

/-- A step of one process, as far as sizes go. Nothing is said of the memory that `growproc` and
`exec` run on. -/
inductive Step (L : Layout) : Sizes → Sizes → Prop
  /-- `userinit`, for the first process. -/
  | userinit {s : Sizes} (i : ℕ) : Step L s (update s i (some PGSIZE))
  /-- `fork`: `np->sz = curproc->sz`. -/
  | fork {s : Sizes} {sz : ℕ} (i j : ℕ) (h : s i = some sz) : Step L s (update s j (some sz))
  | growproc {s : Sizes} {sz sz' pgdir : ℕ} {n : ℤ} {m m' : Vm.Mem} (i : ℕ) (h : s i = some sz)
      (hrun : (growproc pgdir sz n).exec (Vm.Op.perform L) m = some (.inl (some sz'), m')) :
      Step L s (update s i (some sz'))
  | exec {s : Sizes} {t t' : State} {file : Option (List Byte)} {path : List Byte}
      {argv : List (List Byte)} {x : Bool ⊕ String} (i : ℕ) (h : s i = some t.proc.sz)
      (hrun : (exec L t.proc.pgdir path argv).exec (Op.perform L file) t = some (x, t')) :
      Step L s (update s i (some t'.proc.sz))
  /-- The slot is given free. -/
  | wait {s : Sizes} (i : ℕ) : Step L s (update s i none)

def Bounded (s : Sizes) : Prop := ∀ i sz, s i = some sz → sz < KERNBASE

theorem Bounded.update {s : Sizes} {o : Option ℕ} (h : Bounded s) (i : ℕ)
    (ho : ∀ sz, o = some sz → sz < KERNBASE) : Bounded (update s i o) := by
  intro j sz hj
  by_cases hji : j = i
  · subst hji
    rw [update_self] at hj
    exact ho sz hj
  · rw [update_of_ne hji] at hj
    exact h j sz hj

theorem perform_size {file : Option (List Byte)} (o : Op) (s : State) (r : o.Answer) (s' : State)
    (ho : SizeOk o) (h : o.perform L file s = some (r, s')) (hs : s.proc.sz < KERNBASE) :
    s'.proc.sz < KERNBASE := by
  cases o with
  | vm o =>
    obtain ⟨x, -, hx⟩ := Option.map_eq_some_iff.1 h
    obtain ⟨-, rfl⟩ := Prod.mk.inj hx
    exact hs
  | beginOp =>
    cases h
    exact hs
  | commit p =>
    cases h
    exact ho
  | endOp | ilock | iunlockput | readi =>
    unfold Op.perform at h
    dsimp only at h
    split at h
    · cases h
      exact hs
    · cases h
  | namei =>
    unfold Op.perform at h
    dsimp only at h
    split at h
    · cases file with
      | none =>
        cases h
        exact hs
      | some a =>
        cases h
        exact hs
    · cases h

theorem Step.bounded {s s' : Sizes} (h : Step L s s') (hs : Bounded s) : Bounded s' := by
  cases h with
  | userinit i =>
    refine hs.update i fun sz hsz => ?_
    cases hsz
    exact pgsize_lt_base
  | fork i j h =>
    refine hs.update j fun sz hsz => ?_
    cases hsz
    exact hs i _ h
  | growproc i h hrun =>
    obtain ⟨-, hr⟩ := Task.Follows.exec_only (I := fun _ => True) (fun _ _ _ _ _ _ _ => trivial)
      (growproc_size _ _ (hs i _ h)) trivial hrun
    exact hs.update i (hr _ rfl)
  | exec i h hrun =>
    obtain ⟨hsz, -⟩ := Task.Follows.exec_only (I := fun t : State => t.proc.sz < KERNBASE)
      perform_size (exec_follows ..) (hs i _ h) hrun
    refine hs.update i fun sz heq => ?_
    cases heq
    exact hsz
  | wait i => exact hs.update i nofun

theorem bounded_of_reachable {s : Sizes}
    (h : Relation.ReflTransGen (Step L) (fun _ => none) s) : Bounded s := by
  induction h with
  | refl => exact nofun
  | tail _ hstep ih => exact hstep.bounded ih

def forked : Sizes :=
  update (update (fun _ => none) 0 (some PGSIZE)) 1 (some PGSIZE)

theorem forked_reachable (L : Layout) :
    Relation.ReflTransGen (Step L) (fun _ => none) forked := by
  refine Relation.ReflTransGen.tail (.single (.userinit 0)) ?_
  exact .fork 0 1 (update_self ..)

end Xv6.Exec
