import Xv6.Exec.Stack
import Xv6.Vm.Copy

/-!
# The outcomes of `exec`

`exec` builds the new address space from the free list, so that the old one is not touched before
the assignments to the process. Every jump to `bad` frees what has been built, and the inode is
unlocked and the transaction ended on every way out.
-/

namespace Xv6.Exec

open Vm hiding Op Sys call Ends

variable {L : Layout} {T : ℕ → Prop} {file : Option (List Byte)} {D : String → State → Prop}
  {s : State} {d old n sz : ℕ} {S S₀ : Space} {m m₀ : Mem}

/-! ## The old address space -/

theorem old_inv (h : Inv T UserPage m₀ old S₀ none) (hkeeps : Keeps (· ∈ m₀.free) m₀ m)
    (hnodup : m.free.Nodup) (hfree : ∀ pn ∈ m.free, pn ∈ m₀.free) :
    Inv (fun pn => pn ∈ m.free ∨ T pn ∧ pn ∉ m₀.free) UserPage m old S₀ none := by
  have hnot : ∀ {o pn}, Owns UserPage m₀ old S₀ none o pn → o ≠ .free → pn ∉ m₀.free :=
    fun {o pn} ho hne hin =>
      hne (h.ledger.unique ho (show Owns UserPage m₀ old S₀ none .free pn from hin))
  -- the memory is only used for the free list
  have hsame : ∀ {o pn}, o ≠ .free → (Owns UserPage m old S₀ none o pn ↔
      Owns UserPage m₀ old S₀ none o pn) := by
    intro o pn hne
    cases o with
    | free => exact absurd rfl hne
    | hand | dir | tab | page => exact Iff.rfl
  have hback : ∀ {o pn}, Owns UserPage m old S₀ none o pn → Owns UserPage m₀ old S₀ none o pn := by
    intro o pn ho
    by_cases hne : o = .free
    · subst hne
      exact hfree pn ho
    · exact (hsame hne).1 ho
  refine ⟨h.rep.congr (hkeeps old ?_) (fun k t hk ht => hkeeps t ?_) (fun v hv hp => hkeeps _ ?_),
    nofun, ⟨fun {o pn} ho => ?_, fun ho ho' => h.ledger.unique (hback ho) (hback ho'),
    fun {pn} hpn => ?_⟩, hnodup⟩
  · exact hnot (o := .dir) rfl nofun
  · exact hnot (o := .tab k) ⟨hk, ht⟩ nofun
  · exact hnot (o := .page v) ⟨hv, hp, rfl⟩ nofun
  · by_cases hne : o = .free
    · subst hne
      exact .inl ho
    · have ho := (hsame hne).1 ho
      exact .inr ⟨h.ledger.sound ho, hnot ho hne⟩
  · rcases hpn with hin | ⟨hT, hout⟩
    · exact ⟨.free, hin⟩
    · obtain ⟨o, ho⟩ := h.ledger.complete hT
      have hne : o ≠ .free := by
        rintro rfl
        exact hout ho
      exact ⟨o, (hsame hne).2 ho⟩

/-! ## The guard page -/

theorem clearU_spec (w : ℕ) : (Present (clearU w) ↔ Present w) ∧ pageOf (clearU w) = pageOf w ∧
    ¬ User (clearU w) ∧ clearU w ≤ w := by
  unfold clearU Present pageOf User PGSIZE
  omega

theorem clearpteu_ends {D : String → Mem → Prop} {Q : Unit → Mem → Prop} {v : ℕ}
    (h : Inv T UserPage m d S none) (hS : Image L S n) (hU : UserPage v) (hv : v < n)
    (hQ : ∀ m' S', Inv T UserPage m' d S' none → Keeps T m m' → Image L S' n →
      ¬ User (S'.pte v) → Q () m') :
    Vm.Ends L D (clearpteu d (v * PGSIZE)) Q m := by
  have hlt := hU.lt
  have hk : v / 1024 < 1024 := by omega
  obtain ⟨t, ht⟩ := tab_of_present h.rep hlt ((hS.present v hU).2 hv)
  unfold clearpteu
  refine Task.wp_bind.2 (walkpgdir_ends h.rep hlt (fun hnone => ?_) fun t' ht' => ?_)
  · rw [ht] at hnone
    cases hnone
  · cases ht.symm.trans ht'
    dsimp only
    have hword : (m.page t).word (v % 1024) = S.pte v := by
      rw [h.rep.pte hk ht (Nat.mod_lt _ (by decide)), index_of]
    have hbound : S.pte v < 4294967296 := hword ▸ Bytes.word_lt ..
    refine Task.wp_bind.2 (Vm.load_ends ?_)
    rw [hword]
    obtain ⟨hp, hpage, huser, hle⟩ := clearU_spec (S.pte v)
    have htab : Owns UserPage m d S none (.tab (v / 1024)) t := ⟨hk, ht⟩
    refine store_ends (hQ _ (S.put v (clearU (S.pte v)) (S.data v)) ?_ ?_ ⟨fun u hu => ?_,
      fun u hu => ?_, hS.gap⟩ ?_)
    · exact h.setEntry hlt ht (by omega) (fun _ => hp) fun _ _ => hpage
    · exact keeps_setPage (h.ledger.sound htab)
    · by_cases huv : u = v
      · subst huv
        rw [Space.put_pte_self, hp]
        exact hS.present u hu
      · rw [Space.put_pte_of_ne _ _ _ huv]
        exact hS.present u hu
    · have huv : u ≠ v := by
        rintro rfl
        exact hu hU
      rw [Space.put_pte_of_ne _ _ _ huv]
      exact hS.kernel u hu
    · rw [Space.put_pte_self]
      exact huser

/-! ## `bad` -/

/-- Nothing is left of a call of `exec`. -/
structure Undone (s s' : State) : Prop where
  proc : s'.proc = s.proc
  trans : s'.trans = s.trans
  refs : s'.refs = s.refs
  locked : s'.locked = s.locked
  free : ∀ pn, pn ∈ s'.mem.free ↔ pn ∈ s.mem.free
  nodup : s'.mem.free.Nodup
  pages : ∀ pn, pn ∉ s.mem.free → s'.mem.page pn = s.mem.page pn

def State.loading (s : State) (m : Mem) : State :=
  ⟨m, s.proc, s.trans + 1, s.refs + 1, true⟩

theorem iunlockput_ends {α : Type} {Q : α → State → Prop} {t : Sys α} (hlocked : s.locked = false)
    (hQ : Ends L file D t Q { s with mem := m }) :
    Ends L file D (do call .iunlockput; call .endOp; t) Q (s.loading m) := by
  have hput : Op.perform L file .iunlockput (s.loading m) =
      some ((), ⟨m, s.proc, s.trans + 1, s.refs, false⟩) := rfl
  have hend : Op.perform L file .endOp ⟨m, s.proc, s.trans + 1, s.refs, false⟩ =
      some ((), ⟨m, s.proc, s.trans, s.refs, false⟩) := rfl
  refine Task.wp_bind.2 ?_
  rintro _ rfl
  refine ⟨_, _, hput, Task.wp_bind.2 ?_⟩
  rintro _ rfl
  refine ⟨_, _, hend, ?_⟩
  rw [← hlocked]
  exact hQ

section

variable (hL : ∀ {pn}, pn ∈ s.mem.free → L.Usable pn)
include hL

theorem freevm_undone {Q : Unit → State → Prop} {u : State}
    (h : Inv (· ∈ s.mem.free) UserPage m d S none) (hkeeps : Keeps (· ∈ s.mem.free) s.mem m)
    (hQ : ∀ m', Undone s { s with mem := m' } → Q () { u with mem := m' }) :
    Ends L file D (vm (freevm d)) Q { u with mem := m } := by
  refine vm_ends (freevm_ends (fun _ => Iff.rfl) hL h fun m' hall hk => hQ m' ?_)
  exact ⟨rfl, rfl, rfl, rfl, hall.mem, hall.nodup, hkeeps.trans hk⟩

theorem bad_loading_ends {Q : Bool → State → Prop} (hlocked : s.locked = false)
    (h : Inv (· ∈ s.mem.free) UserPage m d S none) (hkeeps : Keeps (· ∈ s.mem.free) s.mem m)
    (hQ : ∀ s', Undone s s' → Q false s') :
    Ends L file D (bad (some d) true) Q (s.loading m) := by
  refine Task.wp_bind.2 (freevm_undone (u := s.loading m) hL h hkeeps fun m' hundone => ?_)
  exact iunlockput_ends hlocked (hQ _ hundone)

theorem bad_ends {Q : Bool → State → Prop} (h : Inv (· ∈ s.mem.free) UserPage m d S none)
    (hkeeps : Keeps (· ∈ s.mem.free) s.mem m) (hQ : ∀ s', Undone s s' → Q false s') :
    Ends L file D (bad (some d) false) Q { s with mem := m } :=
  Task.wp_bind.2 (freevm_undone (u := s) hL h hkeeps fun _ hundone => hQ _ hundone)

end

/-! ## `exec` -/

section

variable (hT : ∀ {pn}, T pn → L.Usable pn) (hold : Inv T UserPage s.mem old S₀ none)
  {path : List Byte} {argv : List (List Byte)} {Q : Bool → State → Prop}
include hT hold

theorem usable_of_free {pn : ℕ} (hpn : pn ∈ s.mem.free) : L.Usable pn :=
  hT (hold.ledger.sound (a := .free) hpn)

theorem freevm_old_ends {Q : Unit → State → Prop} {u : State}
    (h : Inv (· ∈ s.mem.free) UserPage m d S none) (hkeeps : Keeps (· ∈ s.mem.free) s.mem m)
    (hQ : ∀ m', Q () { u with mem := m' }) :
    Ends L file D (vm (freevm old)) Q { u with mem := m } := by
  have hsub : ∀ pn ∈ m.free, pn ∈ s.mem.free := fun pn hpn => h.ledger.sound (a := .free) hpn
  refine vm_ends (freevm_ends (fun _ => Iff.rfl) (fun hpn => ?_)
    (old_inv hold hkeeps h.nodup hsub) fun m' _ _ => hQ m')
  rcases hpn with hin | ⟨hT', -⟩
  · exact usable_of_free hT hold (hsub _ hin)
  · exact hT hT'

theorem execStack_start_ends {entry b : ℕ} (hsz : sz < KERNBASE) (hb : (sz + 4095) / PGSIZE = b)
    (h : Inv (· ∈ s.mem.free) UserPage m d S none) (hkeeps : Keeps (· ∈ s.mem.free) s.mem m)
    (hS : Image L S b)
    (hfalse : KERNBASE ≤ (b + 2) * PGSIZE ∨ AtMost (· ∈ s.mem.free) (1026 + (b + 2)) →
      ∀ s', Undone s s' → Q false s')
    (hnext : ∀ m' S', b + 2 < 524288 → Inv (· ∈ s.mem.free) UserPage m' d S' none →
      Keeps (· ∈ s.mem.free) s.mem m' → Image L S' (b + 2) → ¬ User (S'.pte b) →
      Ends L file D (do
        match ← buildStack (nullWord old) d ((b + 2) * PGSIZE) argv with
        | none => bad (some d) false
        | some sp => do
          call (.commit ⟨d, (b + 2) * PGSIZE, entry, sp, progName path⟩)
          vm (freevm old)
          return true) Q { s with mem := m' }) :
    Ends L file D (execStack d sz old entry path argv) Q { s with mem := m } := by
  have hL : ∀ {pn}, pn ∈ s.mem.free → L.Usable pn := usable_of_free hT hold
  unfold KERNBASE at hsz
  have hb' : b ≤ 524288 := by
    rw [← hb]
    unfold PGSIZE
    omega
  have hsum : uint (b * PGSIZE + 2 * PGSIZE) = (b + 2) * PGSIZE := by
    rw [← Nat.add_mul, uint_of_lt]
    unfold PGSIZE
    omega
  have hround : (b * PGSIZE + 4095) / PGSIZE = b := by
    unfold PGSIZE
    omega
  have hround' : ((b + 2) * PGSIZE + 4095) / PGSIZE = b + 2 := by
    unfold PGSIZE
    omega
  unfold execStack
  rw [PGROUNDUP_eq (by omega), hb]
  dsimp only
  rw [hsum]
  refine Task.wp_bind.2 (vm_ends (allocuvm_ends (by unfold KERNBASE PGSIZE; omega) hL h
    (by rw [hround]; exact hS.present) (fun hbig => ?_) (fun hlt => ?_)
    (fun m' S' h' hk _ hshort => ?_) fun m' S' hnew _ h' hk hgrown => ?_))
  · rw [if_pos rfl]
    exact bad_ends hL h hkeeps (hfalse (.inl hbig))
  · unfold PGSIZE at hlt
    omega
  · rw [if_pos rfl]
    rw [hround'] at hshort
    exact bad_ends hL h' (hkeeps.trans hk) (hfalse (.inr hshort))
  · rw [hround, hround'] at hgrown
    have hlt : b + 2 < 524288 := by
      unfold KERNBASE PGSIZE at hnew
      omega
    have hS' := hS.grown (Nat.le_add_right b 2) hlt.le hgrown
    have hguard : uintOf ((((b + 2) * PGSIZE : ℕ) : ℤ) - 2 * PGSIZE) = b * PGSIZE := by
      unfold uintOf PGSIZE
      omega
    rw [if_neg (by unfold PGSIZE; omega), hguard]
    refine Task.wp_bind.2 (vm_ends (clearpteu_ends h' hS' (show b < 524288 by omega) (by omega)
      fun m'' S'' h'' hk' hS'' huser => ?_))
    exact hnext m'' S'' hlt h'' ((hkeeps.trans hk).trans hk') hS'' huser

theorem execStack_ends {entry : ℕ} (hsz : sz < KERNBASE)
    (h : Inv (· ∈ s.mem.free) UserPage m d S none) (hkeeps : Keeps (· ∈ s.mem.free) s.mem m)
    (hS : Image L S ((sz + 4095) / PGSIZE)) (hargv : ∀ a ∈ argv, a.length < 33554432)
    (hfalse : ∀ s', Undone s s' → Q false s')
    (htrue : ∀ p m', Q true { s with mem := m', proc := p }) :
    Ends L file D (execStack d sz old entry path argv) Q { s with mem := m } := by
  have hL : ∀ {pn}, pn ∈ s.mem.free → L.Usable pn := usable_of_free hT hold
  generalize hb : (sz + 4095) / PGSIZE = b at hS
  refine execStack_start_ends hT hold hsz hb h hkeeps hS (fun _ => hfalse)
    fun m' S' hlt h' hkeeps' hS' huser => ?_
  have hlands : Lands (b + 1) ((b + 1 + 1) * PGSIZE) (argv.take MAXARG) :=
    lands_of_short hlt (Nat.mul_le_mul_right _ (Nat.le_succ _)) le_rfl (Nat.succ_pos b)
      fun a ha => hargv a (List.mem_of_mem_take ha)
  refine Task.wp_bind.2 (buildStack_ends (t := b + 1) (Nat.succ_pos b) hlt hS' huser
    (fun a ha => (hargv a ha).trans (by decide)) hkeeps' h' hlands
    (fun m₁ S₁ h₁ hk₁ => bad_ends hL h₁ hk₁ hfalse) fun m₁ S₁ sp h₁ hk₁ _ _ _ _ => ?_)
  dsimp only
  refine Task.wp_bind.2 ?_
  rintro _ rfl
  refine ⟨_, _, rfl, Task.wp_bind.2 ?_⟩
  exact freevm_old_ends hT hold (u := { s with proc := _ }) h₁ hk₁ fun m₂ => htrue _ m₂

def elfOf (file : Option (List Byte)) : Option Elfhdr :=
  ((structAt file 0 elfhdrSize).map Elfhdr.read).filter fun elf => decide (elf.magic = ELF_MAGIC)

theorem exec_start_ends (hlocked : s.locked = false)
    (hfalse : elfOf file = none ∨ AtMost (· ∈ s.mem.free) 1026 → ∀ s', Undone s s' → Q false s')
    (hnext : ∀ elf d m' S, elfOf file = some elf → Inv (· ∈ s.mem.free) UserPage m' d S none →
      Keeps (· ∈ s.mem.free) s.mem m' → Image L S 0 →
      Ends L file D (do
        match ← load d elf.phnum elf.phoff 0 with
        | none => bad (some d) true
        | some sz => do
          call .iunlockput
          call .endOp
          execStack d sz old elf.entry path argv) Q (s.loading m')) :
    Ends L file D (exec L old path argv) Q s := by
  have hL : ∀ {pn}, pn ∈ s.mem.free → L.Usable pn := usable_of_free hT hold
  have hundone : Undone s s := ⟨rfl, rfl, rfl, rfl, fun _ => Iff.rfl, hold.nodup, fun _ _ => rfl⟩
  have hall : AllFree (· ∈ s.mem.free) s.mem := ⟨fun _ => Iff.rfl, hold.nodup⟩
  -- `bad` without a page directory
  have hbad : ∀ m', Undone s { s with mem := m' } → (∀ s', Undone s s' → Q false s') →
      Ends L file D (bad none true) Q (s.loading m') := fun m' hm' hQ =>
    iunlockput_ends hlocked (hQ _ hm')
  unfold exec
  refine Task.wp_bind.2 ?_
  rintro _ rfl
  refine ⟨_, _, rfl, Task.wp_bind.2 ?_⟩
  rintro _ rfl
  cases file with
  | none =>
    refine ⟨false, { s with trans := s.trans + 1 }, rfl, Task.wp_bind.2 ?_⟩
    rintro _ rfl
    exact ⟨(), s, rfl, hfalse (.inl rfl) s hundone⟩
  | some bytes =>
    refine ⟨true, { s with trans := s.trans + 1, refs := s.refs + 1 }, rfl, Task.wp_bind.2 ?_⟩
    rintro _ rfl
    refine ⟨_, s.loading s.mem, if_pos ⟨Nat.succ_pos _, hlocked⟩, ?_⟩
    refine Task.wp_bind.2 (readStruct_ends rfl ?_)
    unfold elfOf at hfalse hnext
    cases hbs : structAt (some bytes) 0 elfhdrSize with
    | none =>
      rw [hbs] at hfalse
      exact hbad s.mem hundone (hfalse (.inl rfl))
    | some bs =>
      rw [hbs] at hfalse hnext
      dsimp only
      split
      · next hmagic =>
        refine hbad s.mem hundone (hfalse (.inl ?_))
        exact Option.filter_some_neg (by simpa using hmagic)
      · next hmagic =>
        refine Task.wp_bind.2 (vm_ends (s := s.loading s.mem) (setupkvm_ends (U := UserPage) hall hL
          (fun _ => Iff.rfl) (fun m' hall' hk hshort => ?_) fun d m' S h hk htidy hpte => ?_))
        · exact hbad m' ⟨rfl, rfl, rfl, rfl, hall'.mem, hall'.nodup, hk⟩ (hfalse (.inr hshort))
        · refine hnext _ d m' S (Option.filter_some_pos (by simpa using hmagic)) h hk ?_
          refine ⟨fun u hu => ?_, fun u _ => hpte u, fun k hk hk' =>
            Option.eq_none_iff_forall_ne_some.2 fun t => ?_⟩
          · rw [hpte, kernelPte_user L hu]
            exact iff_of_false nofun (Nat.not_lt_zero u)
          · exact gap_of_used (fun u _ => hpte u) hk hk' (htidy k t)

theorem exec_ends (hlocked : s.locked = false) (hargv : ∀ a ∈ argv, a.length < 33554432)
    (hfalse : ∀ s', Undone s s' → Q false s')
    (htrue : ∀ p m', Q true { s with mem := m', proc := p }) :
    Ends L file D (exec L old path argv) Q s := by
  have hL : ∀ {pn}, pn ∈ s.mem.free → L.Usable pn := usable_of_free hT hold
  refine exec_start_ends hT hold hlocked (fun _ => hfalse) fun elf d m' S _ h hk hS => ?_
  refine Task.wp_bind.2 (load_ends (s := s.loading s.mem) rfl hL (by decide) hk h hS
    (fun m'' S' h' hk' => ?_) fun sz m'' S' hsz h' hk' hS' => ?_)
  · exact bad_loading_ends hL hlocked h' hk' hfalse
  · exact iunlockput_ends hlocked (execStack_ends hT hold hsz h' hk' hS' hargv hfalse htrue)

end

/-- Whatever the file is and wherever memory runs out, with arguments shorter than 32 MB: `exec`
returns with the inode unlocked, its reference dropped and the transaction ended, and if it has
failed then nothing is left of the call. -/
theorem exec_undone_of_fails (hT : ∀ {pn}, T pn → L.Usable pn)
    (h : Inv T UserPage s.mem s.proc.pgdir S none) (hlocked : s.locked = false)
    (path : List Byte) {argv : List (List Byte)} (hargv : ∀ a ∈ argv, a.length < 33554432) :
    ∃ r s', (exec L s.proc.pgdir path argv).exec (Op.perform L file) s = some (.inl r, s') ∧
      s'.trans = s.trans ∧ s'.refs = s.refs ∧ s'.locked = false ∧ (r = false → Undone s s') := by
  have hends : Ends L file (fun _ _ => False) (exec L s.proc.pgdir path argv) (fun r s' =>
      s'.trans = s.trans ∧ s'.refs = s.refs ∧ s'.locked = false ∧ (r = false → Undone s s')) s := by
    refine exec_ends hT h hlocked hargv
      (fun s' hs' => ⟨hs'.trans, hs'.refs, hs'.locked.trans hlocked, fun _ => hs'⟩)
      fun p m' => ⟨rfl, rfl, hlocked, nofun⟩
  obtain ⟨r, s', hexec, hr⟩ | ⟨why, s', -, hfalse⟩ := Task.Wp.exec (fun _ => rfl) hends
  · exact ⟨r, s', hexec, hr⟩
  · exact hfalse.elim

/-! ## Two files -/

def header (k : Byte) : List Byte :=
  [127#8, 69#8, 76#8, 70#8] ++ List.replicate 24 0#8 ++ [52#8] ++ List.replicate 15 0#8 ++ [k] ++
    List.replicate 7 0#8

def callerByte (x : ℕ) : Byte :=
  if x < 4096 then (wordBytes (300 * 4096 + 7)).getD x 0#8
  else if x < 4096 + 33562627 then 98#8 else 0#8

def caller : State :=
  ⟨flat someLayout 8200 8200 callerByte (List.range' 20000 2000), ⟨300, 33587200, 0, 0, []⟩, 0, 0,
    false⟩

theorem caller_inv : Inv (FlatPage someLayout 8200 8200 callerByte (List.range' 20000 2000)) UserPage
    caller.mem 300 (caller.mem.space 300) none :=
  flat_inv someLayout 8200 8200 callerByte _ (by decide) (fun _ h => (List.mem_range'_1.1 h).1)
    List.nodup_range'

theorem caller_usable {pn : ℕ}
    (h : FlatPage someLayout 8200 8200 callerByte (List.range' 20000 2000) pn) :
    someLayout.Usable pn := by
  obtain ⟨o, ho⟩ := h
  obtain ⟨-, hlow, hhigh⟩ := flat_owns (by decide) (fun _ h => (List.mem_range'_1.1 h).1) ho
  rw [List.mem_range'_1] at hhigh
  show 1130496 ≤ pn * 4096 ∧ pn * 4096 < 234881024
  omega

theorem caller_not_atMost {n : ℕ} (hn : n < 2000) : ¬ AtMost (· ∈ caller.mem.free) n := by
  intro h
  have := h (List.range' 20000 2000) List.nodup_range' fun _ => id
  rw [List.length_range'] at this
  omega

/-- The program header is not in the file: `exec` fails when it has made the kernel part of the
address space. -/
theorem exec_undone_of_fails_header :
    ∃ s', (exec someLayout 300 [47#8, 97#8] [[97#8]]).exec (Op.perform someLayout (some (header 1#8)))
        caller = some (.inl false, s') ∧ Undone caller s' := by
  obtain ⟨r, s', hexec, hr⟩ : ∃ r s', (exec someLayout 300 [47#8, 97#8] [[97#8]]).exec
      (Op.perform someLayout (some (header 1#8))) caller = some (.inl r, s') ∧ s'.trans = 0 ∧
      s'.refs = 0 ∧ s'.locked = false ∧ (r = false → Undone caller s') :=
    exec_undone_of_fails (s := caller) caller_usable caller_inv rfl [47#8, 97#8] (by decide)
  have hends : Ends someLayout (some (header 1#8)) (fun _ _ => False)
      (exec someLayout 300 [47#8, 97#8] [[97#8]]) (fun r _ => r = false) caller := by
    refine exec_start_ends caller_usable caller_inv rfl (fun _ _ _ => rfl)
      fun elf d m' S helf h hk _ => ?_
    obtain ⟨hnum, hoff⟩ : elf.phnum = 1 ∧ elf.phoff = 52 := by
      cases helf
      decide
    rw [hnum, hoff]
    unfold load
    refine Task.wp_bind.2 (Task.wp_bind.2 (readStruct_ends rfl ?_))
    exact bad_loading_ends (usable_of_free caller_usable caller_inv) rfl h hk fun _ _ => rfl
  obtain ⟨r', s'', hexec', rfl⟩ | ⟨why, s'', -, hfalse⟩ := Task.Wp.exec (fun _ => rfl) hends
  · cases hexec.symm.trans hexec'
    exact ⟨s', hexec, hr.2.2.2 rfl⟩
  · exact hfalse.elim

/-! ## A null pointer -/

theorem nullWord_ends {D : String → Mem → Prop} {Q : ℕ → Mem → Prop} (h : Rep UserPage m d S)
    (hp : Present (S.pte 0)) (hword : pageOf ((S.data 0).word 0) * PGSIZE < PHYSTOP)
    (hQ : Q ((S.data 0).word 0) m) : Vm.Ends L D (nullWord d) Q m := by
  obtain ⟨t, ht⟩ := tab_of_present h (show 0 < 1048576 by decide) hp
  have hzero : walkpgdir d 0 false = walkpgdir d (0 * PGSIZE) false := by rw [Nat.zero_mul]
  unfold nullWord
  rw [hzero]
  refine Task.wp_bind.2 (walkpgdir_ends h (show 0 < 1048576 by decide) (fun hnone => ?_)
    fun t' ht' => ?_)
  · rw [ht] at hnone
    cases hnone
  · refine Task.wp_bind.2 (Vm.load_ends ?_)
    rw [h.pte (by decide) ht' (Nat.mod_lt _ (by decide)), index_of, if_neg (not_not.2 hp)]
    refine Task.wp_bind.2 (Vm.load_ends ?_)
    rw [h.data (show 0 < 524288 by decide) hp, if_neg (Nat.not_le.2 hword)]
    exact hQ

theorem inv_setPage {pn : ℕ} {b : Bytes} (h : Inv T UserPage m d S none) (hpn : ¬ T pn) :
    Inv T UserPage (m.setPage pn b) d S none := by
  have hsame : ∀ {q}, T q → (m.setPage pn b).page q = m.page q := by
    intro q hq
    refine Mem.setPage_of_ne _ _ ?_
    rintro rfl
    exact hpn hq
  refine ⟨h.rep.congr (hsame (h.ledger.sound (a := .dir) rfl)) (fun k t hk ht => ?_)
    (fun v hv hp => ?_), nofun, h.ledger.congr (fun _ => Iff.rfl) (fun o q => ?_), h.nodup⟩
  · exact hsame (h.ledger.sound (a := .tab k) ⟨hk, ht⟩)
  · exact hsame (h.ledger.sound (a := .page v) ⟨hv, hp, rfl⟩)
  · cases o <;> exact Iff.rfl

theorem copyout_null_ends {D : String → Mem → Prop} {Q : Bool → Mem → Prop} {null : Vm.Sys ℕ}
    {bs : List Byte} {pn : ℕ} (hbs : 4 < bs.length) (h : Inv T UserPage m d S none)
    (hS : Image L S n) (hpn : ¬ T pn)
    (hnull : ∀ Q : ℕ → Mem → Prop, Q (pn * 4096 + 7) m → Vm.Ends L D null Q m)
    (hQ : Q false (m.setPage pn ((m.page pn).splice 4092 (bs.take 4)))) :
    Vm.Ends L D (copyout null d 4261412860 bs) Q m := by
  obtain ⟨k, hk⟩ : ∃ k, bs.length = k + 1 := ⟨bs.length - 1, by omega⟩
  have hword : Present (pn * 4096 + 7) ∧ User (pn * 4096 + 7) ∧ pageOf (pn * 4096 + 7) = pn := by
    unfold Present User pageOf PGSIZE
    omega
  -- where the first page is, and the next one
  have hfirst : PGROUNDDOWN 4261412860 = 1040383 * PGSIZE := rfl
  have hoff : 4261412860 - 1040383 * PGSIZE = 4092 := rfl
  have hfour : PGSIZE - 4092 = 4 := rfl
  have hnext : uint (1040383 * PGSIZE + PGSIZE) = 1040384 * PGSIZE := uint_next (by decide)
  have hround : PGROUNDDOWN (1040384 * PGSIZE) = 1040384 * PGSIZE := rfl
  have hdrop : 0 < (bs.drop 4).length := by
    rw [List.length_drop]
    omega
  have htab : S.tab (1040384 / 1024) ≠ none := by
    have hp : Present (S.pte 1040384) := by
      rw [hS.kernel 1040384 (by unfold UserPage; omega)]
      exact kernelPte_present L (by omega)
    obtain ⟨t, ht⟩ := tab_of_present h.rep (by omega) hp
    rw [ht]
    nofun
  unfold copyout copyoutFrom uva2ka
  rw [if_pos (by omega), hfirst]
  dsimp only
  rw [hoff, hfour, if_neg (by omega), hnext, hk]
  refine Task.wp_bind.2 (Task.wp_bind.2 (walkpgdir_ends h.rep (by omega) (fun _ => ?_)
    fun t ht => ?_))
  · refine Task.wp_bind.2 (hnull _ ?_)
    rw [if_neg (not_not.2 hword.1), if_neg (not_not.2 hword.2.1), hword.2.2]
    refine Task.wp_bind.2 (write_ends ?_)
    unfold copyoutFrom
    rw [if_pos hdrop, hround]
    refine Task.wp_bind.2 (uva2ka_ends (inv_setPage h hpn).rep hS (by omega) htab (fun _ => hQ)
      fun hU => ?_)
    unfold UserPage at hU
    omega
  · rw [hS.gap _ (by decide) (by decide)] at ht
    cases ht

theorem caller_free {pn : ℕ} : pn ∈ caller.mem.free ↔ 20000 ≤ pn ∧ pn < 20000 + 2000 :=
  List.mem_range'_1

theorem caller_null_ends {D : String → Mem → Prop} {Q : ℕ → Mem → Prop}
    (hkeeps : Keeps (· ∈ caller.mem.free) caller.mem m) (hnodup : m.free.Nodup)
    (hfree : ∀ pn ∈ m.free, pn ∈ caller.mem.free) (hQ : Q (300 * 4096 + 7) m) :
    Vm.Ends L D (nullWord 300) Q m := by
  have hpte : (caller.mem.space 300).pte 0 = 5000 * 4096 + 7 := by
    show (flat someLayout 8200 8200 callerByte (List.range' 20000 2000)).pte 300 0 = _
    rw [flat_pte (by decide)]
    rfl
  have hp : Present ((caller.mem.space 300).pte 0) := by
    rw [hpte]
    decide
  have hword : ((caller.mem.space 300).data 0).word 0 = 300 * 4096 + 7 := by
    rw [← caller_inv.rep.data (show 0 < 524288 by decide) hp, hpte]
    show Bytes.word (fun j => callerByte ((5000 - 5000) * 4096 + j)) 0 = _
    decide
  refine nullWord_ends (old_inv caller_inv hkeeps hnodup hfree).rep hp ?_ ?_
  · rw [hword]
    decide
  · rw [hword]
    exact hQ

theorem exec_changes_of_string {a : List Byte} (hlen : a.length = 33562627)
    (ha : a.take 4 = [98#8, 98#8, 98#8, 98#8]) :
    ∃ s', (exec someLayout 300 [47#8, 97#8] [a]).exec (Op.perform someLayout (some (header 0#8)))
        caller = some (.inl false, s') ∧ s'.mem.page 300 4092 = 98#8 := by
  have hL : ∀ {pn}, pn ∈ caller.mem.free → someLayout.Usable pn :=
    usable_of_free caller_usable caller_inv
  have hends : Ends someLayout (some (header 0#8)) (fun _ _ => False)
      (exec someLayout 300 [47#8, 97#8] [a])
      (fun r s' => r = false ∧ s'.mem.page 300 4092 = 98#8) caller := by
    refine exec_start_ends caller_usable caller_inv rfl (fun hbad => ?_)
      fun elf d m S helf h hk hS => ?_
    · rcases hbad with hbad | hshort
      · cases hbad
      · exact absurd hshort (caller_not_atMost (by decide))
    have hnum : elf.phnum = 0 := by
      cases helf
      decide
    rw [hnum]
    refine iunlockput_ends rfl (execStack_start_ends (b := 0) caller_usable caller_inv (by decide) rfl
      h hk hS (fun hbad => ?_) fun m' S' hlt h' hk' hS' huser => ?_)
    · rcases hbad with hbig | hshort
      · exact absurd hbig (by decide)
      · exact absurd hshort (caller_not_atMost (by decide))
    have hbelow : below ((0 + 2) * PGSIZE) a = 4261412860 := by
      unfold below
      rw [hlen]
      decide
    unfold buildStack pushArgs
    rw [if_neg (by decide), hbelow]
    have hnot : 300 ∉ caller.mem.free := by
      rw [caller_free]
      decide
    refine Task.wp_bind.2 (Task.wp_bind.2 (Task.wp_bind.2 (vm_ends (copyout_null_ends ?_ h' hS' hnot
      (fun Q hQ => ?_) ?_))))
    · rw [List.length_append, hlen]
      decide
    · exact caller_null_ends hk' h'.nodup (fun pn hpn => h'.ledger.sound (a := .free) hpn) hQ
    · rw [List.take_append_of_le_length (by omega), ha]
      refine Task.wp_bind.2 (vm_ends (freevm_ends (fun _ => Iff.rfl) hL (inv_setPage h' hnot)
        fun m'' _ hk'' => ⟨rfl, ?_⟩))
      show m''.page 300 4092 = 98#8
      rw [hk'' 300 hnot, Mem.setPage_self]
      exact Bytes.splice_add _ (j := 0) (by decide)
  obtain ⟨r, s', hexec, rfl, hbyte⟩ | ⟨why, s', -, hfalse⟩ := Task.Wp.exec (fun _ => rfl) hends
  · exact ⟨s', hexec, hbyte⟩
  · exact hfalse.elim

/-- The caller has an argument that is a string of its own. `exec` fails, and the last entry of the
page directory of the caller is four bytes of that string. -/
theorem exec_fails_changed :
    StrAt (caller.mem.byte 300) 4096 33587200 4096 (List.replicate 33562627 98#8) ∧
    ∃ s', (exec someLayout 300 [47#8, 97#8] [List.replicate 33562627 98#8]).exec
        (Op.perform someLayout (some (header 0#8))) caller = some (.inl false, s') ∧
      s'.mem.page 300 4092 = 98#8 ∧ caller.mem.page 300 4092 = 7#8 := by
  have hbyte : ∀ x < 33587200, caller.mem.byte 300 x = callerByte x := by
    intro x hx
    have hlt : x / PGSIZE < 8200 := by
      unfold PGSIZE
      omega
    show (flat someLayout 8200 8200 callerByte (List.range' 20000 2000)).byte 300 x = _
    unfold Mem.byte
    rw [flat_pte (by decide), (flatPte_spec hlt).2.1]
    rw [← Nat.div_add_mod' x PGSIZE] at hx
    nth_rewrite 3 [← Nat.div_add_mod' x PGSIZE]
    generalize x / PGSIZE = v
    unfold flat
    dsimp only
    rw [if_neg (by omega), if_neg (by omega), Nat.add_sub_cancel_left]
    rfl
  refine ⟨⟨le_rfl, ?_, fun j hj => ?_, ?_⟩, ?_⟩
  · rw [List.length_replicate]
    decide
  · rw [List.length_replicate] at hj
    rw [hbyte _ (by omega), List.getElem_replicate]
    unfold callerByte
    rw [if_neg (by omega), if_pos (by omega)]
  · rw [List.length_replicate, hbyte _ (by decide)]
    decide
  · have htake : (List.replicate 33562627 98#8).take 4 = [98#8, 98#8, 98#8, 98#8] :=
      List.take_replicate
    obtain ⟨s', hexec, hs'⟩ := exec_changes_of_string List.length_replicate htake
    exact ⟨s', hexec, hs', by decide⟩

end Xv6.Exec
