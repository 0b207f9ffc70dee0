import Xv6.Exec.Load
import Mathlib.Data.List.Forall2
import Mathlib.Data.List.GetD

/-!
# The stack of a new program

`copyout`, and the part of `exec` that puts the arguments on the stack. The stack is one page; the
page below it, the guard page, cannot be accessed from user space, so that `copyout` fails where it
comes to it. A string that is too long for the stack starts below the guard page, or wraps around:
then it starts in the kernel part, or in the gap below `DEVSPACE`, where there are no page tables. It
has to be longer than all of the part from `DEVSPACE` on for that.
-/

namespace Xv6.Vm

variable {S S' S'' : Space} {va : ℕ} {bs bs' : List Byte}

def Space.byte (S : Space) (x : ℕ) : Byte := S.data (x / PGSIZE) (x % PGSIZE)

def Mem.byte (m : Mem) (d x : ℕ) : Byte := m.page (pageOf (m.pte d (x / PGSIZE))) (x % PGSIZE)

/-- The bytes from `va` on have been written. -/
structure Space.Wrote (S S' : Space) (va : ℕ) (bs : List Byte) : Prop where
  tab : S'.tab = S.tab
  pte : S'.pte = S.pte
  inside : ∀ j, j < bs.length → S'.byte (va + j) = bs.getD j 0#8
  outside : ∀ x, x < va ∨ va + bs.length ≤ x → S'.byte x = S.byte x

theorem Space.Wrote.append (h : S.Wrote S' va bs) (h' : S'.Wrote S'' (va + bs.length) bs') :
    S.Wrote S'' va (bs ++ bs') := by
  refine ⟨h'.tab.trans h.tab, h'.pte.trans h.pte, fun j hj => ?_, fun x hx => ?_⟩
  · rw [List.length_append] at hj
    by_cases hlt : j < bs.length
    · rw [h'.outside _ (.inl (by omega)), h.inside j hlt, List.getD_append _ _ _ _ hlt]
    · rw [List.getD_append_right _ _ _ _ (by omega), ← h'.inside _ (by omega)]
      congr 1
      omega
  · rw [List.length_append] at hx
    rw [h'.outside x (by omega), h.outside x (by omega)]

theorem Space.wrote_put (S : Space) (hlen : va % PGSIZE + bs.length ≤ PGSIZE) :
    S.Wrote (S.put (va / PGSIZE) (S.pte (va / PGSIZE))
      ((S.data (va / PGSIZE)).splice (va % PGSIZE) bs)) va bs := by
  have hpos : 0 < PGSIZE := by decide
  have hva := Nat.div_add_mod va PGSIZE
  have hbyte : ∀ x, x / PGSIZE ≠ va / PGSIZE → (S.put (va / PGSIZE) (S.pte (va / PGSIZE))
      ((S.data (va / PGSIZE)).splice (va % PGSIZE) bs)).byte x = S.byte x := by
    intro x hx
    exact congrFun (Space.put_data_of_ne _ _ _ hx) _
  have hsame : ∀ x, x / PGSIZE = va / PGSIZE → (S.put (va / PGSIZE) (S.pte (va / PGSIZE))
      ((S.data (va / PGSIZE)).splice (va % PGSIZE) bs)).byte x =
        (S.data (va / PGSIZE)).splice (va % PGSIZE) bs (x % PGSIZE) := by
    intro x hx
    unfold Space.byte
    rw [hx, Space.put_data_self]
  refine ⟨rfl, Function.update_eq_self .., fun j hj => ?_, fun x hx => ?_⟩
  · have hdiv : (va + j) / PGSIZE = va / PGSIZE := by
      unfold PGSIZE at *
      omega
    have hmod : (va + j) % PGSIZE = va % PGSIZE + j := by
      unfold PGSIZE at *
      omega
    rw [hsame _ hdiv, hmod, Bytes.splice_add _ hj]
  · by_cases hdiv : x / PGSIZE = va / PGSIZE
    · rw [hsame x hdiv]
      unfold Space.byte
      rw [hdiv]
      rcases hx with hlt | hge
      · refine Bytes.splice_of_lt _ ?_
        unfold PGSIZE at *
        omega
      · refine Bytes.splice_of_le _ ?_
        unfold PGSIZE at *
        omega
    · exact hbyte x hdiv

end Xv6.Vm

namespace Xv6.Exec

open Vm hiding Op Sys call Ends

variable {L : Layout} {T : ℕ → Prop} {file : Option (List Byte)} {s : State} {d n t sp : ℕ}
  {S S₀ : Space} {m m₀ : Mem}

/-! ## `copyout` -/

section Copyout

variable {D : String → Mem → Prop} {null : Vm.Sys ℕ}

theorem uva2ka_ends {Q : Option ℕ → Mem → Prop} {u : ℕ} (h : Rep UserPage m d S)
    (hS : Image L S n) (hu : u < 1048576) (htab : S.tab (u / 1024) ≠ none)
    (hnone : ¬ (u < n ∧ User (S.pte u)) → Q none m)
    (hsome : UserPage u → u < n → User (S.pte u) → Q (some (pageOf (S.pte u))) m) :
    Vm.Ends L D (uva2ka null d (u * PGSIZE)) Q m := by
  unfold uva2ka
  refine Task.wp_bind.2 (walkpgdir_ends h hu (fun hx => absurd hx htab) fun t ht => ?_)
  refine Task.wp_bind.2 (Vm.load_ends ?_)
  rw [h.pte (by omega) ht (Nat.mod_lt _ (by decide)), index_of]
  show Q (if ¬ Present (S.pte u) then none else if ¬ User (S.pte u) then none
    else some (pageOf (S.pte u))) m
  have hpage : User (S.pte u) → UserPage u := by
    intro huser
    by_contra hU
    rw [hS.kernel u hU] at huser
    exact kernelPte_not_user L u huser
  split
  · next hp => exact hnone fun hx => hp ((hS.present u (hpage hx.2)).2 hx.1)
  · next hp =>
    split
    · next huser => exact hnone fun hx => huser hx.2
    · next huser =>
      have huser := not_not.1 huser
      exact hsome (hpage huser) ((hS.present u (hpage huser)).1 (not_not.1 hp)) huser

theorem copyoutFrom_ends {Q : Bool → Mem → Prop} {va fuel : ℕ} {buf : List Byte}
    (hva : va < 4294967296) (hfuel : buf.length < fuel) (hS : Image L S n)
    (hkeeps : Keeps T m₀ m) (h : Inv T UserPage m d S none)
    (htab : ∀ x, va ≤ x → x < va + buf.length → (va / PGSIZE < x / PGSIZE → va / PGSIZE < n) →
      S.tab (x / PGSIZE / 1024) ≠ none)
    (hfalse : ∀ m' S' x, Inv T UserPage m' d S' none → Keeps T m₀ m' → va ≤ x →
      x < va + buf.length → ¬ (x / PGSIZE < n ∧ User (S.pte (x / PGSIZE))) → Q false m')
    (htrue : ∀ m' S', Inv T UserPage m' d S' none → Keeps T m₀ m' → S.Wrote S' va buf →
      (∀ x, va ≤ x → x < va + buf.length → x / PGSIZE < n ∧ User (S.pte (x / PGSIZE))) →
      Q true m') :
    Vm.Ends L D (copyoutFrom null d fuel va buf) Q m := by
  induction fuel generalizing va buf m S with
  | zero => exact absurd hfuel (Nat.not_lt_zero _)
  | succ fuel ih =>
    unfold copyoutFrom
    by_cases hlen : 0 < buf.length
    · have hu : va / PGSIZE < 1048576 := by
        unfold PGSIZE
        omega
      rw [if_pos hlen]
      refine Task.wp_bind.2 (uva2ka_ends h.rep hS hu ?_ (fun hnot => ?_) fun hU hlt huser => ?_)
      · exact htab va le_rfl (by omega) fun hx => absurd hx (lt_irrefl _)
      · exact hfalse m S va h hkeeps le_rfl (by omega) hnot
      · dsimp only
        have hmod : va - PGROUNDDOWN va = va % PGSIZE := by
          unfold PGROUNDDOWN PGSIZE
          omega
        have hpos : va % PGSIZE < PGSIZE := Nat.mod_lt _ (by decide)
        rw [hmod]
        -- the bytes that go into this page
        obtain ⟨k, hk, hle, hpage, hend⟩ : ∃ k,
            (if buf.length < PGSIZE - va % PGSIZE then buf.length else PGSIZE - va % PGSIZE) = k ∧
            k ≤ buf.length ∧ va % PGSIZE + k ≤ PGSIZE ∧
            (k = buf.length ∨ va % PGSIZE + k = PGSIZE) := by
          refine ⟨_, rfl, ?_⟩
          split <;> omega
        rw [hk]
        have htake : (buf.take k).length = k := List.length_take_of_le hle
        have hp : Present (S.pte (va / PGSIZE)) := (hS.present _ hU).2 hlt
        refine Task.wp_bind.2 (write_ends ?_)
        rw [h.rep.data hU hp]
        have hown : Owns UserPage m d S none (.page (va / PGSIZE)) (pageOf (S.pte (va / PGSIZE))) :=
          ⟨hU, hp, rfl⟩
        have h' := h.write hU hp ((S.data (va / PGSIZE)).splice (va % PGSIZE) (buf.take k))
        have hkeeps' := hkeeps.trans (keeps_setPage
          (b := (S.data (va / PGSIZE)).splice (va % PGSIZE) (buf.take k)) (h.ledger.sound hown))
        have hpage' : va % PGSIZE + (buf.take k).length ≤ PGSIZE := by rwa [htake]
        have hwrote := S.wrote_put hpage'
        generalize S.put (va / PGSIZE) (S.pte (va / PGSIZE)) _ = S₁ at h' hwrote
        have hfirst : ∀ x, x / PGSIZE = va / PGSIZE →
            x / PGSIZE < n ∧ User (S.pte (x / PGSIZE)) := by
          intro x hx
          rw [hx]
          exact ⟨hlt, huser⟩
        by_cases hlast : k = buf.length
        · -- nothing is left
          obtain ⟨fuel, rfl⟩ : ∃ f, fuel = f + 1 := ⟨fuel - 1, by omega⟩
          rw [List.take_of_length_le (by omega)] at hwrote
          rw [List.drop_eq_nil_of_le (by omega)]
          refine htrue _ S₁ h' hkeeps' hwrote fun x hx hx' => hfirst x ?_
          unfold PGSIZE at *
          omega
        · have hend := hend.resolve_left hlast
          have hva' : (va / PGSIZE + 1) * PGSIZE = va + k := by
            unfold PGSIZE at *
            omega
          have hdrop : (buf.drop k).length = buf.length - k := List.length_drop
          have hU' : va / PGSIZE < 524288 := hU
          rw [show PGROUNDDOWN va = va / PGSIZE * PGSIZE from rfl, uint_next (by omega), hva']
          have hlt' : va + k < 4294967296 := by
            unfold PGSIZE at *
            omega
          have hrest : (buf.drop k).length < fuel := by omega
          refine ih hlt' hrest (hS.congr hwrote.tab hwrote.pte) hkeeps' h' (fun x hx hx' _ => ?_)
            (fun m' S' x hinv hk' hx hx' hnot => ?_) fun m' S' hinv hk' hw hall => ?_
          · rw [hwrote.tab]
            exact htab x (by omega) (by omega) fun _ => hlt
          · rw [hwrote.pte] at hnot
            exact hfalse m' S' x hinv hk' (by omega) (by omega) hnot
          · refine htrue m' S' hinv hk' ?_ fun x hx hx' => ?_
            · rw [← List.take_append_drop k buf]
              refine hwrote.append ?_
              rw [htake]
              exact hw
            · by_cases hin : x / PGSIZE = va / PGSIZE
              · exact hfirst x hin
              · rw [← hwrote.pte]
                refine hall x ?_ (by omega)
                unfold PGSIZE at *
                omega
    · have hnil : buf = [] := List.length_eq_zero_iff.1 (by omega)
      subst hnil
      exact htrue m S h hkeeps ⟨rfl, rfl, fun j hj => absurd hj (Nat.not_lt_zero j), fun _ _ => rfl⟩
        fun x hx hx' => absurd hx' (Nat.not_lt.2 hx)

def Gap (va : ℕ) : Prop := KERNBASE + PHYSTOP ≤ va ∧ va < DEVSPACE

instance (va : ℕ) : Decidable (Gap va) :=
  inferInstanceAs (Decidable (KERNBASE + PHYSTOP ≤ va ∧ va < DEVSPACE))

theorem copyout_stack_ends {Q : Bool → Mem → Prop} {va : ℕ} {bs : List Byte} (ht : 0 < t)
    (htop : t + 1 < 524288) (hS : Image L S (t + 1)) (hguard : ¬ User (S.pte (t - 1)))
    (hlow : t * PGSIZE ≤ sp) (hhigh : sp ≤ (t + 1) * PGSIZE) (hbs : 0 < bs.length)
    (hlen : bs.length ≤ KERNBASE) (hva : va < 4294967296) (hgap : ¬ Gap va)
    (hfits : bs.length ≤ sp → va + bs.length ≤ sp ∧ sp ≤ va + bs.length + 3)
    (hwraps : sp < bs.length → sp + 4294967296 ≤ va + bs.length + 3) (hkeeps : Keeps T m₀ m)
    (h : Inv T UserPage m d S none)
    (hfalse : ∀ m' S', Inv T UserPage m' d S' none → Keeps T m₀ m' →
      (User (S.pte t) → va / PGSIZE ≠ t) → Q false m')
    (htrue : ∀ m' S', Inv T UserPage m' d S' none → Keeps T m₀ m' → S.Wrote S' va bs →
      t * PGSIZE ≤ va → va + bs.length ≤ sp → Q true m') :
    Vm.Ends L D (copyout null d va bs) Q m := by
  have htab : ∀ u, u < 1048576 → Present (S.pte u) → S.tab (u / 1024) ≠ none := by
    intro u hu hp hnone
    obtain ⟨k, hk⟩ := tab_of_present h.rep hu hp
    rw [hnone] at hk
    cases hk
  refine copyoutFrom_ends hva (Nat.lt_succ_self _) hS hkeeps h (fun x hx hx' hnext => ?_)
    (fun m' S' x h' hk hx hx' hnot => ?_) fun m' S' h' hkeeps' hwrote hall => ?_
  · by_cases hle : bs.length ≤ sp
    · -- all the pages up to the stack are there
      have hlt : x / PGSIZE < t + 1 := by
        have := hfits hle
        unfold PGSIZE at *
        omega
      have hU : UserPage (x / PGSIZE) := lt_trans hlt htop
      exact htab _ hU.lt ((hS.present _ hU).2 hlt)
    · -- the first byte is in a page of the kernel
      have hwraps := hwraps (by omega)
      unfold Gap KERNBASE PHYSTOP DEVSPACE at hgap
      unfold KERNBASE at hlen
      have hkernel : 524288 ≤ va / PGSIZE ∧ va / PGSIZE < 581632 ∨
          1040384 ≤ va / PGSIZE ∧ va / PGSIZE < 1048576 := by
        unfold PGSIZE at *
        omega
      have hpage : x / PGSIZE = va / PGSIZE := by
        have := Nat.div_le_div_right (c := PGSIZE) hx
        omega
      rw [hpage]
      refine htab _ (by omega) ?_
      rw [hS.kernel _ (by unfold UserPage; omega)]
      exact kernelPte_present L hkernel
  · refine hfalse m' S' h' hk fun huser hpage => hnot ?_
    have hle : bs.length ≤ sp := by
      by_contra hlt
      have := hwraps (by omega)
      unfold KERNBASE at hlen
      unfold PGSIZE at *
      omega
    have := hfits hle
    have hx : x / PGSIZE = t := by
      unfold PGSIZE at *
      omega
    rw [hx]
    exact ⟨Nat.lt_succ_self t, huser⟩
  · have hend : va + bs.length ≤ (t + 1) * PGSIZE := by
      by_contra hlt
      by_cases hstart : va ≤ (t + 1) * PGSIZE
      · have := (hall _ hstart (by omega)).1
        rw [Nat.mul_div_cancel _ (by decide)] at this
        exact lt_irrefl _ this
      · have := (hall va le_rfl (by omega)).1
        unfold PGSIZE at *
        omega
    have hle : bs.length ≤ sp := by
      by_contra hlt
      have := hwraps (by omega)
      unfold PGSIZE at *
      omega
    obtain ⟨hsp, hsp'⟩ := hfits hle
    refine htrue m' S' h' hkeeps' hwrote ?_ hsp
    -- otherwise a byte goes to the guard page
    by_contra hlt
    have hin : ∃ x, va ≤ x ∧ x < va + bs.length ∧ x / PGSIZE = t - 1 := by
      by_cases hstart : (t - 1) * PGSIZE ≤ va
      · refine ⟨va, le_rfl, by omega, ?_⟩
        unfold PGSIZE at *
        omega
      · refine ⟨(t - 1) * PGSIZE, by omega, ?_, Nat.mul_div_cancel _ (by decide)⟩
        unfold PGSIZE at *
        omega
    obtain ⟨x, hx, hx', hpage⟩ := hin
    have huser := (hall x hx hx').2
    rw [hpage] at huser
    exact hguard huser

end Copyout

/-! ## The strings -/

def Lands (t : ℕ) : ℕ → List (List Byte) → Prop
  | _, [] => True
  | sp, str :: argv =>
    ¬ Gap (below sp str) ∧ (below sp str / PGSIZE = t → Lands t (below sp str) argv)

theorem below_spec {a : List Byte} (hsp : sp < 4294967296) (ha : a.length < 4294967295) :
    below sp a < 4294967296 ∧
    (a.length + 1 ≤ sp → below sp a + (a.length + 1) ≤ sp ∧ sp ≤ below sp a + (a.length + 1) + 3) ∧
    (sp < a.length + 1 → sp + 4294967296 ≤ below sp a + (a.length + 1) + 3) ∧
    below sp a % 4 = 0 := by
  unfold below align uintOf
  omega

theorem lands_of_short {argv : List (List Byte)} (htop : t + 1 < 524288)
    (hlow : t * PGSIZE ≤ sp) (hhigh : sp ≤ (t + 1) * PGSIZE) (ht : 0 < t)
    (hargv : ∀ a ∈ argv, a.length < 33554432) : Lands t sp argv := by
  induction argv generalizing sp with
  | nil => trivial
  | cons str argv ih =>
    have hstr := hargv str List.mem_cons_self
    have hsp : sp < 4294967296 := by
      unfold PGSIZE at hhigh
      omega
    obtain ⟨hlt, hfits, hwraps, -⟩ := below_spec (a := str) hsp (by omega)
    refine ⟨fun hgap => ?_, fun hpage => ih ?_ ?_ fun a ha => hargv a (List.mem_cons_of_mem _ ha)⟩
    · unfold Gap KERNBASE PHYSTOP DEVSPACE at hgap
      unfold PGSIZE at *
      omega
    · unfold PGSIZE at *
      omega
    · unfold PGSIZE at *
      omega

/-- There is a copy of a string at `p`, with a NUL behind it, all of it from `lo` to `hi`. -/
structure StrAt (f : ℕ → Byte) (lo hi p : ℕ) (str : List Byte) : Prop where
  low : lo ≤ p
  high : p + str.length < hi
  chars : ∀ j (h : j < str.length), f (p + j) = str[j]
  nul : f (p + str.length) = 0#8

theorem StrAt.congr {f g : ℕ → Byte} {lo lo' hi p : ℕ} {str : List Byte} (h : StrAt f lo hi p str)
    (hlo : lo' ≤ lo) (hfg : ∀ x, lo ≤ x → x < hi → g x = f x) : StrAt g lo' hi p str := by
  have hlow := h.low
  have hhigh := h.high
  refine ⟨hlo.trans h.low, h.high, fun j hj => ?_, ?_⟩
  · rw [hfg _ (by omega) (by omega)]
    exact h.chars j hj
  · rw [hfg _ (by omega) (by omega)]
    exact h.nul

theorem StrAt.of_wrote {S' : Space} {va hi : ℕ} {str : List Byte}
    (h : S.Wrote S' va (str ++ [0#8])) (hhi : va + (str ++ [0#8]).length ≤ hi) :
    StrAt S'.byte va hi va str := by
  rw [List.length_append, List.length_singleton] at hhi
  have hlen : (str ++ [0#8]).length = str.length + 1 := List.length_append
  refine ⟨le_rfl, by omega, fun j hj => ?_, ?_⟩
  · rw [h.inside j (by omega), List.getD_append _ _ _ _ hj, List.getD_eq_getElem _ _ hj]
  · rw [h.inside _ (by omega), List.getD_append_right _ _ _ _ le_rfl, Nat.sub_self]
    rfl

/-- The arguments so far are on the stack, page `t`, from `sp` on. -/
structure Pushed (S₀ S : Space) (t sp : ℕ) (argv : List (List Byte)) (ptrs : List ℕ) : Prop where
  tab : S.tab = S₀.tab
  pte : S.pte = S₀.pte
  low : t * PGSIZE ≤ sp
  high : sp ≤ (t + 1) * PGSIZE
  aligned : sp % 4 = 0
  below : ∀ x, x < sp → S.byte x = S₀.byte x
  strings : List.Forall₂ (StrAt S.byte sp ((t + 1) * PGSIZE)) ptrs argv
  argc : argv.length ≤ MAXARG

theorem Pushed.start (S₀ : Space) (t : ℕ) : Pushed S₀ S₀ t ((t + 1) * PGSIZE) [] [] := by
  refine ⟨rfl, rfl, Nat.mul_le_mul_right _ (Nat.le_succ t), le_rfl, ?_, fun _ _ => rfl, .nil,
    Nat.zero_le _⟩
  unfold PGSIZE
  omega

theorem Pushed.next {S' : Space} {va : ℕ} {argv : List (List Byte)} {ptrs : List ℕ}
    {str : List Byte} (h : Pushed S₀ S t sp argv ptrs)
    (hwrote : S.Wrote S' va (str ++ [0#8])) (hlow : t * PGSIZE ≤ va)
    (hend : va + (str ++ [0#8]).length ≤ sp) (haligned : va % 4 = 0)
    (hargc : ¬ MAXARG ≤ argv.length) : Pushed S₀ S' t va (argv ++ [str]) (ptrs ++ [va]) := by
  have hhigh := h.high
  refine ⟨hwrote.tab.trans h.tab, hwrote.pte.trans h.pte, hlow, by omega, haligned, fun x hx => ?_,
    ?_, ?_⟩
  · rw [hwrote.outside x (.inl hx), h.below x (by omega)]
  · refine List.rel_append ?_ (.cons (.of_wrote hwrote (by omega)) .nil)
    exact h.strings.imp fun p str hstr => hstr.congr (by omega) fun x hx _ =>
      hwrote.outside x (.inr (by omega))
  · rw [List.length_append, List.length_singleton]
    omega

/-! ## The words -/

def wordsAt (f : ℕ → Byte) (x : ℕ) : ℕ → ℕ := Bytes.word fun j => f (x + j)

theorem wordsAt_add (f : ℕ → Byte) (x k l : ℕ) : wordsAt f (x + 4 * k) l = wordsAt f x (k + l) := by
  unfold wordsAt Bytes.word
  dsimp only
  rw [show x + 4 * k + (4 * l) = x + 4 * (k + l) by omega,
    show x + 4 * k + (4 * l + 1) = x + (4 * (k + l) + 1) by omega,
    show x + 4 * k + (4 * l + 2) = x + (4 * (k + l) + 2) by omega,
    show x + 4 * k + (4 * l + 3) = x + (4 * (k + l) + 3) by omega]

@[simp] theorem length_wordBytes (v : ℕ) : (wordBytes v).length = 4 := by
  simp [wordBytes]

theorem getD_wordBytes (v : ℕ) {i : ℕ} (hi : i < 4) :
    (wordBytes v).getD i 0#8 = BitVec.ofNat 8 (v / 256 ^ i) := by
  rw [List.getD_eq_getElem _ _ (by rwa [length_wordBytes])]
  simp [wordBytes]

theorem length_flatMap_wordBytes (ws : List ℕ) : (ws.flatMap wordBytes).length = 4 * ws.length := by
  induction ws with
  | nil => rfl
  | cons w ws ih =>
    rw [List.flatMap_cons, List.length_append, length_wordBytes, ih, List.length_cons]
    omega

theorem getD_flatMap_wordBytes (ws : List ℕ) {k i : ℕ} (hk : k < ws.length) (hi : i < 4) :
    (ws.flatMap wordBytes).getD (4 * k + i) 0#8 = BitVec.ofNat 8 (ws[k] / 256 ^ i) := by
  induction ws generalizing k with
  | nil => exact absurd hk (Nat.not_lt_zero k)
  | cons w ws ih =>
    rw [List.flatMap_cons]
    cases k with
    | zero =>
      rw [Nat.mul_zero, Nat.zero_add, List.getD_append _ _ _ _ (by rwa [length_wordBytes])]
      exact getD_wordBytes w hi
    | succ k =>
      rw [List.getD_append_right _ _ _ _ (by rw [length_wordBytes]; omega), length_wordBytes,
        show 4 * (k + 1) + i - 4 = 4 * k + i by omega]
      exact ih (by simpa using hk)

theorem wordsAt_of_wrote {S' : Space} {va : ℕ} {ws : List ℕ}
    (h : S.Wrote S' va (ws.flatMap wordBytes)) {k w : ℕ} (hk : ws[k]? = some w)
    (hlt : w < 4294967296) : wordsAt S'.byte va k = w := by
  obtain ⟨hlen, rfl⟩ := List.getElem?_eq_some_iff.1 hk
  have hbyte : ∀ i < 4, (S'.byte (va + (4 * k + i))).toNat = ws[k] / 256 ^ i % 256 := by
    intro i hi
    rw [h.inside _ (by rw [length_flatMap_wordBytes]; omega), getD_flatMap_wordBytes ws hlen hi,
      BitVec.toNat_ofNat]
  have h0 := hbyte 0 (by decide)
  have h1 := hbyte 1 (by decide)
  have h2 := hbyte 2 (by decide)
  have h3 := hbyte 3 (by decide)
  unfold wordsAt Bytes.word
  dsimp only
  rw [Nat.add_zero] at h0
  rw [h0, h1, h2, h3]
  omega

/-- What a program finds on its stack, all of it from `lo` to `hi`: a return address, `argc` and
`argv`. -/
structure StackAt (f : ℕ → Byte) (lo hi sp : ℕ) (argv : List (List Byte)) : Prop where
  low : lo ≤ sp
  high : sp + 12 ≤ hi
  ret : wordsAt f sp 0 = 4294967295
  argc : wordsAt f sp 1 = argv.length
  ptrs : lo ≤ wordsAt f sp 2 ∧ wordsAt f sp 2 + 4 * (argv.length + 1) ≤ hi
  strings : ∀ i (h : i < argv.length), StrAt f lo hi (wordsAt f (wordsAt f sp 2) i) argv[i]
  null : wordsAt f (wordsAt f sp 2) argv.length = 0

theorem wordsAt_congr {f g : ℕ → Byte} {lo hi x k : ℕ} (hfg : ∀ x, lo ≤ x → x < hi → g x = f x)
    (hlo : lo ≤ x) (hhi : x + 4 * (k + 1) ≤ hi) : wordsAt g x k = wordsAt f x k := by
  unfold wordsAt Bytes.word
  dsimp only
  rw [hfg _ (by omega) (by omega), hfg _ (by omega) (by omega), hfg _ (by omega) (by omega),
    hfg _ (by omega) (by omega)]

theorem StackAt.congr {f g : ℕ → Byte} {lo hi : ℕ} {argv : List (List Byte)}
    (h : StackAt f lo hi sp argv) (hfg : ∀ x, lo ≤ x → x < hi → g x = f x) :
    StackAt g lo hi sp argv := by
  have hlow := h.low
  have hhigh := h.high
  have hptrs := h.ptrs
  have h2 : wordsAt g sp 2 = wordsAt f sp 2 := wordsAt_congr hfg hlow hhigh
  refine ⟨hlow, hhigh, ?_, ?_, ?_, fun i hi => ?_, ?_⟩
  · rw [wordsAt_congr hfg hlow (by omega)]
    exact h.ret
  · rw [wordsAt_congr hfg hlow (by omega)]
    exact h.argc
  · rw [h2]
    exact hptrs
  · rw [h2, wordsAt_congr hfg hptrs.1 (by omega)]
    exact (h.strings i hi).congr le_rfl hfg
  · rw [h2, wordsAt_congr hfg hptrs.1 hptrs.2]
    exact h.null

theorem Pushed.stackAt {S' : Space} {va : ℕ} {argv : List (List Byte)} {ptrs : List ℕ}
    (h : Pushed S₀ S t sp argv ptrs) (htop : t + 1 < 524288)
    (hva : va + 4 * (ptrs.length + 4) = sp) (hlow : t * PGSIZE ≤ va)
    (hwrote : S.Wrote S' va ((ustack sp ptrs).flatMap wordBytes)) :
    StackAt S'.byte (t * PGSIZE) ((t + 1) * PGSIZE) va argv := by
  have hhigh := h.high
  have hbase : (t + 1) * PGSIZE < 4294967296 := by
    unfold PGSIZE
    omega
  have hlen : ptrs.length = argv.length := h.strings.length_eq
  have hargc := h.argc
  unfold MAXARG at hargc
  have hptr : uintOf ((sp : ℤ) - (ptrs.length + 1) * 4) = va + 12 := by
    unfold uintOf
    omega
  have hustack : ustack sp ptrs = 4294967295 :: ptrs.length :: (va + 12) :: (ptrs ++ [0]) := by
    unfold ustack
    rw [hptr]
    rfl
  rw [hustack] at hwrote
  have h2 : wordsAt S'.byte va 2 = va + 12 := wordsAt_of_wrote hwrote rfl (by omega)
  have hword : ∀ i w, (ptrs ++ [0])[i]? = some w → w < 4294967296 →
      wordsAt S'.byte (va + 12) i = w := by
    intro i w hi hlt
    rw [wordsAt_add _ va 3 i, Nat.add_comm 3 i]
    exact wordsAt_of_wrote hwrote hi hlt
  refine ⟨hlow, by omega, wordsAt_of_wrote hwrote rfl (by decide), ?_, ?_, fun i hi => ?_, ?_⟩
  · exact (wordsAt_of_wrote hwrote rfl (by omega)).trans hlen
  · rw [h2]
    omega
  · have hi' : i < ptrs.length := by omega
    have hstr := h.strings.get hi' hi
    have hlow' := hstr.low
    have hhigh' := hstr.high
    rw [h2, hword i (ptrs.get ⟨i, hi'⟩) ?_ (by omega)]
    · refine hstr.congr (by omega) fun x hx _ => hwrote.outside x (.inr ?_)
      rw [length_flatMap_wordBytes, List.length_cons, List.length_cons, List.length_cons,
        List.length_append, List.length_singleton]
      omega
    · rw [List.getElem?_append_left hi', List.getElem?_eq_getElem hi']
      rfl
  · rw [h2, ← hlen]
    exact hword _ 0 List.getElem?_concat_length (by decide)

section

variable {D : String → State → Prop} {null : Vm.Sys ℕ} (ht : 0 < t) (htop : t + 1 < 524288)
  (hS : Image L S₀ (t + 1)) (hguard : ¬ User (S₀.pte (t - 1))) {argv : List (List Byte)}
  (hargv : ∀ a ∈ argv, a.length < KERNBASE)
include ht htop hS hguard hargv

theorem pushArgs_ends {Q : Option (ℕ × List ℕ) → State → Prop} {old : List (List Byte)}
    {ptrs : List ℕ} (hkeeps : Keeps T m₀ m) (h : Inv T UserPage m d S none)
    (hpushed : Pushed S₀ S t sp old ptrs) (hlands : Lands t sp (argv.take (MAXARG - old.length)))
    (hnone : ∀ m' S', Inv T UserPage m' d S' none → Keeps T m₀ m' → Q none { s with mem := m' })
    (hsome : ∀ m' S' sp' ptrs', Inv T UserPage m' d S' none → Keeps T m₀ m' →
      Pushed S₀ S' t sp' (old ++ argv) ptrs' → Q (some (sp', ptrs')) { s with mem := m' }) :
    Ends L file D (pushArgs null d argv old.length sp ptrs) Q { s with mem := m } := by
  induction argv generalizing m S sp old ptrs with
  | nil =>
    refine hsome m S sp ptrs h hkeeps ?_
    rw [List.append_nil]
    exact hpushed
  | cons str argv ih =>
    unfold pushArgs
    split
    · exact hnone m S h hkeeps
    · next hargc =>
      have hlow := hpushed.low
      have hhigh := hpushed.high
      have hlen : (str ++ [0#8]).length = str.length + 1 := List.length_append
      have hstr : str.length < 2147483648 := hargv str List.mem_cons_self
      have hsp : sp < 4294967296 := by
        unfold PGSIZE at hhigh
        omega
      obtain ⟨hlt, hfits, hwraps, haligned⟩ := below_spec (a := str) hsp (by omega)
      rw [show MAXARG - old.length = MAXARG - (old.length + 1) + 1 by omega,
        List.take_succ_cons] at hlands
      refine Task.wp_bind.2 (vm_ends (copyout_stack_ends ht htop (hS.congr hpushed.tab hpushed.pte)
        ?_ hlow hhigh (by omega) (hlen ▸ hstr) hlt hlands.1 (by rwa [hlen]) (by rwa [hlen]) hkeeps h
        (fun m' S' h' hk _ => ?_) fun m' S' h' hk hwrote hva hend => ?_))
      · rw [hpushed.pte]
        exact hguard
      · exact hnone m' S' h' hk
      · have hnext := hpushed.next hwrote hva hend haligned hargc
        have hcount : old.length + 1 = (old ++ [str]).length := by
          rw [List.length_append, List.length_singleton]
        rw [if_pos rfl, hcount]
        refine ih (fun a ha => hargv a (List.mem_cons_of_mem _ ha)) hk h' hnext ?_
          fun m'' S'' sp' ptrs' h'' hk' hp => hsome m'' S'' sp' ptrs' h'' hk' ?_
        · rw [← hcount]
          refine hlands.2 ?_
          unfold PGSIZE at *
          omega
        · rw [List.append_assoc, List.singleton_append] at hp
          exact hp

theorem pushArgs_stops {old : List (List Byte)} {ptrs : List ℕ} {why : String}
    (hstack : User (S₀.pte t)) (h : Inv T UserPage m d S none)
    (hpushed : Pushed S₀ S t sp old ptrs)
    (hgap : ¬ Lands t sp (argv.take (MAXARG - old.length))) :
    Ends L file (fun w _ => w = why) (pushArgs (.panic why) d argv old.length sp ptrs)
      (fun _ _ => False) { s with mem := m } := by
  induction argv generalizing m S sp old ptrs with
  | nil =>
    rw [List.take_nil] at hgap
    exact absurd trivial hgap
  | cons str argv ih =>
    unfold pushArgs
    split
    · next hargc =>
      rw [Nat.sub_eq_zero_of_le hargc] at hgap
      exact absurd trivial hgap
    · next hargc =>
      have hlow := hpushed.low
      have hhigh := hpushed.high
      have hlen : (str ++ [0#8]).length = str.length + 1 := List.length_append
      have hstr : str.length < 2147483648 := hargv str List.mem_cons_self
      have hsp : sp < 4294967296 := by
        unfold PGSIZE at hhigh
        omega
      obtain ⟨hlt, hfits, hwraps, haligned⟩ := below_spec (a := str) hsp (by omega)
      have hS' := hS.congr hpushed.tab hpushed.pte
      rw [show MAXARG - old.length = MAXARG - (old.length + 1) + 1 by omega,
        List.take_succ_cons] at hgap
      by_cases hin : Gap (below sp str)
      · refine Task.wp_bind.2 (vm_ends ?_)
        unfold copyout copyoutFrom uva2ka
        rw [if_pos (by omega)]
        refine Task.wp_bind.2 (Task.wp_bind.2 (walkpgdir_ends h.rep ?_ (fun _ => rfl)
          fun k hk => ?_))
        · unfold PGSIZE
          omega
        · unfold Gap KERNBASE PHYSTOP DEVSPACE at hin
          rw [hS'.gap _ (by unfold PGSIZE; omega) (by unfold PGSIZE; omega)] at hk
          cases hk
      · refine Task.wp_bind.2 (vm_ends (copyout_stack_ends ht htop hS' ?_ hlow hhigh (by omega)
          (hlen ▸ hstr) hlt hin (by rwa [hlen]) (by rwa [hlen]) (.refl m) h
          (fun m' S' h' _ hout => ?_) fun m' S' h' _ hwrote hva hend => ?_))
        · rw [hpushed.pte]
          exact hguard
        · refine absurd ⟨hin, fun hpage => absurd hpage (hout ?_)⟩ hgap
          rw [hpushed.pte]
          exact hstack
        · have hnext := hpushed.next hwrote hva hend haligned hargc
          have hcount : old.length + 1 = (old ++ [str]).length := by
            rw [List.length_append, List.length_singleton]
          rw [if_pos rfl, hcount]
          refine ih (fun a ha => hargv a (List.mem_cons_of_mem _ ha)) h' hnext fun hrest => ?_
          rw [← hcount] at hrest
          exact hgap ⟨hin, fun _ => hrest⟩

theorem buildStack_ends {Q : Option ℕ → State → Prop}
    (hkeeps : Keeps T m₀ m) (h : Inv T UserPage m d S₀ none)
    (hlands : Lands t ((t + 1) * PGSIZE) (argv.take MAXARG))
    (hnone : ∀ m' S', Inv T UserPage m' d S' none → Keeps T m₀ m' → Q none { s with mem := m' })
    (hsome : ∀ m' S' sp, Inv T UserPage m' d S' none → Keeps T m₀ m' → S'.tab = S₀.tab →
      S'.pte = S₀.pte → (∀ x, x < t * PGSIZE → S'.byte x = S₀.byte x) →
      StackAt S'.byte (t * PGSIZE) ((t + 1) * PGSIZE) sp argv → Q (some sp) { s with mem := m' }) :
    Ends L file D (buildStack null d ((t + 1) * PGSIZE) argv) Q { s with mem := m } := by
  unfold buildStack
  refine Task.wp_bind.2 (pushArgs_ends ht htop hS hguard hargv hkeeps h (.start S₀ t) hlands hnone
    fun m' S' sp ptrs h' hk hpushed => ?_)
  have hlow := hpushed.low
  have hhigh := hpushed.high
  have hargc := hpushed.argc
  rw [List.nil_append] at hpushed hargc
  have hlen : ptrs.length = argv.length := hpushed.strings.length_eq
  unfold MAXARG at hargc
  have hsp : 4096 ≤ sp := by
    unfold PGSIZE at *
    omega
  have hulen : ((ustack sp ptrs).flatMap wordBytes).length = 4 * (ptrs.length + 4) := by
    rw [length_flatMap_wordBytes]
    simp [ustack]
  have hva : uintOf ((sp : ℤ) - (3 + ptrs.length + 1) * 4) + 4 * (ptrs.length + 4) = sp := by
    unfold uintOf
    unfold PGSIZE at *
    omega
  dsimp only
  generalize uintOf ((sp : ℤ) - (3 + ptrs.length + 1) * 4) = va at hva
  have hva' : va < KERNBASE := by
    unfold KERNBASE
    unfold PGSIZE at *
    omega
  refine Task.wp_bind.2 (vm_ends (copyout_stack_ends ht htop (hS.congr hpushed.tab hpushed.pte) ?_
    hlow hhigh (by omega) ?_ (hva'.trans (by decide)) ?_ (fun _ => by omega) (fun hx => by omega) hk
    h' (fun m'' S'' h'' hk' _ => hnone m'' S'' h'' hk') fun m'' S'' h'' hk' hwrote hva' _ => ?_))
  · rw [hpushed.pte]
    exact hguard
  · unfold KERNBASE
    omega
  · exact fun hgap => absurd hgap.1 (Nat.not_le.2 (hva'.trans (by decide)))
  · refine hsome m'' S'' va h'' hk' (hwrote.tab.trans hpushed.tab) (hwrote.pte.trans hpushed.pte)
      (fun x hx => ?_) (hpushed.stackAt htop hva hva' hwrote)
    rw [hwrote.outside x (.inl (by omega)), hpushed.below x (by omega)]

theorem buildStack_stops {why : String} (hstack : User (S₀.pte t))
    (h : Inv T UserPage s.mem d S₀ none)
    (hgap : ¬ Lands t ((t + 1) * PGSIZE) (argv.take MAXARG)) :
    ∃ s', (buildStack (.panic why) d ((t + 1) * PGSIZE) argv).exec (Op.perform L file) s =
      some (.inr why, s') := by
  have hends : Ends L file (fun w _ => w = why) (buildStack (.panic why) d ((t + 1) * PGSIZE) argv)
      (fun _ _ => False) s :=
    Task.wp_bind.2 ((pushArgs_stops ht htop hS hguard hargv hstack h (.start S₀ t) hgap).mono
      fun _ _ => False.elim)
  obtain ⟨_, _, -, hfalse⟩ | ⟨_, s', hexec, rfl⟩ := Task.Wp.exec (fun _ => rfl) hends
  · exact hfalse.elim
  · exact ⟨s', hexec⟩

end

theorem byte_eq {k x : ℕ} (h : Inv T UserPage m d S none) (hS : Image L S k) (hk : k ≤ 524288)
    (hx : x < k * PGSIZE) : m.byte d x = S.byte x := by
  have hlt : x / PGSIZE < k := Nat.div_lt_of_lt_mul (by rwa [Nat.mul_comm])
  have hU : UserPage (x / PGSIZE) := lt_of_lt_of_le hlt hk
  unfold Mem.byte Space.byte
  rw [h.rep.pte_eq hU.lt, h.rep.data hU ((hS.present _ hU).2 hlt)]

def Builds (L : Layout) (file : Option (List Byte)) (s : State) (d t : ℕ)
    (argv : List (List Byte)) : Prop :=
  ∀ null, ∃ r s', (buildStack null d ((t + 1) * PGSIZE) argv).exec (Op.perform L file) s =
      some (.inl r, s') ∧
    ∀ sp, r = some sp →
      StackAt (s'.mem.byte d) (t * PGSIZE) ((t + 1) * PGSIZE) sp argv ∧
      ∀ x, x < t * PGSIZE → s'.mem.byte d x = s.mem.byte d x

/-- The strings fit in the address space of the caller. The stack is built, or the construction
fails, without the use of a page table that is not there, if and only if the stack pointer does not
come into the gap. -/
theorem buildStack_builds_iff {argv : List (List Byte)} (h : Inv T UserPage s.mem d S none)
    (hS : Image L S (t + 1)) (ht : 0 < t) (htop : (t + 1) * PGSIZE < KERNBASE)
    (hguard : ¬ User (S.pte (t - 1))) (hstack : User (S.pte t))
    (hargv : ∀ a ∈ argv, a.length < KERNBASE) :
    Builds L file s d t argv ↔ Lands t ((t + 1) * PGSIZE) (argv.take MAXARG) := by
  have htop' : t + 1 < 524288 := by
    unfold KERNBASE PGSIZE at htop
    omega
  constructor
  · intro hbuilds
    by_contra hgap
    obtain ⟨r, s', hexec, -⟩ := hbuilds (.panic "null pointer")
    obtain ⟨s'', hexec'⟩ := buildStack_stops ht htop' hS hguard hargv hstack h hgap
    rw [hexec] at hexec'
    cases hexec'
  · intro hlands null
    have hends : Ends L file (fun _ _ => False) (buildStack null d ((t + 1) * PGSIZE) argv)
        (fun r s' => ∀ sp, r = some sp →
          StackAt (s'.mem.byte d) (t * PGSIZE) ((t + 1) * PGSIZE) sp argv ∧
          ∀ x, x < t * PGSIZE → s'.mem.byte d x = s.mem.byte d x) s := by
      refine buildStack_ends ht htop' hS hguard hargv (.refl s.mem) h hlands
        (fun _ _ _ _ _ => nofun) fun m' S' sp h' _ htab hpte hbelow hstack sp' hsp => ?_
      cases hsp
      have hS' := hS.congr htab hpte
      refine ⟨hstack.congr fun x _ hx => byte_eq h' hS' htop'.le hx, fun x hx => ?_⟩
      have hx' : x < (t + 1) * PGSIZE := hx.trans_le (Nat.mul_le_mul_right _ (Nat.le_succ t))
      rw [byte_eq h hS htop'.le hx', ← hbelow x hx]
      exact byte_eq h' hS' htop'.le hx'
    obtain ⟨r, s', hexec, hr⟩ | ⟨why, s', -, hfalse⟩ := Task.Wp.exec (fun _ => rfl) hends
    · exact ⟨r, s', hexec, hr⟩
    · exact hfalse.elim

/-! ## A memory with one address space -/

def HasTable (n k : ℕ) : Prop := k < (n + 1023) / 1024 ∨ 512 ≤ k ∧ k < 568 ∨ 1016 ≤ k ∧ k < 1024

instance (n k : ℕ) : Decidable (HasTable n k) :=
  inferInstanceAs (Decidable (k < (n + 1023) / 1024 ∨ 512 ≤ k ∧ k < 568 ∨ 1016 ≤ k ∧ k < 1024))

def flatPte (L : Layout) (n g v : ℕ) : ℕ :=
  if v < n then (5000 + v) * 4096 + if v = g then 3 else 7 else kernelPte L v

def flat (L : Layout) (n g : ℕ) (byte : ℕ → Byte) (free : List ℕ) : Mem where
  page pn :=
    if pn = 300 then .ofWords fun k => if HasTable n k then (1000 + k) * 4096 + 7 else 0
    else if pn < 5000 then .ofWords fun j => flatPte L n g (1024 * (pn - 1000) + j)
    else fun j => byte ((pn - 5000) * 4096 + j)
  free := free

section

variable {g : ℕ} {byte : ℕ → Byte} {free : List ℕ} (hn : n ≤ 10000)
include hn

theorem flatPte_lt (v : ℕ) : flatPte L n g v < 4294967296 := by
  unfold flatPte
  split
  · split <;> omega
  · exact kernelPte_lt L v

theorem flat_table (k : ℕ) :
    (flat L n g byte free).table 300 k = if HasTable n k then some (1000 + k) else none := by
  have hword : ((flat L n g byte free).page 300).word k =
      if HasTable n k then (1000 + k) * 4096 + 7 else 0 := by
    refine Bytes.word_ofWords (f := fun k => if HasTable n k then (1000 + k) * 4096 + 7 else 0) ?_
    split
    · next hk =>
      unfold HasTable at hk
      omega
    · decide
  unfold Mem.table
  rw [hword]
  split
  · have hp : Present ((1000 + k) * 4096 + 7) := by
      unfold Present
      omega
    have hpage : pageOf ((1000 + k) * 4096 + 7) = 1000 + k := by
      unfold pageOf PGSIZE
      omega
    rw [if_pos hp, hpage]
  · rfl

theorem flat_pte (v : ℕ) : (flat L n g byte free).pte 300 v = flatPte L n g v := by
  unfold Mem.pte
  rw [flat_table hn]
  by_cases hk : HasTable n (v / 1024)
  · rw [if_pos hk]
    have hpage : (flat L n g byte free).page (1000 + v / 1024) =
        .ofWords fun j => flatPte L n g (1024 * (1000 + v / 1024 - 1000) + j) := by
      unfold HasTable at hk
      unfold flat
      dsimp only
      rw [if_neg (by omega), if_pos (by omega)]
    show ((flat L n g byte free).page (1000 + v / 1024)).word (v % 1024) = _
    rw [hpage, Nat.add_sub_cancel_left, Bytes.word_ofWords
      (f := fun j => flatPte L n g (1024 * (v / 1024) + j)) (flatPte_lt hn _), index_of]
  · rw [if_neg hk]
    unfold HasTable at hk
    unfold flatPte
    rw [if_neg (by omega)]
    exact (kernelPte_gap L (by omega)).symm

omit hn in
theorem flatPte_spec {v : ℕ} (hv : v < n) : Present (flatPte L n g v) ∧
    pageOf (flatPte L n g v) = 5000 + v ∧ (User (flatPte L n g v) ↔ v ≠ g) := by
  unfold flatPte Present pageOf User PGSIZE
  rw [if_pos hv]
  split <;> omega

/-- Who has which page. -/
def flatOwner (pn : ℕ) : Owner :=
  if pn = 300 then .dir else if pn < 5000 then .tab (pn - 1000)
  else if pn < 20000 then .page (pn - 5000) else .free

theorem flat_owns (hfree : ∀ pn ∈ free, 20000 ≤ pn) {o : Owner} {pn : ℕ}
    (h : Owns UserPage (flat L n g byte free) 300 ((flat L n g byte free).space 300) none o pn) :
    o = flatOwner pn ∧ 300 ≤ pn ∧ (pn < 20000 ∨ pn ∈ free) := by
  unfold flatOwner
  cases o with
  | free =>
    have hge := hfree pn h
    rw [if_neg (by omega), if_neg (by omega), if_neg (by omega)]
    exact ⟨rfl, by omega, .inr h⟩
  | hand => cases h
  | dir =>
    obtain rfl : pn = 300 := h
    exact ⟨rfl, by omega, by omega⟩
  | tab k =>
    obtain ⟨hk, ht⟩ := h
    have ht : (flat L n g byte free).table 300 k = some pn := ht
    rw [flat_table hn] at ht
    split at ht
    · cases ht
      rw [if_neg (by omega), if_pos (by omega), Nat.add_sub_cancel_left]
      exact ⟨rfl, by omega, by omega⟩
    · cases ht
  | page v =>
    obtain ⟨hU, hp, hpn⟩ := h
    rw [Mem.space_pte, flat_pte hn] at hp hpn
    by_cases hv : v < n
    · rw [(flatPte_spec hv).2.1] at hpn
      subst hpn
      rw [if_neg (by omega), if_neg (by omega), if_pos (by omega), Nat.add_sub_cancel_left]
      exact ⟨rfl, by omega, by omega⟩
    · unfold flatPte at hp
      rw [if_neg hv, kernelPte_user L hU] at hp
      cases hp

def FlatPage (L : Layout) (n g : ℕ) (byte : ℕ → Byte) (free : List ℕ) (pn : ℕ) : Prop :=
  ∃ o, Owns UserPage (flat L n g byte free) 300 ((flat L n g byte free).space 300) none o pn

variable (L n g byte free)

theorem flat_inv (hfree : ∀ pn ∈ free, 20000 ≤ pn) (hnodup : free.Nodup) :
    Inv (FlatPage L n g byte free) UserPage (flat L n g byte free) 300
      ((flat L n g byte free).space 300) none := by
  refine ⟨(flat L n g byte free).rep_space 300, nofun, ⟨fun ho => ⟨_, ho⟩, fun ho ho' => ?_, id⟩,
    hnodup⟩
  rw [(flat_owns hn hfree ho).1, (flat_owns hn hfree ho').1]

theorem flat_image : Image L ((flat L n g byte free).space 300) n := by
  refine ⟨fun u hu => ?_, fun u hu => ?_, fun k hk hk' => ?_⟩
  · rw [Mem.space_pte, flat_pte hn]
    by_cases hv : u < n
    · exact iff_of_true (flatPte_spec hv).1 hv
    · unfold flatPte
      rw [if_neg hv, kernelPte_user L hu]
      exact iff_of_false nofun hv
  · have hge : 524288 ≤ u := Nat.le_of_not_lt hu
    rw [Mem.space_pte, flat_pte hn]
    exact if_neg (by omega)
  · refine (flat_table hn k).trans (if_neg ?_)
    unfold HasTable
    omega

theorem flat_user {v : ℕ} (hv : v < n) :
    User (((flat L n g byte free).space 300).pte v) ↔ v ≠ g := by
  rw [Mem.space_pte, flat_pte hn]
  exact (flatPte_spec hv).2.2

end

def stackOnly (L : Layout) : State :=
  ⟨flat L 2 0 (fun _ => 0#8) [], ⟨0, 0, 0, 0, []⟩, 0, 0, false⟩

theorem stackOnly_inv (L : Layout) : Inv (FlatPage L 2 0 (fun _ => 0#8) []) UserPage
    (stackOnly L).mem 300 ((stackOnly L).mem.space 300) none :=
  flat_inv L 2 0 (fun _ => 0#8) [] (by decide) (fun _ h => nomatch h) .nil

theorem stackOnly_image (L : Layout) : Image L ((stackOnly L).mem.space 300) 2 :=
  flat_image L 2 0 (fun _ => 0#8) [] (by decide)

theorem stackOnly_user (L : Layout) : ¬ User (((stackOnly L).mem.space 300).pte 0) ∧
    User (((stackOnly L).mem.space 300).pte 1) := by
  have huser := fun v => flat_user L 2 0 (fun _ => 0#8) [] (by decide) (v := v)
  exact ⟨(huser 0 (by decide)).not.2 (not_not.2 rfl), (huser 1 (by decide)).2 (by decide)⟩

theorem buildStack_builds_iff_two :
    Builds someLayout none (stackOnly someLayout) 300 1 [[108#8, 115#8], [47#8]] := by
  refine (buildStack_builds_iff (t := 1) (stackOnly_inv someLayout) (stackOnly_image someLayout)
    (by decide) (by decide) (stackOnly_user someLayout).1 (stackOnly_user someLayout).2
    (by decide)).2 ?_
  exact ⟨by decide, fun _ => ⟨by decide, fun _ => trivial⟩⟩

theorem buildStack_of_length {str : List Byte} (hstr : str.length = 34000000) :
    ∃ s', (buildStack (.panic "null pointer") 300 8192 [str]).exec (Op.perform someLayout none)
      (stackOnly someLayout) = some (.inr "null pointer", s') := by
  refine buildStack_stops (t := 1) (by decide) (by decide) (stackOnly_image someLayout)
    (stackOnly_user someLayout).1 (fun a ha => ?_) (stackOnly_user someLayout).2
    (stackOnly_inv someLayout) fun hlands => hlands.1 ?_
  · rw [List.mem_singleton.1 ha, hstr]
    decide
  · unfold below
    rw [hstr]
    decide

theorem buildStack_null_pointer :
    Image someLayout ((stackOnly someLayout).mem.space 300) 2 ∧
    ∃ s', (buildStack (.panic "null pointer") 300 8192 [List.replicate 34000000 97#8]).exec
      (Op.perform someLayout none) (stackOnly someLayout) = some (.inr "null pointer", s') :=
  ⟨stackOnly_image someLayout, buildStack_of_length List.length_replicate⟩

end Xv6.Exec
