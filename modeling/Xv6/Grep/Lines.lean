import Xv6.Grep.Match
import Xv6.Memmove
import Xv6.Strings
import Mathlib.Data.List.GetD

/-!
# `grep`

The loop of `grep.c` over what it reads, with its buffer of 1024 characters. A line of which no end
has been read stays at the start of the buffer, and the next read goes behind it. But when nothing
that ends a line has been read at all, the pointer test `p == buf` takes it for a line that is too
long, and what has been read is dropped. So the lines come out as they should if no read without a
newline comes before a read with one.

The input is the list of what the reads return, up to the end of the file.
-/

namespace Xv6.Grep

open Function

/-- `'\n'` -/
def NEWLINE : Byte := 10#8

/-- `sizeof(buf)` -/
def BUFSIZE : ℕ := 1024

def strchr (buf : Bytes) (c : Byte) : ℕ → ℕ → Option ℕ
  | 0, _ => none
  | n + 1, p => if buf p = 0 then none else if buf p = c then some p else strchr buf c n (p + 1)

/-- The buffer, and how much of it is used. -/
structure State where
  buf : Bytes
  m : ℕ

section

variable (pattern : List Byte)

def lines : ℕ → Bytes → ℕ → (Bytes × ℕ) × List Byte
  | 0, buf, p => ((buf, p), [])
  | n + 1, buf, p =>
    match strchr buf NEWLINE BUFSIZE p with
    | none => ((buf, p), [])
    | some q =>
      let buf : Bytes := update buf q 0
      if match' pattern (cstr buf p BUFSIZE) then
        let buf : Bytes := update buf q NEWLINE
        let r := lines n buf (q + 1)
        (r.1, buf.slice p (q + 1 - p) ++ r.2)
      else lines n buf (q + 1)

def pass (s : State) (chunk : List Byte) : State × List Byte :=
  let m := s.m + chunk.length
  let buf : Bytes := update (s.buf.splice s.m chunk) m 0
  let r := lines pattern BUFSIZE buf 0
  let buf := r.1.1
  let p := r.1.2
  let m := if p = 0 then 0 else m
  (if 0 < m then ⟨Ulib.memmove buf 0 p ((m - p : ℕ) : ℤ), m - p⟩ else ⟨buf, m⟩, r.2)

/-- The loop of `grep`. -/
def grepFrom (s : State) : List (List Byte) → List Byte
  | [] => []
  | chunk :: chunks => (pass pattern s chunk).2 ++ grepFrom (pass pattern s chunk).1 chunks

/-- `grep`: what it writes. -/
def grep (buf : Bytes) (chunks : List (List Byte)) : List Byte := grepFrom pattern ⟨buf, 0⟩ chunks

def ReadsFrom (s : State) : List (List Byte) → Prop
  | [] => True
  | chunk :: chunks => chunk ≠ [] ∧ chunk.length ≤ BUFSIZE - s.m - 1 ∧
    ReadsFrom (pass pattern s chunk).1 chunks

def Reads (buf : Bytes) (chunks : List (List Byte)) : Prop := ReadsFrom pattern ⟨buf, 0⟩ chunks

def matching (input : List Byte) : List Byte :=
  (((input.splitOn NEWLINE).dropLast).filter (match' pattern)).flatMap (· ++ [NEWLINE])

end

def Timely (chunks : List (List Byte)) : Prop :=
  chunks.Pairwise fun c d => NEWLINE ∉ c → NEWLINE ∉ d

instance (chunks : List (List Byte)) : Decidable (Timely chunks) :=
  inferInstanceAs (Decidable (chunks.Pairwise _))

variable {pattern : List Byte} {buf : Bytes} {c : Byte} {p n : ℕ} {l u v : List Byte}

/-! ## Lines of the input -/

theorem beq_newline_of_not_mem (h : NEWLINE ∉ l) : ∀ x ∈ l, (x == NEWLINE) = false := by
  intro x hx
  refine beq_false_of_ne ?_
  rintro rfl
  exact h hx

theorem matching_of_not_mem (h : NEWLINE ∉ l) : matching pattern l = [] := by
  unfold matching List.splitOn
  rw [List.splitOnP_eq_singleton (beq_newline_of_not_mem h)]
  rfl

theorem matching_cons (h : NEWLINE ∉ u) (v : List Byte) : matching pattern (u ++ NEWLINE :: v) =
    (if match' pattern u then u ++ [NEWLINE] else []) ++ matching pattern v := by
  unfold matching List.splitOn
  rw [List.splitOnP_append_cons_of_forall_mem (beq_newline_of_not_mem h) NEWLINE
    (beq_self_eq_true _), List.dropLast_cons_of_ne_nil (List.splitOnP_ne_nil _ _), List.filter_cons]
  split <;> rfl

/-! ## Strings in the buffer -/

def At (buf : Bytes) (p : ℕ) (l : List Byte) : Prop := ∀ i ≤ l.length, buf (p + i) = l.getD i 0

namespace At

theorem head {x : Byte} (h : At buf p (x :: l)) : buf p = x := h 0 (Nat.zero_le _)

theorem tail {x : Byte} (h : At buf p (x :: l)) : At buf (p + 1) l := by
  intro i hi
  rw [Nat.add_assoc, Nat.add_comm 1]
  exact h (i + 1) (Nat.succ_le_succ hi)

theorem drop (h : At buf p (u ++ v)) : At buf (p + u.length) v := by
  induction u generalizing p with
  | nil => exact h
  | cons x u ih =>
    rw [List.length_cons, Nat.add_comm u.length, ← Nat.add_assoc]
    exact ih h.tail

theorem cut (h : At buf p (u ++ v)) : At (update buf (p + u.length) 0) p u := by
  intro i hi
  rcases hi.lt_or_eq with hlt | rfl
  · rw [update_of_ne (by omega), h i (by rw [List.length_append]; omega),
      List.getD_append _ _ _ _ hlt]
  · rw [update_self, List.getD_eq_default _ _ le_rfl]

theorem update_of_lt {q : ℕ} (h : At buf p l) (hq : q < p) (x : Byte) :
    At (update buf q x) p l := by
  intro i hi
  rw [update_of_ne (by omega)]
  exact h i hi

theorem getElem (h : At buf p l) {k : ℕ} (hk : k < l.length) : buf (p + k) = l[k] := by
  rw [h k hk.le, List.getD_eq_getElem _ _ hk]

theorem cstr_eq (h : At buf p l) (h0 : 0 ∉ l) (hn : l.length ≤ n) : cstr buf p n = l := by
  refine cstr_eq_of_getElem? h0 hn (fun k hk => h.getElem hk) fun _ => ?_
  rw [h l.length le_rfl, List.getD_eq_default _ _ le_rfl]

theorem slice_eq (h : At buf p (u ++ v)) : buf.slice p u.length = u := by
  unfold Bytes.slice
  refine List.ext_getElem (by simp) fun k hk hk' => ?_
  rw [List.getElem_map, List.getElem_range, h.getElem (by rw [List.length_append]; omega),
    List.getElem_append_left hk']

end At

theorem strchr_of_not_mem (h : At buf p l) (hc : c ∉ l) : strchr buf c n p = none := by
  induction n generalizing p l with
  | zero => rfl
  | succ n ih =>
    rw [strchr]
    cases l with
    | nil =>
      have hp : buf p = 0 := h 0 le_rfl
      rw [if_pos hp]
    | cons x l =>
      have hx : x ≠ c := fun heq => hc (heq ▸ List.mem_cons_self)
      rw [h.head, if_neg hx, ih h.tail fun hmem => hc (List.mem_cons_of_mem x hmem), ite_self]

theorem strchr_of_mem (h : At buf p (u ++ c :: v)) (h0 : 0 ∉ u) (hu : c ∉ u) (hc : c ≠ 0)
    (hn : u.length < n) : strchr buf c n p = some (p + u.length) := by
  induction n generalizing p u with
  | zero => exact absurd hn (Nat.not_lt_zero _)
  | succ n ih =>
    rw [strchr]
    cases u with
    | nil => rw [At.head h, if_neg hc, if_pos rfl, List.length_nil, Nat.add_zero]
    | cons x u =>
      have hx : x ≠ c := fun heq => hu (heq ▸ List.mem_cons_self)
      have hx0 : x ≠ 0 := fun heq => h0 (heq ▸ List.mem_cons_self)
      rw [List.length_cons] at hn ⊢
      rw [At.head h, if_neg hx0, if_neg hx, ih (At.tail h) (fun hmem => h0 (List.mem_cons_of_mem x hmem))
        (fun hmem => hu (List.mem_cons_of_mem x hmem)) (by omega)]
      congr 1
      omega

/-! ## The loops -/

theorem lines_newline (h : At buf p (u ++ NEWLINE :: v)) (h0 : 0 ∉ u) (hu : NEWLINE ∉ u)
    (hlen : u.length < BUFSIZE) : lines pattern (n + 1) buf p =
      if match' pattern u then
        ((lines pattern n buf (p + u.length + 1)).1,
          u ++ [NEWLINE] ++ (lines pattern n buf (p + u.length + 1)).2)
      else lines pattern n (update buf (p + u.length) 0) (p + u.length + 1) := by
  have hsome : strchr buf NEWLINE BUFSIZE p = some (p + u.length) :=
    strchr_of_mem h h0 hu (by decide) hlen
  have hline : cstr (update buf (p + u.length) 0) p BUFSIZE = u :=
    h.cut.cstr_eq h0 hlen.le
  have hback : update (update buf (p + u.length) 0) (p + u.length) NEWLINE =
      buf := by
    rw [update_idem, ← h.drop.head, update_eq_self]
  have hwrite : buf.slice p (p + u.length + 1 - p) = u ++ [NEWLINE] := by
    have hslice : buf.slice p (u ++ [NEWLINE]).length = u ++ [NEWLINE] := by
      refine At.slice_eq (v := v) ?_
      rw [List.append_assoc]
      exact h
    rw [List.length_append, List.length_singleton] at hslice
    rw [show p + u.length + 1 - p = u.length + 1 by omega]
    exact hslice
  rw [lines, hsome]
  dsimp only
  rw [hline, hback, hwrite]

theorem lines_spec (pattern : List Byte) (h : At buf p l) (h0 : 0 ∉ l) (hlen : l.length < BUFSIZE)
    (hn : l.length < n) :
    ∃ front rest, l = front ++ rest ∧ NEWLINE ∉ rest ∧ (NEWLINE ∈ l ↔ front ≠ []) ∧
      (lines pattern n buf p).1.2 = p + front.length ∧
      At (lines pattern n buf p).1.1 (p + front.length) rest ∧
      ∀ more, matching pattern (l ++ more) =
        (lines pattern n buf p).2 ++ matching pattern (rest ++ more) := by
  induction n generalizing buf p l with
  | zero => exact absurd hn (Nat.not_lt_zero _)
  | succ n ih =>
    by_cases hmem : NEWLINE ∈ l
    · obtain ⟨u, v, rfl, hu⟩ := List.eq_append_cons_of_mem hmem
      rw [List.length_append, List.length_cons] at hlen hn
      have h0u : 0 ∉ u := fun hin => h0 (List.mem_append_left _ hin)
      have h0v : 0 ∉ v := fun hin => h0 (List.mem_append_right _ (List.mem_cons_of_mem _ hin))
      have hv : At buf (p + u.length + 1) v := h.drop.tail
      have hlength : ∀ front : List Byte,
          p + (u ++ NEWLINE :: front).length = p + u.length + 1 + front.length := by
        intro front
        rw [List.length_append, List.length_cons]
        omega
      have hmore : ∀ v more : List Byte, u ++ NEWLINE :: v ++ more = u ++ NEWLINE :: (v ++ more) :=
        fun v more => List.append_assoc u (NEWLINE :: v) more
      rw [lines_newline h h0u hu (by omega)]
      by_cases hmatch : match' pattern u = true
      · obtain ⟨front, rest, rfl, hrest, -, hp, hat, hout⟩ := ih hv h0v (by omega) (by omega)
        refine ⟨u ++ NEWLINE :: front, rest, (hmore _ _).symm, hrest, iff_of_true hmem (by simp), ?_⟩
        rw [if_pos hmatch, hlength]
        refine ⟨hp, hat, fun more => ?_⟩
        rw [hmore, matching_cons hu, if_pos hmatch, hout]
        exact (List.append_assoc ..).symm
      · obtain ⟨front, rest, rfl, hrest, -, hp, hat, hout⟩ :=
          ih (hv.update_of_lt (Nat.lt_succ_self _) 0) h0v (by omega) (by omega)
        refine ⟨u ++ NEWLINE :: front, rest, (hmore _ _).symm, hrest, iff_of_true hmem (by simp), ?_⟩
        rw [if_neg hmatch, hlength]
        refine ⟨hp, hat, fun more => ?_⟩
        rw [hmore, matching_cons hu, if_neg hmatch, hout]
        rfl
    · refine ⟨[], l, rfl, hmem, iff_of_false hmem (not_not_intro rfl), ?_⟩
      have hnone : strchr buf NEWLINE BUFSIZE p = none := strchr_of_not_mem h hmem
      rw [lines, hnone]
      exact ⟨rfl, h, fun _ => rfl⟩

/-- The start of a line is in the buffer. -/
structure Holds (s : State) (rest : List Byte) : Prop where
  length : s.m = rest.length
  bytes : ∀ i (h : i < rest.length), s.buf i = rest[i]
  no_newline : NEWLINE ∉ rest
  no_nul : 0 ∉ rest

theorem Holds.nil (buf : Bytes) : Holds ⟨buf, 0⟩ [] where
  length := rfl
  bytes i hi := absurd hi (Nat.not_lt_zero i)
  no_newline := List.not_mem_nil
  no_nul := List.not_mem_nil

theorem Holds.at {s : State} {rest : List Byte} (h : Holds s rest) (chunk : List Byte) :
    At (update (s.buf.splice s.m chunk) (s.m + chunk.length) 0) 0 (rest ++ chunk) := by
  intro i hi
  rw [List.length_append, ← h.length] at hi
  rw [Nat.zero_add]
  rcases hi.lt_or_eq with hlt | rfl
  · rw [update_of_ne (by omega)]
    by_cases hrest : i < s.m
    · rw [Bytes.splice_of_lt _ hrest]
      rw [h.length] at hrest
      rw [List.getD_append _ _ _ _ hrest, List.getD_eq_getElem _ _ hrest, h.bytes i hrest]
    · obtain ⟨j, rfl⟩ := Nat.exists_eq_add_of_le (Nat.le_of_not_lt hrest)
      rw [Bytes.splice_add _ (by omega), h.length, List.getD_append_right _ _ _ _ (Nat.le_add_right ..),
        Nat.add_sub_cancel_left]
      rfl
  · rw [update_self, List.getD_eq_default]
    rw [List.length_append, h.length]

theorem pass_spec (pattern : List Byte) {s : State} {rest chunk : List Byte} (h : Holds s rest) (h0 : 0 ∉ chunk)
    (hm : s.m < BUFSIZE) (hlen : chunk.length ≤ BUFSIZE - s.m - 1) :
    ∃ rest', Holds (pass pattern s chunk).1 rest' ∧ rest'.length < BUFSIZE ∧
      (NEWLINE ∉ chunk → rest' = [] ∧ (pass pattern s chunk).2 = []) ∧
      (NEWLINE ∈ chunk → ∀ more, matching pattern (rest ++ chunk ++ more) =
        (pass pattern s chunk).2 ++ matching pattern (rest' ++ more)) := by
  have hlength : (rest ++ chunk).length = s.m + chunk.length := by
    rw [List.length_append, h.length]
  have hnul : 0 ∉ rest ++ chunk := by
    rw [List.mem_append, not_or]
    exact ⟨h.no_nul, h0⟩
  have hmem : NEWLINE ∈ rest ++ chunk ↔ NEWLINE ∈ chunk := by
    rw [List.mem_append, or_iff_right h.no_newline]
  obtain ⟨front, rest', hdata, hrest, hfront, hp, hat, hout⟩ :=
    lines_spec pattern (n := BUFSIZE) (h.at chunk) hnul (by omega) (by omega)
  rw [hmem] at hfront
  rw [Nat.zero_add] at hp hat
  unfold pass
  dsimp only
  rw [hp]
  generalize lines pattern BUFSIZE (update (s.buf.splice s.m chunk) (s.m + chunk.length) 0)
    0 = r at *
  by_cases hin : NEWLINE ∈ chunk
  · have hne : front.length ≠ 0 := fun hx => hfront.1 hin (List.length_eq_zero_iff.1 hx)
    have hsplit : s.m + chunk.length = front.length + rest'.length := by
      rw [← hlength, hdata, List.length_append]
    rw [if_neg hne, if_pos (by omega)]
    have hmove : ∀ i, i < rest'.length →
        Ulib.memmove r.1.1 0 front.length ((s.m + chunk.length - front.length : ℕ) : ℤ) i =
          r.1.1 (front.length + i) := by
      intro i hi
      rw [Ulib.memmove, Int.toNat_natCast, copyUp_eq (.inl (Nat.zero_le _)), moved,
        if_pos (by omega), Nat.sub_zero]
    refine ⟨rest', ⟨by dsimp only; omega, fun i hi => ?_, hrest, fun hx => hnul ?_⟩, by omega,
      fun hx => absurd hin hx, fun _ => hout⟩
    · exact (hmove i hi).trans (hat.getElem hi)
    · rw [hdata]
      exact List.mem_append_right _ hx
  · have hnil : front = [] := not_not.1 fun hx => hin (hfront.2 hx)
    have hzero : front.length = 0 := by
      rw [hnil]
      rfl
    rw [if_pos hzero, if_neg (lt_irrefl 0)]
    refine ⟨[], .nil _, by decide, fun _ => ⟨rfl, ?_⟩, fun hx => absurd hx hin⟩
    -- no line has ended
    have hnone := hout []
    rw [List.append_nil, matching_of_not_mem fun hx => hin (hmem.1 hx)] at hnone
    exact (List.append_eq_nil_iff.1 hnone.symm).1

theorem grepFrom_eq {s : State} {rest : List Byte} (h : Holds s rest) (hm : s.m < BUFSIZE)
    {chunks : List (List Byte)} (h0 : ∀ c ∈ chunks, 0 ∉ c) (hreads : ReadsFrom pattern s chunks)
    (htimely : Timely chunks) :
    grepFrom pattern s chunks = matching pattern (rest ++ chunks.flatten) := by
  induction chunks generalizing s rest with
  | nil =>
    rw [List.flatten_nil, List.append_nil, matching_of_not_mem h.no_newline]
    rfl
  | cons chunk chunks ih =>
    obtain ⟨-, hlen, hnext⟩ := hreads
    obtain ⟨hlast, htimely⟩ := List.pairwise_cons.1 htimely
    obtain ⟨rest', h', hlen', hdrop, hkeep⟩ :=
      pass_spec pattern h (h0 chunk List.mem_cons_self) hm hlen
    have hm' : (pass pattern s chunk).1.m < BUFSIZE := by
      rw [h'.length]
      exact hlen'
    rw [grepFrom, ih h' hm' (fun c hc => h0 c (List.mem_cons_of_mem _ hc)) hnext htimely,
      List.flatten_cons, ← List.append_assoc]
    by_cases hin : NEWLINE ∈ chunk
    · exact (hkeep hin _).symm
    · -- nor does one later
      obtain ⟨rfl, hnone⟩ := hdrop hin
      have hflat : NEWLINE ∉ chunks.flatten := by
        intro hx
        obtain ⟨c, hc, hxc⟩ := List.mem_flatten.1 hx
        exact hlast c hc hin hxc
      have hall : NEWLINE ∉ rest ++ chunk ++ chunks.flatten := by
        simp only [List.mem_append, not_or]
        exact ⟨⟨h.no_newline, hin⟩, hflat⟩
      rw [hnone, matching_of_not_mem hall, List.nil_append, List.nil_append,
        matching_of_not_mem hflat]

theorem matching_nil_append (hu : NEWLINE ∉ u) (hv : NEWLINE ∈ v) :
    matching [] (u ++ v) = u ++ matching [] v := by
  obtain ⟨w, v, rfl, hw⟩ := List.eq_append_cons_of_mem hv
  have hall : ∀ l, match' [] l = true := fun l => by cases l <;> rfl
  have huw : NEWLINE ∉ u ++ w := by
    rw [List.mem_append, not_or]
    exact ⟨hu, hw⟩
  rw [← List.append_assoc, matching_cons huw, matching_cons hw, if_pos (hall _), if_pos (hall _)]
  simp

theorem length_grepFrom_le {s : State} {rest : List Byte} (h : Holds s rest) (hm : s.m < BUFSIZE)
    {chunks : List (List Byte)} (h0 : ∀ c ∈ chunks, 0 ∉ c) (hreads : ReadsFrom [] s chunks) :
    (grepFrom [] s chunks).length ≤ (matching [] (rest ++ chunks.flatten)).length ∧
      (¬ Timely chunks →
        (grepFrom [] s chunks).length < (matching [] (rest ++ chunks.flatten)).length) := by
  induction chunks generalizing s rest with
  | nil => exact ⟨Nat.zero_le _, fun hnot => absurd List.Pairwise.nil hnot⟩
  | cons chunk chunks ih =>
    obtain ⟨hne, hlen, hnext⟩ := hreads
    obtain ⟨rest', h', hlen', hdrop, hkeep⟩ := pass_spec [] h (h0 chunk List.mem_cons_self) hm hlen
    have hm' : (pass [] s chunk).1.m < BUFSIZE := by
      rw [h'.length]
      exact hlen'
    have hih := ih h' hm' (fun c hc => h0 c (List.mem_cons_of_mem _ hc)) hnext
    rw [grepFrom, List.flatten_cons, ← List.append_assoc, List.length_append]
    by_cases hin : NEWLINE ∈ chunk
    · rw [hkeep hin, List.length_append]
      refine ⟨Nat.add_le_add_left hih.1 _, fun hnot => Nat.add_lt_add_left (hih.2 fun ht => ?_) _⟩
      exact hnot (List.pairwise_cons.2 ⟨fun _ _ hx => absurd hin hx, ht⟩)
    · obtain ⟨rfl, hnone⟩ := hdrop hin
      have hu : NEWLINE ∉ rest ++ chunk := by
        rw [List.mem_append, not_or]
        exact ⟨h.no_newline, hin⟩
      rw [hnone, List.length_nil, Nat.zero_add]
      by_cases hflat : NEWLINE ∈ chunks.flatten
      · -- the line that ends later has lost its start
        have hpos := List.length_pos_iff.2 hne
        have hle := hih.1
        rw [matching_nil_append hu hflat, List.length_append, List.length_append]
        rw [List.nil_append] at hle
        exact ⟨by omega, fun _ => by omega⟩
      · rw [List.nil_append, matching_of_not_mem hflat] at hih
        refine ⟨hih.1.trans (Nat.zero_le _), fun hnot => absurd ?_ hnot⟩
        refine List.pairwise_of_forall_mem_list fun _ _ d hd _ hx => ?_
        rcases List.mem_cons.1 hd with rfl | hd
        · exact hin hx
        · exact hflat (List.mem_flatten.2 ⟨d, hd, hx⟩)

/-- Whatever is in the buffer at first, and for every input without NUL and every way to split it into
reads: `grep` writes the lines that match, for every pattern, if and only if no read without a
newline comes before a read with one. -/
theorem grep_eq_matching_iff (chunks : List (List Byte)) (h0 : 0 ∉ chunks.flatten)
    (hreads : ∀ pattern, Reads pattern buf chunks) :
    (∀ pattern, grep pattern buf chunks = matching pattern chunks.flatten) ↔ Timely chunks := by
  have hnul : ∀ c ∈ chunks, 0 ∉ c := fun c hc hx => h0 (List.mem_flatten.2 ⟨c, hc, hx⟩)
  constructor
  · intro heq
    by_contra hnot
    have hlt := (length_grepFrom_le (.nil buf) (show 0 < BUFSIZE by decide) hnul (hreads [])).2 hnot
    exact absurd (congrArg List.length (heq [])) (Nat.ne_of_lt hlt)
  · intro htimely pattern
    exact grepFrom_eq (.nil buf) (show 0 < BUFSIZE by decide) hnul (hreads pattern) htimely

theorem readsFrom_of_length {s : State} {chunks : List (List Byte)} (hne : ∀ c ∈ chunks, c ≠ [])
    (hlen : s.m + chunks.flatten.length < BUFSIZE) : ReadsFrom pattern s chunks := by
  induction chunks generalizing s with
  | nil => trivial
  | cons chunk chunks ih =>
    rw [List.flatten_cons, List.length_append] at hlen
    have hle : (pass pattern s chunk).1.m ≤ s.m + chunk.length := by
      unfold pass
      dsimp only
      split_ifs <;> dsimp only <;> omega
    refine ⟨hne chunk List.mem_cons_self, by omega, ih (fun c hc => ?_) (by omega)⟩
    exact hne c (List.mem_cons_of_mem _ hc)

/-- The second read starts with the end of a line. -/
theorem grep_eq_matching_iff_two :
    grep [97#8] .zero [[97#8, 10#8, 98#8], [97#8, 10#8]] =
      matching [97#8] [97#8, 10#8, 98#8, 97#8, 10#8] := by
  have hreads : ∀ pattern, Reads pattern .zero [[97#8, 10#8, 98#8], [97#8, 10#8]] :=
    fun _ => readsFrom_of_length (by decide) (by decide)
  exact (grep_eq_matching_iff [[97#8, 10#8, 98#8], [97#8, 10#8]] (by decide) hreads).2 (by decide) _

/-- The line `ab` and the pattern `a`: the line comes out if one read returns it, but not if the `a`
is read first. -/
theorem grep_drops :
    Reads [97#8] .zero [[97#8], [98#8, 10#8]] ∧ Reads [97#8] .zero [[97#8, 98#8, 10#8]] ∧
      grep [97#8] .zero [[97#8], [98#8, 10#8]] = [] ∧
      grep [97#8] .zero [[97#8, 98#8, 10#8]] = [97#8, 98#8, 10#8] ∧
      matching [97#8] [97#8, 98#8, 10#8] = [97#8, 98#8, 10#8] := by
  refine ⟨⟨by decide, by decide, by decide, by decide +kernel, trivial⟩,
    ⟨by decide, by decide, trivial⟩, by decide +kernel, by decide +kernel, by decide +kernel⟩

end Xv6.Grep
