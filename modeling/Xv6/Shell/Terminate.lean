import Xv6.Shell.Grammar

/-!
# The strings of a command

`nulterminate` of `sh.c`, and the strings that are in the command line after it. The strings of a tree
are words of the line: a word is a longest run of characters that are neither blanks nor symbols. A
terminator replaces the character behind a word, which is a blank or a symbol, or the end of the line.
So it is in no other word.

A pointer into a line of `n` characters that points to `p` is the index `n - p.length`.
-/

namespace Xv6.Shell

open Function

/-- The end of a string. -/
def NUL : Char := '\x00'

def Cmd.words : Cmd → List Slice
  | .exec argv => argv
  | .redir cmd file _ _ => cmd.words ++ [file]
  | .pipe left right => left.words ++ right.words
  | .list left right => left.words ++ right.words
  | .back cmd => cmd.words

def nulterminate (n : ℕ) : Cmd → (ℕ → Char) → ℕ → Char
  | .exec argv, b => argv.foldl (fun b w => update b (n - w.eq.length) NUL) b
  | .redir cmd file _ _, b => update (nulterminate n cmd b) (n - file.eq.length) NUL
  | .pipe left right, b => nulterminate n right (nulterminate n left b)
  | .list left right, b => nulterminate n right (nulterminate n left b)
  | .back cmd, b => nulterminate n cmd b

/-- A character of a word. -/
def isPlain (c : Char) : Bool := !isSpace c && !isSymbol c

variable {buf pre s s' : List Char} {c : Char} {w : Slice} {t : Token}

/-! ## Words of the line -/

def Boundary (pre s : List Char) : Prop :=
  ∀ c ∈ pre.getLast?, ∀ d ∈ s.head?, isPlain c = true → isPlain d = false

/-- A slice of the line is a longest run of the characters of words. -/
structure IsWord (buf : List Char) (w : Slice) (pre text : List Char) : Prop where
  line_eq : buf = pre ++ w.q
  q_eq : w.q = text ++ w.eq
  ne_nil : text ≠ []
  plain : ∀ c ∈ text, isPlain c = true
  before : ∀ c ∈ pre.getLast?, isPlain c = false
  behind : ∀ c ∈ w.eq.head?, isPlain c = false

theorem Boundary.of_last (h : ∀ c ∈ pre.getLast?, isPlain c = false) : Boundary pre s := by
  intro c hc d _ hplain
  rw [h c hc] at hplain
  cases hplain

theorem Boundary.of_head (h : ∀ d ∈ s.head?, isPlain d = false) : Boundary pre s :=
  fun _ _ d hd _ => h d hd

theorem Boundary.of_append (pre s : List Char) {taken : List Char} (hc : taken.getLast? = some c)
    (hplain : isPlain c = false) : Boundary (pre ++ taken) s := by
  refine .of_last fun d hd => ?_
  rw [List.getLast?_append, hc, Option.some_or] at hd
  cases hd
  exact hplain

theorem Boundary.skip (h : Boundary pre s) : ∃ blanks, s = blanks ++ skip s ∧
    Boundary (pre ++ blanks) (skip s) := by
  have hsplit : s = s.takeWhile isSpace ++ Shell.skip s := (List.takeWhile_append_dropWhile).symm
  cases hlast : (s.takeWhile isSpace).getLast? with
  | none =>
    have hnil := List.getLast?_eq_none_iff.1 hlast
    rw [hnil, List.nil_append] at hsplit
    refine ⟨[], hsplit, ?_⟩
    rw [List.append_nil, ← hsplit]
    exact h
  | some c =>
    have hspace := List.mem_takeWhile_imp (List.mem_of_getLast? hlast)
    refine ⟨s.takeWhile isSpace, hsplit, .of_append _ _ hlast ?_⟩
    simp [isPlain, hspace]

theorem tokenAt_symbol (r : List Char) (hc : isSymbol c = true) : ∃ t taken e x,
    tokenAt (c :: r) = (some t, e) ∧ c :: r = taken ++ e ∧ taken.getLast? = some x ∧
      isSymbol x = true ∧ ∀ w, t ≠ .word w := by
  have hmem : c = '<' ∨ c = '|' ∨ c = '>' ∨ c = '&' ∨ c = ';' ∨ c = '(' ∨ c = ')' := by
    simpa [isSymbol] using hc
  rcases hmem with rfl | rfl | rfl | rfl | rfl | rfl | rfl
  case inr.inr.inl =>
    cases r with
    | nil => exact ⟨.greater, ['>'], [], '>', rfl, rfl, rfl, rfl, by simp⟩
    | cons d r =>
      by_cases hd : d = '>'
      · subst hd
        exact ⟨.append, ['>', '>'], r, '>', rfl, rfl, rfl, rfl, by simp⟩
      · exact ⟨.greater, ['>'], d :: r, '>', by simp [tokenAt, hd], rfl, rfl, rfl, by simp⟩
  all_goals exact ⟨_, [_], r, _, rfl, rfl, rfl, hc, by simp⟩

theorem tokenAt_plain (r : List Char) (hc : isPlain c = true) :
    tokenAt (c :: r) = (some (.word ⟨c :: r, wordEnd (c :: r)⟩), wordEnd (c :: r)) := by
  have hsymbol : isSymbol c = false := by
    simpa using (Bool.and_eq_true_iff.1 hc).2
  have hnone : c ≠ '<' ∧ c ≠ '|' ∧ c ≠ '>' ∧ c ≠ '&' ∧ c ≠ ';' ∧ c ≠ '(' ∧ c ≠ ')' := by
    simpa [isSymbol] using hsymbol
  simp [tokenAt, hnone]

theorem Boundary.isWord {r : List Char} (h : Boundary pre (c :: r)) (hc : isPlain c = true) :
    IsWord (pre ++ c :: r) ⟨c :: r, wordEnd (c :: r)⟩ pre ((c :: r).takeWhile isPlain) where
  line_eq := rfl
  q_eq := List.takeWhile_append_dropWhile.symm
  ne_nil := by
    rw [List.takeWhile_cons_of_pos hc]
    exact List.cons_ne_nil _ _
  plain _ hx := List.mem_takeWhile_imp hx
  before x hx := by
    by_contra hplain
    have hfalse := h x hx c rfl (Bool.not_eq_false _ ▸ hplain)
    rw [hc] at hfalse
    cases hfalse
  behind x hx := by
    have hhead := List.head?_dropWhile_not isPlain (c :: r)
    rw [show ((c :: r).dropWhile isPlain).head? = some x from hx] at hhead
    exact hhead

theorem Boundary.tokenAt {r : List Char} (h : Boundary pre (c :: r)) (hc : isSpace c = false) :
    ∃ t taken e, tokenAt (c :: r) = (some t, e) ∧ c :: r = taken ++ e ∧ Boundary (pre ++ taken) e ∧
      ∀ w, t = .word w → ∃ text, IsWord (pre ++ c :: r) w pre text := by
  by_cases hsymbol : isSymbol c = true
  · obtain ⟨t, taken, e, x, htoken, hr, hlast, hx, hnot⟩ := tokenAt_symbol r hsymbol
    have hplain : isPlain x = false := by simp [isPlain, hx]
    exact ⟨t, taken, e, htoken, hr, .of_append _ _ hlast hplain, fun w hw => absurd hw (hnot w)⟩
  · have hplain : isPlain c = true := by simp [isPlain, hc, hsymbol]
    have hword := h.isWord hplain
    refine ⟨_, _, _, tokenAt_plain r hplain, hword.q_eq, .of_head hword.behind, fun w hw => ?_⟩
    obtain rfl := Token.word.inj hw
    exact ⟨_, hword⟩

theorem Boundary.gettoken (h : Boundary pre s) (hget : gettoken s = (some t, s')) :
    ∃ taken, s = taken ++ s' ∧ Boundary (pre ++ taken) s' ∧
      ∀ w, t = .word w → ∃ pre' text, IsWord (pre ++ s) w pre' text := by
  obtain ⟨blanks, hs, hb⟩ := h.skip
  cases hskip : Shell.skip s with
  | nil =>
    rw [gettoken_of_nil hskip] at hget
    cases hget
  | cons c r =>
    rw [hskip] at hs hb
    obtain ⟨t', taken, e, htoken, hr, hb', hword⟩ := hb.tokenAt (not_isSpace_of_skip hskip)
    obtain ⟨blanks', he, hb''⟩ := hb'.skip
    rw [Shell.gettoken, hskip, htoken] at hget
    obtain ⟨htok, rfl⟩ := Prod.mk.inj hget
    cases htok
    have hline : s = blanks ++ taken ++ blanks' ++ Shell.skip e := by
      calc s = blanks ++ (taken ++ e) := by rw [← hr, ← hs]
        _ = blanks ++ taken ++ (blanks' ++ Shell.skip e) := by rw [← he, List.append_assoc]
        _ = _ := (List.append_assoc ..).symm
    refine ⟨blanks ++ taken ++ blanks', hline, ?_, fun w hw => ?_⟩
    · rw [← List.append_assoc, ← List.append_assoc]
      exact hb''
    · obtain ⟨text, htext⟩ := hword w hw
      rw [List.append_assoc, ← hs] at htext
      exact ⟨_, text, htext⟩

theorem isWord_of_mem_lex (h : Boundary pre s) (hw : .word w ∈ lex s) :
    ∃ pre' text, IsWord (pre ++ s) w pre' text := by
  -- the tokens one after the other
  induction hlex : lex s generalizing pre s with
  | nil =>
    rw [hlex] at hw
    cases hw
  | cons t ts ih =>
    obtain ⟨s', hget, hrest, -⟩ := gettoken_of_lex_cons hlex
    obtain ⟨taken, hs, hb, hword⟩ := h.gettoken hget
    rw [hlex] at hw
    rcases List.mem_cons.1 hw with ht | hw
    · exact hword w ht.symm
    · have hnext := ih hb (hrest.symm ▸ hw) hrest
      rw [List.append_assoc, ← hs] at hnext
      exact hnext

/-! ## Words of the tree -/

theorem words_wrap (cmd : Cmd) (rs : List Redir) :
    (wrap cmd rs).words = cmd.words ++ rs.map Redir.file := by
  induction rs generalizing cmd with
  | nil => exact (List.append_nil _).symm
  | cons r rs ih =>
    show (wrap (.redir cmd r.file r.mode r.fd) rs).words = _
    rw [ih]
    exact List.append_assoc ..

theorem words_backs (n : ℕ) (cmd : Cmd) : (backs n cmd).words = cmd.words := by
  induction n generalizing cmd with
  | zero => rfl
  | succ n ih => exact ih _

theorem RedirToken.file_mem (r : RedirToken) : Token.word r.redir.file ∈ r.tokens := by
  cases r <;> exact List.mem_cons_of_mem _ List.mem_cons_self

theorem Item.words_mem (l : List Item) : ∀ w ∈ Item.words l ++ (Item.redirs l).map Redir.file,
    Token.word w ∈ l.flatMap Item.tokens := by
  induction l with
  | nil => nofun
  | cons i l ih =>
    intro w hw
    rw [List.flatMap_cons, List.mem_append]
    cases i with
    | redir r =>
      -- its file, or a word or a file behind it
      have hcases : w = r.redir.file ∨ w ∈ Item.words l ++ (Item.redirs l).map Redir.file := by
        rcases List.mem_append.1 hw with hw | hw
        · exact .inr (List.mem_append_left _ hw)
        · exact (List.mem_cons.1 hw).imp_right fun hw => List.mem_append_right _ hw
      rcases hcases with rfl | hw
      · exact .inl r.file_mem
      · exact .inr (ih w hw)
    | word w' =>
      rcases List.mem_cons.1 hw with rfl | hw
      · exact .inl List.mem_cons_self
      · exact .inr (ih w hw)

theorem Derives.words_mem {N : Nonterminal} {ts : List Token} {cmd : Cmd} (h : Derives N ts cmd) :
    ∀ w ∈ cmd.words, Token.word w ∈ ts := by
  induction h with
  | line n _ ih =>
    intro w hw
    rw [words_backs] at hw
    exact List.mem_append_left _ (ih w hw)
  | seq n _ _ ih ih' =>
    intro w hw
    rcases List.mem_append.1 hw with hw | hw
    · rw [words_backs] at hw
      exact List.mem_append_left _ (List.mem_append_left _ (ih w hw))
    · exact List.mem_append_right _ (List.mem_cons_of_mem _ (ih' w hw))
  | single _ ih => exact ih
  | pipe _ _ ih ih' =>
    intro w hw
    rcases List.mem_append.1 hw with hw | hw
    · exact List.mem_append_left _ (ih w hw)
    · exact List.mem_append_right _ (List.mem_cons_of_mem _ (ih' w hw))
  | block rs _ ih =>
    intro w hw
    rw [words_wrap] at hw
    rcases List.mem_append.1 hw with hw | hw
    · exact List.mem_append_left _ (List.mem_cons_of_mem _ (ih w hw))
    · rw [List.map_map] at hw
      obtain ⟨r, hr, rfl⟩ := List.mem_map.1 hw
      exact List.mem_append_right _
        (List.mem_cons_of_mem _ (List.mem_flatMap.2 ⟨r, hr, r.file_mem⟩))
  | simple l _ =>
    intro w hw
    rw [words_wrap] at hw
    exact Item.words_mem l w hw

/-! ## Terminators -/

theorem foldl_terminate (n : ℕ) (ws : List Slice) (b : ℕ → Char) (i : ℕ) :
    ws.foldl (fun b w => update b (n - w.eq.length) NUL) b i =
      if ∃ w ∈ ws, n - w.eq.length = i then NUL else b i := by
  induction ws generalizing b with
  | nil => exact (if_neg nofun).symm
  | cons w ws ih =>
    rw [List.foldl_cons, ih, update_apply]
    by_cases hws : ∃ w ∈ ws, n - w.eq.length = i
    · rw [if_pos hws, if_pos (hws.imp fun w h => ⟨List.mem_cons_of_mem _ h.1, h.2⟩)]
    · rw [if_neg hws]
      by_cases hw : i = n - w.eq.length
      · rw [if_pos hw, if_pos ⟨w, List.mem_cons_self, hw.symm⟩]
      · rw [if_neg hw, if_neg]
        rintro ⟨v, hv, hi⟩
        rcases List.mem_cons.1 hv with rfl | hv
        · exact hw hi.symm
        · exact hws ⟨v, hv, hi⟩

theorem nulterminate_eq_foldl (n : ℕ) (cmd : Cmd) (b : ℕ → Char) : nulterminate n cmd b =
    cmd.words.foldl (fun b w => update b (n - w.eq.length) NUL) b := by
  induction cmd generalizing b with
  | exec argv => rfl
  | redir cmd file mode fd ih => rw [nulterminate, ih, Cmd.words, List.foldl_append]; rfl
  | pipe left right ih ih' => rw [nulterminate, ih', ih, Cmd.words, List.foldl_append]
  | list left right ih ih' => rw [nulterminate, ih', ih, Cmd.words, List.foldl_append]
  | back cmd ih => exact ih b

section

variable {text : List Char}

theorem IsWord.getElem?_text (h : IsWord buf w pre text) {i : ℕ} (hi : i < text.length) :
    buf[pre.length + i]? = some text[i] := by
  rw [h.line_eq, h.q_eq, List.getElem?_append_right (Nat.le_add_right ..), Nat.add_sub_cancel_left,
    List.getElem?_append_left hi, List.getElem?_eq_getElem hi]

theorem IsWord.end_eq (h : IsWord buf w pre text) :
    buf.length - w.eq.length = pre.length + text.length := by
  rw [h.line_eq, h.q_eq, List.length_append, List.length_append]
  omega

theorem IsWord.getElem?_end (h : IsWord buf w pre text) :
    buf[pre.length + text.length]? = w.eq.head? := by
  rw [h.line_eq, h.q_eq, ← List.append_assoc, ← List.length_append,
    List.getElem?_append_right le_rfl, Nat.sub_self, List.head?_eq_getElem?]

theorem IsWord.end_ne {v : Slice} {pre' text' : List Char} (h : IsWord buf w pre text)
    (h' : IsWord buf v pre' text') {i : ℕ} (hi : i < text.length) :
    buf.length - v.eq.length ≠ pre.length + i := by
  intro heq
  rw [h'.end_eq] at heq
  have hhead : v.eq.head? = some text[i] := by
    rw [← h'.getElem?_end, heq, h.getElem?_text hi]
  have hfalse := h'.behind _ hhead
  rw [h.plain _ (List.getElem_mem hi)] at hfalse
  cases hfalse

end

theorem getD_of_line {mem : List Char} {i : ℕ} (h : (lineOf mem)[i]? = some c) :
    mem.getD i NUL = c := by
  have hsplit : mem = lineOf mem ++ mem.dropWhile (· ≠ '\x00') :=
    List.takeWhile_append_dropWhile.symm
  obtain ⟨hlt, -⟩ := List.getElem?_eq_some_iff.1 h
  rw [List.getD_eq_getElem?_getD, hsplit, List.getElem?_append_left hlt, h]
  rfl

/-- After `nulterminate`, every word of the tree of a command line is a string: a longest run of
characters that are neither blanks nor symbols, and the NUL behind it. -/
theorem nulterminate_strings {mem : List Char} {cmd : Cmd} (h : parsecmd mem = .ok cmd) :
    ∀ w ∈ cmd.words, ∃ pre text, IsWord (lineOf mem) w pre text ∧ NUL ∉ text ∧
      (∀ i (hi : i < text.length), nulterminate (lineOf mem).length cmd (fun j => mem.getD j NUL)
        (pre.length + i) = text[i]) ∧
      nulterminate (lineOf mem).length cmd (fun j => mem.getD j NUL)
        (pre.length + text.length) = NUL := by
  have hwords : ∀ w ∈ cmd.words, ∃ pre text, IsWord (lineOf mem) w pre text := by
    intro w hw
    have hstart : Boundary [] (lineOf mem) := fun c hc => nomatch hc
    exact isWord_of_mem_lex hstart ((derives_of_parsecmd h).words_mem w hw)
  intro w hw
  obtain ⟨pre, text, hword⟩ := hwords w hw
  refine ⟨pre, text, hword, fun hnul => ?_, fun i hi => ?_, ?_⟩
  · -- the line ends before its first NUL
    have hmem : NUL ∈ lineOf mem := by
      rw [hword.line_eq, hword.q_eq]
      exact List.mem_append_right _ (List.mem_append_left _ hnul)
    have hne : decide (NUL ≠ '\x00') = true :=
      List.mem_takeWhile_imp (p := fun c => decide (c ≠ '\x00')) hmem
    exact of_decide_eq_true hne rfl
  · rw [nulterminate_eq_foldl, foldl_terminate, if_neg]
    · exact getD_of_line (hword.getElem?_text hi)
    · rintro ⟨v, hv, heq⟩
      obtain ⟨pre', text', hv'⟩ := hwords v hv
      exact hword.end_ne hv' hi heq
  · rw [nulterminate_eq_foldl, foldl_terminate, if_pos ⟨w, hw, hword.end_eq⟩]

/-- Words that touch symbols, a redirection without blanks, and the end of the line. -/
theorem nulterminate_strings_touching :
    ∃ cmd, parsecmd "ls>f;(a|b)".toList = .ok cmd ∧ cmd.words.length = 4 ∧
      ∀ w ∈ cmd.words, ∃ pre text, IsWord (lineOf "ls>f;(a|b)".toList) w pre text ∧ NUL ∉ text ∧
        (∀ i (hi : i < text.length), nulterminate (lineOf "ls>f;(a|b)".toList).length cmd
          (fun j => "ls>f;(a|b)".toList.getD j NUL) (pre.length + i) = text[i]) ∧
        nulterminate (lineOf "ls>f;(a|b)".toList).length cmd
          (fun j => "ls>f;(a|b)".toList.getD j NUL) (pre.length + text.length) = NUL := by
  have hparse : parsecmd "ls>f;(a|b)".toList = .ok
      (.list (.redir (.exec [⟨"ls>f;(a|b)".toList, ">f;(a|b)".toList⟩])
          ⟨"f;(a|b)".toList, ";(a|b)".toList⟩ 0x201 1)
        (.pipe (.exec [⟨"a|b)".toList, "|b)".toList⟩]) (.exec [⟨"b)".toList, ")".toList⟩]))) := by
    decide +kernel
  exact ⟨_, hparse, rfl, nulterminate_strings hparse⟩

end Xv6.Shell
