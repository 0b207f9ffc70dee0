import Xv6.Shell.Parse
import Mathlib.Data.List.DropRight

/-!
# What the shell accepts

The grammar of command lines, over their tokens, with the tree of each derivation: a line is a
pipeline with any number of `&` behind it and perhaps a `;` and another line, a pipeline is commands
with `|` between them, and a command is a block with redirections, or words and redirections in any
order. The parser accepts exactly the lines of the grammar and gives their tree.

`lex` is the token sequence, as `gettoken` gives it. In its terms `gettoken` takes the first token
and `peek` looks at it, and the rest of the development does not look at characters.
-/

namespace Xv6.Shell

/-! ## Tokens -/

def Token.first : Token → Option Char
  | .bar => some '|'
  | .lparen => some '('
  | .rparen => some ')'
  | .semi => some ';'
  | .amp => some '&'
  | .less => some '<'
  | .greater => some '>'
  | .append => some '>'
  | .word _ => none

theorem length_skip_le (s : List Char) : (skip s).length ≤ s.length :=
  (List.dropWhile_sublist _).length_le

theorem skip_skip (s : List Char) : skip (skip s) = skip s := by
  unfold skip
  exact List.dropWhile_idempotent _ _

theorem not_isSpace_of_skip {s r : List Char} {c : Char} (h : skip s = c :: r) :
    isSpace c = false := by
  have hhead := List.head?_dropWhile_not isSpace s
  rw [show s.dropWhile isSpace = c :: r from h] at hhead
  exact hhead

theorem tokenAt_cons {c : Char} (r : List Char) (hc : isSpace c = false) :
    ∃ t s', tokenAt (c :: r) = (some t, s') ∧ s'.length ≤ r.length ∧
      t.first = if isSymbol c then some c else none := by
  by_cases hsymbol : isSymbol c
  · rw [if_pos hsymbol]
    have hmem : c = '<' ∨ c = '|' ∨ c = '>' ∨ c = '&' ∨ c = ';' ∨ c = '(' ∨ c = ')' := by
      simpa [isSymbol] using hsymbol
    rcases hmem with rfl | rfl | rfl | rfl | rfl | rfl | rfl
    case inr.inr.inl =>
      -- `>` or `>>`
      by_cases hnext : r.head? = some '>'
      · exact ⟨.append, r.tail, by simp [tokenAt, hnext], by simp, rfl⟩
      · exact ⟨.greater, r, by simp [tokenAt, hnext], Nat.le_refl _, rfl⟩
    all_goals exact ⟨_, r, rfl, Nat.le_refl _, rfl⟩
  · -- A word: its first character is neither blank nor a symbol.
    rw [if_neg hsymbol]
    have hnone : c ≠ '<' ∧ c ≠ '|' ∧ c ≠ '>' ∧ c ≠ '&' ∧ c ≠ ';' ∧ c ≠ '(' ∧ c ≠ ')' := by
      simpa [isSymbol] using hsymbol
    refine ⟨.word ⟨c :: r, wordEnd (c :: r)⟩, wordEnd (c :: r), by simp [tokenAt, hnone], ?_, rfl⟩
    unfold wordEnd
    rw [List.dropWhile_cons_of_pos (by simp [hc, hsymbol])]
    exact (List.dropWhile_sublist _).length_le

theorem gettoken_of_nil {s : List Char} (h : skip s = []) : gettoken s = (none, []) := by
  unfold gettoken
  rw [h]
  rfl

theorem gettoken_of_cons {s r : List Char} {c : Char} (h : skip s = c :: r) :
    ∃ t s', gettoken s = (some t, s') ∧ s'.length < s.length ∧
      t.first = if isSymbol c then some c else none := by
  obtain ⟨t, s', htoken, hlen, hfirst⟩ := tokenAt_cons r (not_isSpace_of_skip h)
  refine ⟨t, skip s', by unfold gettoken; rw [h, htoken], ?_, hfirst⟩
  have hs := length_skip_le s
  have hs' := length_skip_le s'
  rw [h, List.length_cons] at hs
  omega

theorem gettoken_lt {s s' : List Char} {t : Token} (h : gettoken s = (some t, s')) :
    s'.length < s.length := by
  cases hskip : skip s with
  | nil =>
    rw [gettoken_of_nil hskip] at h
    cases h
  | cons c r =>
    obtain ⟨t', s'', hget, hlt, -⟩ := gettoken_of_cons hskip
    rw [h] at hget
    obtain ⟨-, rfl⟩ := Prod.mk.inj hget
    exact hlt

def lex (s : List Char) : List Token :=
  match _h : gettoken s with
  | (some t, s') => t :: lex s'
  | (none, _) => []
termination_by s.length
decreasing_by exact gettoken_lt (by assumption)

theorem lex_of_some {s s' : List Char} {t : Token} (h : gettoken s = (some t, s')) :
    lex s = t :: lex s' := by
  rw [lex]
  split
  · rename_i h'
    rw [h] at h'
    obtain ⟨ht, rfl⟩ := Prod.mk.inj h'
    rw [Option.some.inj ht]
  · rename_i h'
    rw [h] at h'
    cases h'

theorem lex_of_none {s s' : List Char} (h : gettoken s = (none, s')) : lex s = [] := by
  rw [lex]
  split
  · rename_i h'
    rw [h] at h'
    cases h'
  · rfl

theorem lex_nil : lex [] = [] := lex_of_none (gettoken_of_nil rfl)

theorem lex_eq_nil_iff {s : List Char} : lex s = [] ↔ skip s = [] := by
  constructor
  · intro h
    cases hskip : skip s with
    | nil => rfl
    | cons c r =>
      obtain ⟨t, s', hget, -⟩ := gettoken_of_cons hskip
      rw [lex_of_some hget] at h
      cases h
  · exact fun h => lex_of_none (gettoken_of_nil h)

theorem gettoken_of_lex_cons {s : List Char} {t : Token} {ts : List Token} (h : lex s = t :: ts) :
    ∃ s', gettoken s = (some t, s') ∧ lex s' = ts ∧ s'.length < s.length := by
  cases hget : gettoken s with
  | mk tok s' =>
    cases tok with
    | none =>
      rw [lex_of_none hget] at h
      cases h
    | some t' =>
      rw [lex_of_some hget] at h
      obtain ⟨rfl, rfl⟩ := List.cons.inj h
      exact ⟨s', rfl, rfl, gettoken_lt hget⟩

theorem gettoken_of_lex_nil {s : List Char} (h : lex s = []) : gettoken s = (none, []) :=
  gettoken_of_nil (lex_eq_nil_iff.1 h)

def starts (ts : List Token) (toks : List Char) : Bool :=
  ts.head?.any fun t => t.first.any toks.contains

theorem lex_skip (s : List Char) : lex (skip s) = lex s := by
  have hget : gettoken (skip s) = gettoken s := by
    unfold gettoken
    rw [skip_skip]
  cases h : gettoken s with
  | mk tok s' =>
    cases tok with
    | none => rw [lex_of_none h, lex_of_none (hget.trans h)]
    | some t => rw [lex_of_some h, lex_of_some (hget.trans h)]

theorem peek_fst {s toks : List Char} (htoks : toks.all isSymbol = true) :
    (peek s toks).1 = starts (lex s) toks := by
  unfold peek starts
  cases hskip : skip s with
  | nil => rw [lex_eq_nil_iff.2 hskip]; rfl
  | cons c r =>
    obtain ⟨t, s', hget, -, hfirst⟩ := gettoken_of_cons hskip
    rw [lex_of_some hget]
    simp only [List.head?_cons, Option.any_some, hfirst]
    by_cases hc : isSymbol c
    · simp [hc]
    · -- A word starts with none of the characters.
      simp only [hc]
      have hnot : toks.contains c = false := by
        rw [List.contains_eq_mem]
        refine decide_eq_false fun hmem => hc ?_
        exact List.all_eq_true.1 htoks c hmem
      simpa using hnot

theorem lex_peek (s toks : List Char) : lex (peek s toks).2 = lex s := lex_skip s

theorem length_peek_le (s toks : List Char) : (peek s toks).2.length ≤ s.length := length_skip_le s

/-! ## The grammar -/

/-- `redir ::= ('<' | '>' | '>>') word` -/
inductive RedirToken
  | less (w : Slice)
  | greater (w : Slice)
  | append (w : Slice)

def RedirToken.tokens : RedirToken → List Token
  | .less w => [.less, .word w]
  | .greater w => [.greater, .word w]
  | .append w => [.append, .word w]

def RedirToken.redir : RedirToken → Redir
  | .less w => ⟨w, 0, 0⟩
  | .greater w => ⟨w, 0x201, 1⟩
  | .append w => ⟨w, 0x201, 1⟩

/-- `redir | word` -/
inductive Item
  | redir (r : RedirToken)
  | word (w : Slice)

namespace Item

def tokens : Item → List Token
  | .redir r => r.tokens
  | .word w => [.word w]

def words : List Item → List Slice
  | [] => []
  | .redir _ :: l => words l
  | .word w :: l => w :: words l

/-- Its redirections. -/
def redirs : List Item → List Redir
  | [] => []
  | .redir r :: l => r.redir :: redirs l
  | .word _ :: l => redirs l

end Item

def backs : ℕ → Cmd → Cmd
  | 0, c => c
  | n + 1, c => backs n (.back c)

/-- The nonterminals. -/
inductive Nonterminal
  | line | pipe | exec

/-- The tokens are derived from a nonterminal, and this is the tree of the derivation. -/
inductive Derives : Nonterminal → List Token → Cmd → Prop
  /-- `line ::= pipe '&'*` -/
  | line {t : List Token} {c : Cmd} (n : ℕ) (hp : Derives .pipe t c) :
    Derives .line (t ++ List.replicate n .amp) (backs n c)
  /-- `line ::= pipe '&'* ';' line` -/
  | seq {t u : List Token} {c d : Cmd} (n : ℕ) (hp : Derives .pipe t c) (hl : Derives .line u d) :
    Derives .line (t ++ List.replicate n .amp ++ .semi :: u) (.list (backs n c) d)
  /-- `pipe ::= exec` -/
  | single {t : List Token} {c : Cmd} (he : Derives .exec t c) : Derives .pipe t c
  /-- `pipe ::= exec '|' pipe` -/
  | pipe {t u : List Token} {c d : Cmd} (he : Derives .exec t c) (hp : Derives .pipe u d) :
    Derives .pipe (t ++ .bar :: u) (.pipe c d)
  /-- `exec ::= '(' line ')' redir*` -/
  | block {t : List Token} {c : Cmd} (rs : List RedirToken) (hl : Derives .line t c) :
    Derives .exec (.lparen :: t ++ .rparen :: rs.flatMap RedirToken.tokens)
      (wrap c (rs.map RedirToken.redir))
  /-- `exec ::= (redir | word)*`, with at most `MAXARGS - 1` words. -/
  | simple (l : List Item) (hargs : (Item.words l).length ≤ MAXARGS - 1) :
    Derives .exec (l.flatMap Item.tokens) (wrap (.exec (Item.words l)) (Item.redirs l))

/-! ## What is accepted is in the grammar -/

def Parsed (N : Nonterminal) (s : List Char) : Except Fail (Cmd × List Char) → Prop
  | .ok (c, s') => s'.length ≤ s.length ∧ ∃ t, lex s = t ++ lex s' ∧ Derives N t c
  | .error e => e ≠ .fuel

theorem starts_cons (t : Token) (ts : List Token) (toks : List Char) :
    starts (t :: ts) toks = t.first.any toks.contains := rfl

theorem gettoken_peek {s toks : List Char} (htoks : toks.all isSymbol = true)
    (h : (peek s toks).1 = true) :
    ∃ t s', gettoken (peek s toks).2 = (some t, s') ∧ lex s = t :: lex s' ∧
      s'.length < s.length ∧ t.first.any toks.contains = true := by
  rw [peek_fst htoks] at h
  cases hlex : lex s with
  | nil =>
    rw [hlex] at h
    cases h
  | cons t ts =>
    rw [hlex, starts_cons] at h
    obtain ⟨s', hget, hrest, hlt⟩ := gettoken_of_lex_cons ((lex_peek s toks).trans hlex)
    exact ⟨t, s', hget, by rw [hrest], hlt.trans_le (length_peek_le s toks), h⟩

def ParsedRedirs (s : List Char) : Except Fail (List Redir × List Char) → Prop
  | .ok (rs, s') => s'.length ≤ s.length ∧
    ∃ l : List RedirToken, lex s = l.flatMap RedirToken.tokens ++ lex s' ∧
      rs = l.map RedirToken.redir
  | .error e => e ≠ .fuel

theorem redirOf_of_first {t : Token} (h : t.first.any ['<', '>'].contains = true) (w : Slice) :
    ∃ r : RedirToken, r.tokens = [t, .word w] ∧ redirOf (some t) w = [r.redir] := by
  cases t with
  | less => exact ⟨.less w, rfl, rfl⟩
  | greater => exact ⟨.greater w, rfl, rfl⟩
  | append => exact ⟨.append w, rfl, rfl⟩
  | _ => cases h

theorem parseredirs_parsed {n : ℕ} {s : List Char} (hn : s.length < n) :
    ParsedRedirs s (parseredirs n s) := by
  induction n generalizing s with
  | zero => omega
  | succ n ih =>
    unfold parseredirs
    by_cases hpeek : (peek s ['<', '>']).1 = true
    · obtain ⟨t, s₁, hget, hlex, hlt, hfirst⟩ := gettoken_peek (by decide) hpeek
      simp only [hpeek, if_true, hget]
      cases hget₂ : gettoken s₁ with
      | mk tok s₂ =>
        cases tok with
        | none => exact Fail.noConfusion
        | some t₂ =>
          cases t₂ with
          | word w =>
            have hlt₂ := gettoken_lt hget₂
            have hrest := ih (s := s₂) (by omega)
            obtain ⟨r, htokens, hredir⟩ := redirOf_of_first hfirst w
            cases hparse : parseredirs n s₂ with
            | error e =>
              simp only [hparse] at hrest ⊢
              exact hrest
            | ok x =>
              simp only [hparse] at hrest ⊢
              obtain ⟨hle, l, hlex₂, hrs⟩ := hrest
              refine ⟨by omega, r :: l, ?_, ?_⟩
              · rw [hlex, lex_of_some hget₂, hlex₂, List.flatMap_cons, htokens]
                rfl
              · rw [hredir, hrs]
                rfl
          | _ => exact Fail.noConfusion
    · simp only [hpeek]
      exact ⟨length_peek_le s _, [], (lex_peek s _).symm, rfl⟩

def ParsedArgs (argv : List Slice) (rs : List Redir) (s : List Char) :
    Except Fail (Cmd × List Char) → Prop
  | .ok (c, s') => s'.length ≤ s.length ∧
    ∃ l : List Item, lex s = l.flatMap Item.tokens ++ lex s' ∧
      (argv ++ Item.words l).length ≤ MAXARGS - 1 ∧
      c = wrap (.exec (argv ++ Item.words l)) (rs ++ Item.redirs l)
  | .error e => e ≠ .fuel

theorem redirs_items (l : List RedirToken) (l' : List Item) :
    (l.map Item.redir ++ l').flatMap Item.tokens =
        l.flatMap RedirToken.tokens ++ l'.flatMap Item.tokens ∧
      Item.words (l.map Item.redir ++ l') = Item.words l' ∧
      Item.redirs (l.map Item.redir ++ l') = l.map RedirToken.redir ++ Item.redirs l' := by
  induction l with
  | nil => exact ⟨rfl, rfl, rfl⟩
  | cons r l ih =>
    obtain ⟨htokens, hwords, hredirs⟩ := ih
    refine ⟨?_, hwords, ?_⟩
    · rw [List.map_cons, List.cons_append, List.flatMap_cons, htokens, List.flatMap_cons,
        List.append_assoc]
      rfl
    · exact congrArg (r.redir :: ·) hredirs

theorem parseargs_parsed {n : ℕ} {argv : List Slice} {rs : List Redir} {s : List Char}
    (hn : s.length < n) (hargv : argv.length ≤ MAXARGS - 1) :
    ParsedArgs argv rs s (parseargs n argv rs s) := by
  induction n generalizing argv rs s with
  | zero => omega
  | succ n ih =>
    unfold parseargs
    by_cases hpeek : (peek s ['|', ')', '&', ';']).1 = true
    · simp only [hpeek, if_true]
      refine ⟨length_peek_le s _, [], (lex_peek s _).symm, ?_, ?_⟩
      · simpa [Item.words] using hargv
      · simp [Item.words, Item.redirs]
    · simp only [hpeek]
      have hlook := lex_peek s ['|', ')', '&', ';']
      have hlooklen := length_peek_le s ['|', ')', '&', ';']
      cases hget : gettoken (peek s ['|', ')', '&', ';']).2 with
      | mk tok s₁ =>
        cases tok with
        | none =>
          have hnil := lex_of_none hget
          obtain rfl : s₁ = [] := by
            rw [gettoken_of_lex_nil hnil] at hget
            exact (Prod.mk.inj hget).2.symm
          refine ⟨Nat.zero_le _, [], ?_, ?_, ?_⟩
          · rw [← hlook, hnil, lex_nil]
            rfl
          · simpa [Item.words] using hargv
          · simp [Item.words, Item.redirs]
        | some t =>
          cases t with
          | word w =>
            have hlt := gettoken_lt hget
            have hlex := hlook.symm.trans (lex_of_some hget)
            by_cases hmany : MAXARGS ≤ argv.length + 1
            · simp only [hmany, if_true]
              exact Fail.noConfusion
            · simp only [hmany, if_false]
              have hredirs := parseredirs_parsed (n := s₁.length + 1) (s := s₁) (Nat.lt_succ_self _)
              cases hparse : parseredirs (s₁.length + 1) s₁ with
              | error e =>
                rw [hparse] at hredirs
                exact hredirs
              | ok x =>
                rw [hparse] at hredirs
                obtain ⟨rs', s₂⟩ := x
                obtain ⟨hle, l, hlex₂, rfl⟩ := hredirs
                have hrest : ParsedArgs (argv ++ [w]) (rs ++ l.map RedirToken.redir) s₂
                    (parseargs n (argv ++ [w]) (rs ++ l.map RedirToken.redir) s₂) :=
                  ih (by omega) (by simp; omega)
                cases hparse₂ :
                    parseargs n (argv ++ [w]) (rs ++ l.map RedirToken.redir) s₂ with
                | error e =>
                  simp only [hparse₂] at hrest ⊢
                  exact hrest
                | ok x =>
                  simp only [hparse₂] at hrest ⊢
                  obtain ⟨hle₂, l', hlex₃, hlen, hc⟩ := hrest
                  obtain ⟨htokens, hwords, hredirs⟩ := redirs_items l l'
                  refine ⟨by omega, .word w :: (l.map Item.redir ++ l'), ?_, ?_, ?_⟩
                  · rw [hlex, hlex₂, hlex₃, List.flatMap_cons, htokens, List.append_assoc,
                      List.append_assoc]
                    rfl
                  · rw [Item.words, hwords]
                    simpa using hlen
                  · rw [Item.words, Item.redirs, hwords, hredirs, hc]
                    simp
          | _ => exact Fail.noConfusion

theorem parseback_eq {n k : ℕ} {c : Cmd} {s : List Char} {u : List Token} (hn : s.length < n)
    (hlex : lex s = List.replicate k .amp ++ u) (hu : starts u ['&'] = false) :
    ∃ s', parseback n c s = .ok (backs k c, s') ∧ lex s' = u ∧ s'.length ≤ s.length := by
  induction k generalizing n c s with
  | zero =>
    obtain ⟨n, rfl⟩ : ∃ m, n = m + 1 := ⟨n - 1, by omega⟩
    have hlex : lex s = u := hlex
    have hpeek : (peek s ['&']).1 = false := by rw [peek_fst (by decide), hlex, hu]
    refine ⟨(peek s ['&']).2, ?_, (lex_peek s _).trans hlex, length_peek_le s _⟩
    rw [parseback, hpeek]
    rfl
  | succ k ih =>
    obtain ⟨n, rfl⟩ : ∃ m, n = m + 1 := ⟨n - 1, by omega⟩
    rw [List.replicate_succ, List.cons_append] at hlex
    have hpeek : (peek s ['&']).1 = true := by rw [peek_fst (by decide), hlex]; rfl
    obtain ⟨s₁, hget, hlex₁, hlt⟩ := gettoken_of_lex_cons ((lex_peek s ['&']).trans hlex)
    have hlen := length_peek_le s ['&']
    obtain ⟨s', hparse, hrest, hle⟩ := ih (n := n) (c := .back c) (s := s₁) (by omega) hlex₁
    refine ⟨s', ?_, hrest, by omega⟩
    rw [parseback, if_pos hpeek, hget, hparse]
    rfl

theorem exists_replicate_amp (ts : List Token) :
    ∃ k u, ts = List.replicate k .amp ++ u ∧ starts u ['&'] = false := by
  induction ts with
  | nil => exact ⟨0, [], rfl, rfl⟩
  | cons t ts ih =>
    by_cases ht : t = .amp
    · obtain ⟨k, u, rfl, hu⟩ := ih
      exact ⟨k + 1, u, by rw [ht]; rfl, hu⟩
    · refine ⟨0, t :: ts, rfl, ?_⟩
      cases t with
      | amp => exact absurd rfl ht
      | _ => rfl

theorem parseback_parsed {n : ℕ} {c : Cmd} {s : List Char} (hn : s.length < n) :
    ∃ k s', parseback n c s = .ok (backs k c, s') ∧ lex s = List.replicate k .amp ++ lex s' ∧
      s'.length ≤ s.length := by
  obtain ⟨k, u, hlex, hu⟩ := exists_replicate_amp (lex s)
  obtain ⟨s', hparse, hrest, hle⟩ := parseback_eq (c := c) hn hlex hu
  exact ⟨k, s', hparse, by rw [hrest, hlex], hle⟩

theorem gettoken_peek_of {s : List Char} {c : Char} {t : Token} (hsymbol : isSymbol c = true)
    (ht : ∀ t' : Token, t'.first.any [c].contains = true → t' = t) (h : (peek s [c]).1 = true) :
    ∃ s', (gettoken (peek s [c]).2).2 = s' ∧ lex s = t :: lex s' ∧ s'.length < s.length := by
  obtain ⟨t', s', hget, hlex, hlt, hfirst⟩ := gettoken_peek (by simpa using hsymbol) h
  obtain rfl := ht t' hfirst
  exact ⟨s', by rw [hget], hlex, hlt⟩

theorem parseline_parsed {n : ℕ} {s : List Char}
    (ihpipe : ∀ s : List Char, 4 * s.length + 3 ≤ n → Parsed .pipe s (parsepipe n s))
    (ihline : ∀ s : List Char, 4 * s.length + 4 ≤ n → Parsed .line s (parseline n s))
    (hn : 4 * s.length + 4 ≤ n + 1) : Parsed .line s (parseline (n + 1) s) := by
  have hpipe := ihpipe s (by omega)
  rw [parseline]
  cases hparse : parsepipe n s with
  | error e =>
    rw [hparse] at hpipe
    exact hpipe
  | ok x =>
    rw [hparse] at hpipe
    obtain ⟨c, s₁⟩ := x
    obtain ⟨hle₁, t, hlex₁, hc⟩ := hpipe
    obtain ⟨k, s₂, hback, hlex₂, hle₂⟩ := parseback_parsed (c := c) (s := s₁) (Nat.lt_succ_self _)
    simp only [hback]
    by_cases hpeek : (peek s₂ [';']).1 = true
    · obtain ⟨s₃, hget, hlex₃, hlt⟩ := gettoken_peek_of (t := .semi) rfl
        (fun t' h => by cases t' with | semi => rfl | _ => cases h) hpeek
      simp only [hpeek, if_true, hget]
      have hline := ihline s₃ (by omega)
      cases hparse₃ : parseline n s₃ with
      | error e =>
        rw [hparse₃] at hline
        exact hline
      | ok x =>
        rw [hparse₃] at hline
        obtain ⟨d, s₄⟩ := x
        obtain ⟨hle₄, u, hlex₄, hd⟩ := hline
        refine ⟨by omega, t ++ List.replicate k .amp ++ .semi :: u, ?_, .seq k hc hd⟩
        rw [hlex₁, hlex₂, hlex₃, hlex₄]
        simp
    · simp only [hpeek]
      refine ⟨(length_peek_le s₂ _).trans (hle₂.trans hle₁), t ++ List.replicate k .amp, ?_,
        .line k hc⟩
      rw [hlex₁, hlex₂, lex_peek, List.append_assoc]

theorem parsepipe_parsed {n : ℕ} {s : List Char}
    (ihexec : ∀ s : List Char, 4 * s.length + 2 ≤ n → Parsed .exec s (parseexec n s))
    (ihpipe : ∀ s : List Char, 4 * s.length + 3 ≤ n → Parsed .pipe s (parsepipe n s))
    (hn : 4 * s.length + 3 ≤ n + 1) : Parsed .pipe s (parsepipe (n + 1) s) := by
  have hexec := ihexec s (by omega)
  rw [parsepipe]
  cases hparse : parseexec n s with
  | error e =>
    rw [hparse] at hexec
    exact hexec
  | ok x =>
    rw [hparse] at hexec
    obtain ⟨c, s₁⟩ := x
    obtain ⟨hle₁, t, hlex₁, hc⟩ := hexec
    by_cases hpeek : (peek s₁ ['|']).1 = true
    · obtain ⟨s₂, hget, hlex₂, hlt⟩ := gettoken_peek_of (t := .bar) rfl
        (fun t' h => by cases t' with | bar => rfl | _ => cases h) hpeek
      simp only [hpeek, if_true, hget]
      have hpipe := ihpipe s₂ (by omega)
      cases hparse₂ : parsepipe n s₂ with
      | error e =>
        rw [hparse₂] at hpipe
        exact hpipe
      | ok x =>
        rw [hparse₂] at hpipe
        obtain ⟨d, s₃⟩ := x
        obtain ⟨hle₃, u, hlex₃, hd⟩ := hpipe
        refine ⟨by omega, t ++ .bar :: u, ?_, .pipe hc hd⟩
        rw [hlex₁, hlex₂, hlex₃]
        simp
    · simp only [hpeek]
      refine ⟨(length_peek_le s₁ _).trans hle₁, t, ?_, .single hc⟩
      rw [hlex₁, lex_peek]

theorem parseblock_parsed {n : ℕ} {s : List Char}
    (ihline : ∀ s : List Char, 4 * s.length + 4 ≤ n → Parsed .line s (parseline n s))
    (hpeek : (peek s ['(']).1 = true) (hn : 4 * s.length + 1 ≤ n + 1) :
    Parsed .exec s (parseblock (n + 1) s) := by
  obtain ⟨s₁, hget, hlex₁, hlt₁⟩ := gettoken_peek_of (t := .lparen) rfl
    (fun t' h => by cases t' with | lparen => rfl | _ => cases h) hpeek
  have hline := ihline s₁ (by omega)
  rw [parseblock]
  simp only [hpeek, if_true, hget]
  cases hparse : parseline n s₁ with
  | error e =>
    rw [hparse] at hline
    exact hline
  | ok x =>
    rw [hparse] at hline
    obtain ⟨c, s₂⟩ := x
    obtain ⟨hle₂, t, hlex₂, hc⟩ := hline
    by_cases hpeek₂ : (peek s₂ [')']).1 = true
    · obtain ⟨s₃, hget₂, hlex₃, hlt₃⟩ := gettoken_peek_of (t := .rparen) rfl
        (fun t' h => by cases t' with | rparen => rfl | _ => cases h) hpeek₂
      simp only [hpeek₂, if_true, hget₂]
      have hredirs := parseredirs_parsed (s := s₃) (Nat.lt_succ_self _)
      cases hparse₃ : parseredirs (s₃.length + 1) s₃ with
      | error e =>
        rw [hparse₃] at hredirs
        exact hredirs
      | ok x =>
        rw [hparse₃] at hredirs
        obtain ⟨rs, s₄⟩ := x
        obtain ⟨hle₄, l, hlex₄, rfl⟩ := hredirs
        refine ⟨by omega, .lparen :: t ++ .rparen :: l.flatMap RedirToken.tokens, ?_, .block l hc⟩
        rw [hlex₁, hlex₂, hlex₃, hlex₄]
        simp
    · simp only [hpeek₂]
      exact Fail.noConfusion

theorem parseexec_parsed {n : ℕ} {s : List Char}
    (ihblock : ∀ s : List Char, (peek s ['(']).1 = true → 4 * s.length + 1 ≤ n →
      Parsed .exec s (parseblock n s))
    (hn : 4 * s.length + 2 ≤ n + 1) : Parsed .exec s (parseexec (n + 1) s) := by
  have hlook := lex_peek s ['(']
  have hlen := length_peek_le s ['(']
  rw [parseexec]
  by_cases hpeek : (peek s ['(']).1 = true
  · -- `parseblock` looks again.
    have hagain : (peek (peek s ['(']).2 ['(']).1 = true := by
      rw [peek_fst (by decide), hlook, ← peek_fst (by decide)]
      exact hpeek
    have hblock := ihblock _ hagain (by omega)
    rw [if_pos hpeek]
    cases hparse : parseblock n (peek s ['(']).2 with
    | error e =>
      rw [hparse] at hblock
      exact hblock
    | ok x =>
      rw [hparse] at hblock
      obtain ⟨hle, t, hlex, hc⟩ := hblock
      exact ⟨hle.trans hlen, t, hlook.symm.trans hlex, hc⟩
  · rw [if_neg hpeek]
    have hredirs := parseredirs_parsed (s := (peek s ['(']).2) (Nat.lt_succ_self _)
    cases hparse : parseredirs ((peek s ['(']).2.length + 1) (peek s ['(']).2 with
    | error e =>
      rw [hparse] at hredirs
      exact hredirs
    | ok x =>
      rw [hparse] at hredirs
      obtain ⟨rs, s₁⟩ := x
      obtain ⟨hle₁, l, hlex₁, rfl⟩ := hredirs
      have hargs : ParsedArgs [] (l.map RedirToken.redir) s₁
          (parseargs (s₁.length + 1) [] (l.map RedirToken.redir) s₁) :=
        parseargs_parsed (Nat.lt_succ_self _) (Nat.zero_le _)
      simp only
      cases hparse₂ : parseargs (s₁.length + 1) [] (l.map RedirToken.redir) s₁ with
      | error e =>
        rw [hparse₂] at hargs
        exact hargs
      | ok x =>
        rw [hparse₂] at hargs
        obtain ⟨c, s₂⟩ := x
        obtain ⟨hle₂, l', hlex₂, hwords, rfl⟩ := hargs
        obtain ⟨htokens, hwords', hredirs'⟩ := redirs_items l l'
        rw [List.nil_append] at hwords ⊢
        refine ⟨by omega, (l.map Item.redir ++ l').flatMap Item.tokens, ?_, ?_⟩
        · rw [← hlook, hlex₁, hlex₂, htokens, List.append_assoc]
        · have hsimple := Derives.simple (l.map Item.redir ++ l') (by rw [hwords']; exact hwords)
          rw [hwords', hredirs'] at hsimple
          exact hsimple

theorem parse_parsed (n : ℕ) :
    (∀ s : List Char, 4 * s.length + 4 ≤ n → Parsed .line s (parseline n s)) ∧
    (∀ s : List Char, 4 * s.length + 3 ≤ n → Parsed .pipe s (parsepipe n s)) ∧
    (∀ s : List Char, 4 * s.length + 2 ≤ n → Parsed .exec s (parseexec n s)) ∧
    (∀ s : List Char, (peek s ['(']).1 = true → 4 * s.length + 1 ≤ n →
      Parsed .exec s (parseblock n s)) := by
  induction n with
  | zero => refine ⟨?_, ?_, ?_, ?_⟩ <;> intros <;> omega
  | succ n ih =>
    obtain ⟨ihline, ihpipe, ihexec, ihblock⟩ := ih
    exact ⟨fun s => parseline_parsed ihpipe ihline, fun s => parsepipe_parsed ihexec ihpipe,
      fun s => parseexec_parsed ihblock, fun s => parseblock_parsed ihline⟩

/-! ## What is in the grammar is accepted -/

def Nonterminal.follow : Nonterminal → List Token
  | .line => [.rparen]
  | .pipe => [.rparen, .amp, .semi]
  | .exec => [.rparen, .amp, .semi, .bar]

def Follows (N : Nonterminal) (u : List Token) : Prop := ∀ t ∈ u.head?, t ∈ N.follow

def parse : Nonterminal → ℕ → List Char → Except Fail (Cmd × List Char)
  | .line => parseline
  | .pipe => parsepipe
  | .exec => parseexec

def Nonterminal.need : Nonterminal → ℕ → ℕ
  | .line, k => 4 * k + 4
  | .pipe, k => 4 * k + 3
  | .exec, k => 4 * k + 2

def Takes (N : Nonterminal) (t : List Token) (c : Cmd) : Prop :=
  ∀ s u n, lex s = t ++ u → Follows N u → N.need s.length ≤ n →
    ∃ s', parse N n s = .ok (c, s') ∧ lex s' = u ∧ s'.length ≤ s.length

theorem Follows.starts_eq {N : Nonterminal} {u : List Token} {toks : List Char} (h : Follows N u)
    (htoks : ∀ t ∈ N.follow, t.first.any toks.contains = false) : starts u toks = false := by
  cases u with
  | nil => rfl
  | cons t u => exact htoks t (h t rfl)

theorem parseredirs_eq {n : ℕ} {l : List RedirToken} {s : List Char} {u : List Token}
    (hn : s.length < n) (hlex : lex s = l.flatMap RedirToken.tokens ++ u)
    (hu : starts u ['<', '>'] = false) :
    ∃ s', parseredirs n s = .ok (l.map RedirToken.redir, s') ∧ lex s' = u ∧
      s'.length ≤ s.length := by
  induction l generalizing n s with
  | nil =>
    obtain ⟨n, rfl⟩ : ∃ m, n = m + 1 := ⟨n - 1, by omega⟩
    have hlex : lex s = u := hlex
    have hpeek : (peek s ['<', '>']).1 = false := by rw [peek_fst (by decide), hlex, hu]
    refine ⟨(peek s ['<', '>']).2, ?_, (lex_peek s _).trans hlex, length_peek_le s _⟩
    rw [parseredirs, hpeek]
    rfl
  | cons r l ih =>
    obtain ⟨n, rfl⟩ : ∃ m, n = m + 1 := ⟨n - 1, by omega⟩
    obtain ⟨t, w, htokens, hfirst, hredir⟩ : ∃ t w, r.tokens = [t, .word w] ∧
        t.first.any ['<', '>'].contains = true ∧ redirOf (some t) w = [r.redir] := by
      cases r with
      | less w => exact ⟨.less, w, rfl, rfl, rfl⟩
      | greater w => exact ⟨.greater, w, rfl, rfl, rfl⟩
      | append w => exact ⟨.append, w, rfl, rfl, rfl⟩
    rw [List.flatMap_cons, htokens] at hlex
    have hpeek : (peek s ['<', '>']).1 = true := by
      rw [peek_fst (by decide), hlex]
      exact hfirst
    have hlen := length_peek_le s ['<', '>']
    obtain ⟨s₁, hget₁, hlex₁, hlt₁⟩ := gettoken_of_lex_cons ((lex_peek s ['<', '>']).trans hlex)
    obtain ⟨s₂, hget₂, hlex₂, hlt₂⟩ := gettoken_of_lex_cons hlex₁
    obtain ⟨s', hparse, hrest, hle⟩ := ih (n := n) (s := s₂) (by omega) hlex₂
    refine ⟨s', ?_, hrest, by omega⟩
    rw [parseredirs, if_pos hpeek]
    simp only [hget₁, hget₂, hparse, hredir]
    rfl

theorem exists_redirs (l : List Item) :
    ∃ (rs : List RedirToken) (l' : List Item), l = rs.map Item.redir ++ l' ∧
      ∀ r l'', l' ≠ .redir r :: l'' := by
  induction l with
  | nil => exact ⟨[], [], rfl, fun _ _ h => nomatch h⟩
  | cons x l ih =>
    cases x with
    | redir r =>
      obtain ⟨rs, l', rfl, hl'⟩ := ih
      exact ⟨r :: rs, l', rfl, hl'⟩
    | word w => exact ⟨[], .word w :: l, rfl, fun _ _ h => nomatch h⟩

theorem starts_items {l : List Item} {u : List Token} (hl : ∀ r l', l ≠ .redir r :: l')
    (hu : Follows .exec u) : starts (l.flatMap Item.tokens ++ u) ['<', '>'] = false := by
  cases l with
  | nil => exact hu.starts_eq (by decide)
  | cons x l =>
    cases x with
    | redir r => exact absurd rfl (hl r l)
    | word w => rfl

theorem starts_items_paren (l : List Item) {u : List Token} (hu : Follows .exec u) :
    starts (l.flatMap Item.tokens ++ u) ['('] = false := by
  cases l with
  | nil => exact hu.starts_eq (by decide)
  | cons x l =>
    cases x with
    | redir r => cases r <;> rfl
    | word w => rfl

theorem parseargs_eq {n : ℕ} {argv : List Slice} {rs : List Redir} {l : List Item} {s : List Char}
    {u : List Token} (hn : s.length < n) (hlex : lex s = l.flatMap Item.tokens ++ u)
    (hl : ∀ r l', l ≠ .redir r :: l') (hu : Follows .exec u)
    (hargs : (argv ++ Item.words l).length ≤ MAXARGS - 1) :
    ∃ s', parseargs n argv rs s =
        .ok (wrap (.exec (argv ++ Item.words l)) (rs ++ Item.redirs l), s') ∧
      lex s' = u ∧ s'.length ≤ s.length := by
  induction n generalizing argv rs l s with
  | zero => omega
  | succ n ih =>
    have hlook := lex_peek s ['|', ')', '&', ';']
    have hlen := length_peek_le s ['|', ')', '&', ';']
    have hpeek : (peek s ['|', ')', '&', ';']).1 = starts (lex s) ['|', ')', '&', ';'] :=
      peek_fst (by decide)
    cases l with
    | nil =>
      have hlex : lex s = u := hlex
      rw [Item.words, Item.redirs, List.append_nil, List.append_nil, parseargs]
      cases u with
      | nil =>
        rw [hlex] at hpeek
        have hget := gettoken_of_lex_nil (hlook.trans hlex)
        refine ⟨[], ?_, lex_nil, Nat.zero_le _⟩
        simp only [hpeek, hget]
        rfl
      | cons t u =>
        have ht : (peek s ['|', ')', '&', ';']).1 = true := by
          have hall : ∀ t ∈ Nonterminal.exec.follow,
              t.first.any ['|', ')', '&', ';'].contains = true := by decide
          rw [hpeek, hlex]
          exact hall t (hu t rfl)
        refine ⟨(peek s ['|', ')', '&', ';']).2, ?_, hlook.trans hlex, hlen⟩
        simp only [ht, if_true]
    | cons x l =>
      cases x with
      | redir r => exact absurd rfl (hl r l)
      | word w =>
        have hlex : lex s = .word w :: (l.flatMap Item.tokens ++ u) := hlex
        rw [hlex] at hpeek
        obtain ⟨s₁, hget, hlex₁, hlt⟩ := gettoken_of_lex_cons (hlook.trans hlex)
        obtain ⟨rs', l', rfl, hl'⟩ := exists_redirs l
        obtain ⟨htokens, hwords, hredirs⟩ := redirs_items rs' l'
        rw [htokens, List.append_assoc] at hlex₁
        obtain ⟨s₂, hparse, hlex₂, hle₂⟩ :=
          parseredirs_eq (Nat.lt_succ_self _) hlex₁ (starts_items hl' hu)
        rw [Item.words, hwords] at hargs ⊢
        rw [Item.redirs, hredirs]
        have hargs' : (argv ++ [w] ++ Item.words l').length ≤ MAXARGS - 1 := by simpa using hargs
        have hroom : ¬ MAXARGS ≤ argv.length + 1 := by
          simp [MAXARGS] at hargs ⊢
          omega
        obtain ⟨s', hparse', hrest, hle'⟩ : ∃ s', parseargs n (argv ++ [w])
            (rs ++ rs'.map RedirToken.redir) s₂ =
              .ok (wrap (.exec (argv ++ [w] ++ Item.words l'))
                (rs ++ rs'.map RedirToken.redir ++ Item.redirs l'), s') ∧
            lex s' = u ∧ s'.length ≤ s₂.length := ih (by omega) hlex₂ hl' hargs'
        refine ⟨s', ?_, hrest, by omega⟩
        rw [parseargs]
        simp only [hpeek, starts_cons, Token.first, Option.any_none, hget, hroom, if_false, hparse,
          hparse', Bool.false_eq_true]
        simp

theorem parseline_eq {t u : List Token} {c : Cmd} (h : Takes .pipe t c) {n k : ℕ} {s : List Char}
    (hlex : lex s = t ++ List.replicate k .amp ++ u) (hu : Follows .pipe u)
    (hamp : starts u ['&'] = false) (hn : 4 * s.length + 3 ≤ n) :
    ∃ s', lex s' = u ∧ s'.length ≤ s.length ∧
      parseline (n + 1) s =
        if (peek s' [';']).1 then
          (parseline n (gettoken (peek s' [';']).2).2).map fun r => (.list (backs k c) r.1, r.2)
        else .ok (backs k c, (peek s' [';']).2) := by
  have hfollow : Follows .pipe (List.replicate k .amp ++ u) := by
    cases k with
    | zero => exact hu
    | succ k =>
      intro t ht
      obtain rfl : Token.amp = t := Option.some.inj ht
      decide
  rw [List.append_assoc] at hlex
  obtain ⟨s₁, hpipe, hlex₁, hle₁⟩ := h s _ n hlex hfollow hn
  have hpipe : parsepipe n s = .ok (c, s₁) := hpipe
  obtain ⟨s₂, hback, hlex₂, hle₂⟩ := parseback_eq (c := c) (Nat.lt_succ_self _) hlex₁ hamp
  refine ⟨s₂, hlex₂, hle₂.trans hle₁, ?_⟩
  rw [parseline, hpipe]
  simp only [hback]
  cases parseline n (gettoken (peek s₂ [';']).2).2 with
  | ok r => rfl
  | error e => rfl

theorem Takes.line {t : List Token} {c : Cmd} (h : Takes .pipe t c) (k : ℕ) :
    Takes .line (t ++ List.replicate k .amp) (backs k c) := by
  intro s u n hlex hu hn
  obtain ⟨n, rfl⟩ : ∃ m, n = m + 1 := ⟨n - 1, by simp only [Nonterminal.need] at hn; omega⟩
  have hu' : Follows .pipe u := fun t ht => by
    obtain rfl := List.mem_singleton.1 (hu t ht)
    decide
  obtain ⟨s', hlex', hle, hparse⟩ := parseline_eq h hlex hu' (hu.starts_eq (by decide))
    (Nat.le_of_succ_le_succ hn)
  have hpeek : (peek s' [';']).1 = false := by
    rw [peek_fst (by decide), hlex']
    exact hu.starts_eq (by decide)
  refine ⟨(peek s' [';']).2, ?_, (lex_peek s' _).trans hlex', (length_peek_le s' _).trans hle⟩
  show parseline (n + 1) s = _
  rw [hparse, hpeek]
  rfl

theorem Takes.seq {t t' : List Token} {c d : Cmd} (h : Takes .pipe t c) (k : ℕ)
    (h' : Takes .line t' d) :
    Takes .line (t ++ List.replicate k .amp ++ .semi :: t') (.list (backs k c) d) := by
  intro s u n hlex hu hn
  obtain ⟨n, rfl⟩ : ∃ m, n = m + 1 := ⟨n - 1, by simp only [Nonterminal.need] at hn; omega⟩
  have hn : 4 * s.length + 4 ≤ n + 1 := hn
  have hsemi : Follows .pipe (.semi :: (t' ++ u)) := fun t ht => by
    obtain rfl : Token.semi = t := Option.some.inj ht
    decide
  rw [List.append_assoc, List.cons_append] at hlex
  obtain ⟨s₁, hlex₁, hle₁, hparse⟩ := parseline_eq (n := n) h hlex hsemi rfl (by omega)
  have hpeek : (peek s₁ [';']).1 = true := by rw [peek_fst (by decide), hlex₁]; rfl
  have hlen := length_peek_le s₁ [';']
  obtain ⟨s₂, hget, hlex₂, hlt₂⟩ := gettoken_of_lex_cons ((lex_peek s₁ [';']).trans hlex₁)
  obtain ⟨s', hline, hlex', hle'⟩ := h' s₂ u n hlex₂ hu
    (by show 4 * s₂.length + 4 ≤ n; omega)
  have hline : parseline n s₂ = .ok (d, s') := hline
  refine ⟨s', ?_, hlex', by omega⟩
  show parseline (n + 1) s = _
  rw [hparse, if_pos hpeek, hget, hline]
  rfl

theorem Takes.single {t : List Token} {c : Cmd} (h : Takes .exec t c) : Takes .pipe t c := by
  intro s u n hlex hu hn
  obtain ⟨n, rfl⟩ : ∃ m, n = m + 1 := ⟨n - 1, by simp only [Nonterminal.need] at hn; omega⟩
  have hu' : Follows .exec u := fun t ht => by
    show t ∈ Nonterminal.pipe.follow ++ [.bar]
    exact List.mem_append_left _ (hu t ht)
  obtain ⟨s₁, hexec, hlex₁, hle₁⟩ := h s u n hlex hu' (Nat.le_of_succ_le_succ hn)
  have hexec : parseexec n s = .ok (c, s₁) := hexec
  have hpeek : (peek s₁ ['|']).1 = false := by
    rw [peek_fst (by decide), hlex₁]
    exact hu.starts_eq (by decide)
  refine ⟨(peek s₁ ['|']).2, ?_, (lex_peek s₁ _).trans hlex₁, (length_peek_le s₁ _).trans hle₁⟩
  show parsepipe (n + 1) s = _
  rw [parsepipe, hexec]
  simp only [hpeek]
  rfl

theorem Takes.pipe {t t' : List Token} {c d : Cmd} (h : Takes .exec t c) (h' : Takes .pipe t' d) :
    Takes .pipe (t ++ .bar :: t') (.pipe c d) := by
  intro s u n hlex hu hn
  obtain ⟨n, rfl⟩ : ∃ m, n = m + 1 := ⟨n - 1, by simp only [Nonterminal.need] at hn; omega⟩
  have hn : 4 * s.length + 3 ≤ n + 1 := hn
  have hbar : Follows .exec (.bar :: (t' ++ u)) := fun t ht => by
    obtain rfl : Token.bar = t := Option.some.inj ht
    decide
  rw [List.append_assoc, List.cons_append] at hlex
  obtain ⟨s₁, hexec, hlex₁, hle₁⟩ := h s _ n hlex hbar (Nat.le_of_succ_le_succ hn)
  have hexec : parseexec n s = .ok (c, s₁) := hexec
  have hpeek : (peek s₁ ['|']).1 = true := by rw [peek_fst (by decide), hlex₁]; rfl
  have hlen := length_peek_le s₁ ['|']
  obtain ⟨s₂, hget, hlex₂, hlt₂⟩ := gettoken_of_lex_cons ((lex_peek s₁ ['|']).trans hlex₁)
  obtain ⟨s', hpipe, hlex', hle'⟩ := h' s₂ u n hlex₂ hu
    (by show 4 * s₂.length + 3 ≤ n; omega)
  have hpipe : parsepipe n s₂ = .ok (d, s') := hpipe
  refine ⟨s', ?_, hlex', by omega⟩
  show parsepipe (n + 1) s = _
  rw [parsepipe, hexec]
  simp only [hpeek, if_true, hget, hpipe]

theorem Takes.block {t : List Token} {c : Cmd} (h : Takes .line t c) (rs : List RedirToken) :
    Takes .exec (.lparen :: t ++ .rparen :: rs.flatMap RedirToken.tokens)
      (wrap c (rs.map RedirToken.redir)) := by
  intro s u n hlex hu hn
  -- `parseexec` and `parseblock`.
  obtain ⟨n, rfl⟩ : ∃ m, n = m + 2 := ⟨n - 2, by simp only [Nonterminal.need] at hn; omega⟩
  have hn : 4 * s.length + 2 ≤ n + 2 := hn
  rw [List.cons_append, List.cons_append, List.append_assoc, List.cons_append] at hlex
  have hpeek : (peek s ['(']).1 = true := by rw [peek_fst (by decide), hlex]; rfl
  have hlook := lex_peek s ['(']
  have hlen := length_peek_le s ['(']
  have hagain : (peek (peek s ['(']).2 ['(']).1 = true := by
    rw [peek_fst (by decide), hlook, hlex]; rfl
  obtain ⟨s₁, hget₁, hlex₁, hlt₁⟩ :=
    gettoken_of_lex_cons ((lex_peek (peek s ['(']).2 ['(']).trans (hlook.trans hlex))
  have hlen' := length_peek_le (peek s ['(']).2 ['(']
  have hparen : Follows .line (.rparen :: (rs.flatMap RedirToken.tokens ++ u)) := fun t ht => by
    obtain rfl : Token.rparen = t := Option.some.inj ht
    decide
  obtain ⟨s₂, hline, hlex₂, hle₂⟩ := h s₁ _ n hlex₁ hparen
    (by show 4 * s₁.length + 4 ≤ n; omega)
  have hline : parseline n s₁ = .ok (c, s₂) := hline
  have hpeek₂ : (peek s₂ [')']).1 = true := by rw [peek_fst (by decide), hlex₂]; rfl
  have hlen₂ := length_peek_le s₂ [')']
  obtain ⟨s₃, hget₃, hlex₃, hlt₃⟩ := gettoken_of_lex_cons ((lex_peek s₂ [')']).trans hlex₂)
  obtain ⟨s', hredirs, hlex', hle'⟩ :=
    parseredirs_eq (Nat.lt_succ_self _) hlex₃ (hu.starts_eq (by decide))
  refine ⟨s', ?_, hlex', by omega⟩
  show parseexec (n + 2) s = _
  rw [parseexec, if_pos hpeek, parseblock, if_pos hagain, hget₁, hline]
  simp only [hpeek₂, if_true, hget₃, hredirs]

theorem takes_simple (l : List Item) (hargs : (Item.words l).length ≤ MAXARGS - 1) :
    Takes .exec (l.flatMap Item.tokens) (wrap (.exec (Item.words l)) (Item.redirs l)) := by
  intro s u n hlex hu hn
  obtain ⟨n, rfl⟩ : ∃ m, n = m + 1 := ⟨n - 1, by simp only [Nonterminal.need] at hn; omega⟩
  have hpeek : (peek s ['(']).1 = false := by
    rw [peek_fst (by decide), hlex]
    exact starts_items_paren l hu
  have hlook := lex_peek s ['(']
  have hlen := length_peek_le s ['(']
  obtain ⟨rs, l', rfl, hl'⟩ := exists_redirs l
  obtain ⟨htokens, hwords, hredirs⟩ := redirs_items rs l'
  rw [htokens, List.append_assoc] at hlex
  rw [hwords] at hargs ⊢
  rw [hredirs]
  obtain ⟨s₁, hparse₁, hlex₁, hle₁⟩ :=
    parseredirs_eq (Nat.lt_succ_self _) (hlook.trans hlex) (starts_items hl' hu)
  obtain ⟨s', hparse', hlex', hle'⟩ : ∃ s', parseargs (s₁.length + 1) []
      (rs.map RedirToken.redir) s₁ = .ok (wrap (.exec ([] ++ Item.words l'))
        (rs.map RedirToken.redir ++ Item.redirs l'), s') ∧ lex s' = u ∧ s'.length ≤ s₁.length :=
    parseargs_eq (Nat.lt_succ_self _) hlex₁ hl' hu hargs
  refine ⟨s', ?_, hlex', by omega⟩
  show parseexec (n + 1) s = _
  rw [parseexec, hpeek]
  simp only [Bool.false_eq_true, if_false, hparse₁, hparse', List.nil_append]

theorem takes_of_derives {N : Nonterminal} {t : List Token} {c : Cmd} (h : Derives N t c) :
    Takes N t c := by
  induction h with
  | line k _ ih => exact ih.line k
  | seq k _ _ ih ih' => exact ih.seq k ih'
  | single _ ih => exact ih.single
  | pipe _ _ ih ih' => exact ih.pipe ih'
  | block rs _ ih => exact ih.block rs
  | simple l hargs => exact takes_simple l hargs

theorem derives_of_parsecmd {mem : List Char} {c : Cmd} (h : parsecmd mem = .ok c) :
    Derives .line (lex (lineOf mem)) c := by
  generalize hs : lineOf mem = s
  unfold parsecmd at h
  rw [hs] at h
  simp only at h
  have hparsed := (parse_parsed (4 * s.length + 4)).1 s (Nat.le_refl _)
  cases hparse : parseline (4 * s.length + 4) s with
  | error e =>
    rw [hparse] at h
    cases h
  | ok x =>
    rw [hparse] at h hparsed
    obtain ⟨c', s'⟩ := x
    obtain ⟨-, t, hlex, hc⟩ := hparsed
    simp only at h
    split at h
    · rename_i hend
      obtain rfl := Except.ok.inj h
      have hnil : lex s' = [] := lex_eq_nil_iff.2 hend
      rw [hlex, hnil, List.append_nil]
      exact hc
    · cases h

/-- For every command line, `parsecmd` does not reach the bound on its depth, and it accepts the line
exactly if its tokens are a word of the grammar, with the tree of the derivation. -/
theorem parsecmd_iff (mem : List Char) :
    parsecmd mem ≠ .error .fuel ∧
      ∀ c, parsecmd mem = .ok c ↔ Derives .line (lex (lineOf mem)) c := by
  refine ⟨?_, fun c => ⟨derives_of_parsecmd, fun h => ?_⟩⟩
  · unfold parsecmd
    generalize lineOf mem = s
    simp only
    have hparsed := (parse_parsed (4 * s.length + 4)).1 s (Nat.le_refl _)
    cases hparse : parseline (4 * s.length + 4) s with
    | error e =>
      rw [hparse] at hparsed
      exact fun h => hparsed (Except.error.inj h)
    | ok x =>
      simp only
      split
      · exact fun h => nomatch h
      · exact fun h => nomatch (Except.error.inj h)
  · unfold parsecmd
    generalize lineOf mem = s at h
    simp only
    obtain ⟨s', hparse, hrest, -⟩ := takes_of_derives h s [] (4 * s.length + 4) (by simp)
      (fun t ht => nomatch ht) (Nat.le_refl _)
    have hparse : parseline (4 * s.length + 4) s = .ok (c, s') := hparse
    have hend : (peek s' []).2 = [] := lex_eq_nil_iff.1 hrest
    rw [hparse]
    simp only [hend, if_true]

end Xv6.Shell
