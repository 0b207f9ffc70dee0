import Mathlib.Data.List.Basic
import Mathlib.Tactic.Common

/-!
# The parser of the shell

`parsecmd` of `sh.c` and the functions that it calls. A pointer into the command line is what it
points to, up to the end of the line, so that `s < es` is that there is something left. A token that is
a word has the pointers to its start and behind its end, which is all that the tree has of it:
`nulterminate`, which writes the terminators, is left out here.

The functions that call each other, and the loops, take a bound on their depth. `Fail.fuel` is what
they give when it is reached, which for `parsecmd` is never. The user stack is not modelled: it is one
page, and parentheses nested deep enough overflow it, where the parser here goes on.
-/

namespace Xv6.Shell

def MAXARGS : ℕ := 10

/-- The pointers `q` and `eq` to the start of a word and behind its end. -/
structure Slice where
  q : List Char
  eq : List Char
  deriving DecidableEq

/-- What `gettoken` returns. -/
inductive Token
  /-- `|` -/
  | bar
  /-- `(` -/
  | lparen
  /-- `)` -/
  | rparen
  /-- `;` -/
  | semi
  /-- `&` -/
  | amp
  /-- `<` -/
  | less
  /-- `>` -/
  | greater
  /-- `>>`, for which `gettoken` returns `+`. -/
  | append
  /-- `a` -/
  | word (w : Slice)
  deriving DecidableEq

/-- `struct cmd`, by its type. -/
inductive Cmd
  | exec (argv : List Slice)
  | redir (cmd : Cmd) (file : Slice) (mode fd : ℕ)
  | pipe (left right : Cmd)
  | list (left right : Cmd)
  | back (cmd : Cmd)
  deriving DecidableEq

/-- A redirection: the file, the mode and the file descriptor of a `redircmd`. -/
structure Redir where
  file : Slice
  mode : ℕ
  fd : ℕ
  deriving DecidableEq

/-- Why a command is not accepted: a call of `panic`, or the bound on the depth. -/
inductive Fail
  | panic (why : String)
  | fuel
  deriving DecidableEq

/-! ## Tokens -/

/-- `strchr(whitespace, c)` -/
def isSpace (c : Char) : Bool := [' ', '\t', '\r', '\n', '\x0b'].contains c

/-- `strchr(symbols, c)` -/
def isSymbol (c : Char) : Bool := ['<', '|', '>', '&', ';', '(', ')'].contains c

def skip (s : List Char) : List Char := s.dropWhile isSpace

def wordEnd (s : List Char) : List Char := s.dropWhile fun c => !isSpace c && !isSymbol c

def tokenAt (s : List Char) : Option Token × List Char :=
  match s with
  | [] => (none, [])
  | c :: r =>
    if c = '|' then (some .bar, r)
    else if c = '(' then (some .lparen, r)
    else if c = ')' then (some .rparen, r)
    else if c = ';' then (some .semi, r)
    else if c = '&' then (some .amp, r)
    else if c = '<' then (some .less, r)
    else if c = '>' then
      if r.head? = some '>' then (some .append, r.tail) else (some .greater, r)
    else (some (.word ⟨s, wordEnd s⟩), wordEnd s)

def gettoken (s : List Char) : Option Token × List Char :=
  ((tokenAt (skip s)).1, skip (tokenAt (skip s)).2)

def peek (s toks : List Char) : Bool × List Char :=
  ((skip s).head?.any toks.contains, skip s)

/-! ## Commands -/

def wrap (cmd : Cmd) (rs : List Redir) : Cmd := rs.foldl (fun c r => .redir c r.file r.mode r.fd) cmd

def redirOf (tok : Option Token) (w : Slice) : List Redir :=
  if tok = some .less then [⟨w, 0, 0⟩]
  else if tok = some .greater then [⟨w, 0x201, 1⟩]
  else if tok = some .append then [⟨w, 0x201, 1⟩]
  else []

def parseredirs : ℕ → List Char → Except Fail (List Redir × List Char)
  | 0, _ => .error .fuel
  | n + 1, s =>
    if (peek s ['<', '>']).1 then
      let tok := gettoken (peek s ['<', '>']).2
      match gettoken tok.2 with
      | (some (.word w), s) =>
        match parseredirs n s with
        | .ok (rs, s) => .ok (redirOf tok.1 w ++ rs, s)
        | .error e => .error e
      | _ => .error (.panic "missing file for redirection")
    else .ok ([], (peek s ['<', '>']).2)

def parseargs : ℕ → List Slice → List Redir → List Char → Except Fail (Cmd × List Char)
  | 0, _, _, _ => .error .fuel
  | n + 1, argv, rs, s =>
    let look := peek s ['|', ')', '&', ';']
    if look.1 then .ok (wrap (.exec argv) rs, look.2)
    else
      match gettoken look.2 with
      | (none, s) => .ok (wrap (.exec argv) rs, s)
      | (some (.word w), s) =>
        if MAXARGS ≤ argv.length + 1 then .error (.panic "too many args")
        else
          match parseredirs (s.length + 1) s with
          | .ok (rs', s) => parseargs n (argv ++ [w]) (rs ++ rs') s
          | .error e => .error e
      | _ => .error (.panic "syntax")

def parseback : ℕ → Cmd → List Char → Except Fail (Cmd × List Char)
  | 0, _, _ => .error .fuel
  | n + 1, cmd, s =>
    if (peek s ['&']).1 then parseback n (.back cmd) (gettoken (peek s ['&']).2).2
    else .ok (cmd, (peek s ['&']).2)

mutual

def parseline : ℕ → List Char → Except Fail (Cmd × List Char)
  | 0, _ => .error .fuel
  | n + 1, s =>
    match parsepipe n s with
    | .error e => .error e
    | .ok (cmd, s) =>
      match parseback (s.length + 1) cmd s with
      | .error e => .error e
      | .ok (cmd, s) =>
        if (peek s [';']).1 then
          match parseline n (gettoken (peek s [';']).2).2 with
          | .ok (cmd', s) => .ok (.list cmd cmd', s)
          | .error e => .error e
        else .ok (cmd, (peek s [';']).2)

def parsepipe : ℕ → List Char → Except Fail (Cmd × List Char)
  | 0, _ => .error .fuel
  | n + 1, s =>
    match parseexec n s with
    | .error e => .error e
    | .ok (cmd, s) =>
      if (peek s ['|']).1 then
        match parsepipe n (gettoken (peek s ['|']).2).2 with
        | .ok (cmd', s) => .ok (.pipe cmd cmd', s)
        | .error e => .error e
      else .ok (cmd, (peek s ['|']).2)

def parseexec : ℕ → List Char → Except Fail (Cmd × List Char)
  | 0, _ => .error .fuel
  | n + 1, s =>
    if (peek s ['(']).1 then parseblock n (peek s ['(']).2
    else
      match parseredirs ((peek s ['(']).2.length + 1) (peek s ['(']).2 with
      | .ok (rs, s) => parseargs (s.length + 1) [] rs s
      | .error e => .error e

def parseblock : ℕ → List Char → Except Fail (Cmd × List Char)
  | 0, _ => .error .fuel
  | n + 1, s =>
    if (peek s ['(']).1 then
      match parseline n (gettoken (peek s ['(']).2).2 with
      | .error e => .error e
      | .ok (cmd, s) =>
        if (peek s [')']).1 then
          let s := (gettoken (peek s [')']).2).2
          match parseredirs (s.length + 1) s with
          | .ok (rs, s) => .ok (wrap cmd rs, s)
          | .error e => .error e
        else .error (.panic "syntax - missing )")
    else .error (.panic "parseblock")

end

def lineOf (mem : List Char) : List Char := mem.takeWhile (· ≠ '\x00')

def parsecmd (mem : List Char) : Except Fail Cmd :=
  let s := lineOf mem
  match parseline (4 * s.length + 4) s with
  | .error e => .error e
  | .ok (cmd, s) => if (peek s []).2 = [] then .ok cmd else .error (.panic "syntax")

example : parsecmd "ls > f; (a|b)&".toList =
    .ok (.list (.redir (.exec [⟨"ls > f; (a|b)&".toList, " > f; (a|b)&".toList⟩])
        ⟨"f; (a|b)&".toList, "; (a|b)&".toList⟩ 0x201 1)
      (.back (.pipe (.exec [⟨"a|b)&".toList, "|b)&".toList⟩]) (.exec [⟨"b)&".toList, ")&".toList⟩])))) := by
  decide +kernel

end Xv6.Shell
