import Xv6.Lib.Prog
import Xv6.Programs.Strings

/-! The parser of the shell: tokens are places in the line, and strings are ended in it at last. -/

namespace Xv6.Shell

open Prog

/-- Kinds of tokens: those of one character, `'>>'` and words. -/
inductive Kind where
  | bar
  | lparen
  | rparen
  | semi
  | amp
  | less
  | greater
  | append
  | word
  deriving DecidableEq, Repr

/-- `" \t\r\n\v"` -/
def whitespace : List UInt8 := [32, 9, 13, 10, 11]

/-- `"<|>&;()"` -/
def symbols : List UInt8 := [60, 124, 62, 38, 59, 40, 41]

/-- Words of a command, with the end of the list. -/
def maxargs : Nat := 10

/-- A part of the line, from its first character to the one behind it. -/
structure Span where
  q : Nat
  eq : Nat
  deriving DecidableEq, Repr

/-- A redirection: the file, how it is opened, and the descriptor it replaces. -/
structure Redirection where
  file : Span
  mode : Nat
  fd : Nat
  deriving DecidableEq, Repr

/-- Commands as they are parsed. -/
inductive Cmd where
  | exec (argv : List Span)
  | redir (cmd : Cmd) (r : Redirection)
  | pipe (left right : Cmd)
  | list (left right : Cmd)
  | back (cmd : Cmd)
  deriving DecidableEq, Repr

/-- Why the shell gives up a line. -/
inductive Stop where
  | leftovers
  | missingFile
  | parseblock
  | missingParen
  | syntaxError
  | tooManyArgs
  /-- The model ran out of turns, which the shell does not. -/
  | fuel
  deriving DecidableEq, Repr

/-- A part of the parser; its state is the place in the line. -/
abbrev Parser := Prog.Comp Nat Stop

/-- A character of the line, which ends with a zero. -/
def charAt (line : List UInt8) (s : Nat) : UInt8 := line.getD s 0

/-- Go on while the characters are of a kind, for a number of characters at most. -/
def skipWhile (line : List UInt8) (kind : UInt8 → Bool) : Nat → Nat → Nat
  | 0, s => s
  | n + 1, s => if kind (charAt line s) then skipWhile line kind n (s + 1) else s

/-- Go on over blanks. -/
def skipSpace (line : List UInt8) (s : Nat) : Nat :=
  skipWhile line (whitespace.contains ·) (line.length - s) s

/-- A character of a word. -/
def wordChar (c : UInt8) : Bool := !whitespace.contains c && !symbols.contains c

/-- The tokens that are one character. -/
def symbolKind (c : UInt8) : Option Kind :=
  if c = 124 then some .bar
  else if c = 40 then some .lparen
  else if c = 41 then some .rparen
  else if c = 59 then some .semi
  else if c = 38 then some .amp
  else if c = 60 then some .less
  else none

/-- The token at a place that is no blank, and the place behind it; there is none at the end. -/
def tokenAt (line : List UInt8) (s : Nat) : Option Kind × Nat :=
  let c := charAt line s
  if c = 0 then (none, s)
  else match symbolKind c with
    | some kind => (some kind, s + 1)
    | none =>
      if c = 62 then
        if charAt line (s + 1) = 62 then (some .append, s + 2) else (some .greater, s + 1)
      else (some .word, skipWhile line wordChar (line.length - s) s)

/-- Take a token: its kind, if there is one, and its place. -/
def gettoken (line : List UInt8) : Parser (Option Kind × Span) := do
  let q := skipSpace line (← get)
  let (ret, eq) := tokenAt line q
  set (skipSpace line eq)
  return (ret, ⟨q, eq⟩)

/-- Whether the next token begins with one of some characters. -/
def peek (line toks : List UInt8) : Parser Bool := do
  let s := skipSpace line (← get)
  set s
  return charAt line s ≠ 0 && toks.contains (charAt line s)

/-- `O_RDONLY`, for the standard input. -/
def inputFrom (file : Span) : Redirection := ⟨file, 0, 0⟩

/-- `O_WRONLY|O_CREATE|O_TRUNC`, for the standard output. -/
def outputTo (file : Span) : Redirection := ⟨file, 0x001 + 0x200 + 0x400, 1⟩

/-- `O_WRONLY|O_CREATE`, for the standard output. -/
def appendTo (file : Span) : Redirection := ⟨file, 0x001 + 0x200, 1⟩

/-- The redirection a token stands for; `parseredirs` takes no other tokens. -/
def redirection (tok : Option Kind) (file : Span) : List Redirection :=
  match tok with
  | some .less => [inputFrom file]
  | some .greater => [outputTo file]
  | some .append => [appendTo file]
  | _ => []

/-- A command with redirections around it, the last one outermost. -/
def Cmd.redirected (cmd : Cmd) (rs : List Redirection) : Cmd := rs.foldl Cmd.redir cmd

/-- Parse redirections; they are put around the command by the caller, since the words of a simple
command are filled in after that. -/
def parseredirs (line : List UInt8) : Nat → Parser (List Redirection)
  | 0 => throw .fuel
  | fuel + 1 => do
    if ← peek line [60, 62] then
      let (tok, _) ← gettoken line
      let (kind, file) ← gettoken line
      if kind ≠ some .word then throw .missingFile
      let rest ← parseredirs line fuel
      return redirection tok file ++ rest
    else return []

/-- Parse the words of a simple command, with the redirections between them. -/
def parseargs (line : List UInt8) : Nat → List Span → List Redirection → Parser Cmd
  | 0, _, _ => throw .fuel
  | fuel + 1, argv, rs => do
    if ← peek line [124, 41, 38, 59] then return (Cmd.exec argv).redirected rs
    else
      let (tok, span) ← gettoken line
      match tok with
      | none => return (Cmd.exec argv).redirected rs
      | some .word =>
        if maxargs ≤ argv.length + 1 then throw .tooManyArgs
        let more ← parseredirs line fuel
        parseargs line fuel (argv ++ [span]) (rs ++ more)
      | some _ => throw .syntaxError

/-- Put a command into the background, once for each `'&'`. -/
def parsebacks (line : List UInt8) : Nat → Cmd → Parser Cmd
  | 0, _ => throw .fuel
  | fuel + 1, cmd => do
    if ← peek line [38] then
      discard (gettoken line)
      parsebacks line fuel (.back cmd)
    else return cmd

mutual

/-- Parse a line. -/
def parseline (line : List UInt8) : Nat → Parser Cmd
  | 0 => throw .fuel
  | fuel + 1 => do
    let cmd ← parsepipe line fuel
    let cmd ← parsebacks line fuel cmd
    if ← peek line [59] then
      discard (gettoken line)
      let rest ← parseline line fuel
      return .list cmd rest
    else return cmd

/-- Parse a pipe. -/
def parsepipe (line : List UInt8) : Nat → Parser Cmd
  | 0 => throw .fuel
  | fuel + 1 => do
    let cmd ← parseexec line fuel
    if ← peek line [124] then
      discard (gettoken line)
      let right ← parsepipe line fuel
      return .pipe cmd right
    else return cmd

/-- Parse a line in parentheses. -/
def parseblock (line : List UInt8) : Nat → Parser Cmd
  | 0 => throw .fuel
  | fuel + 1 => do
    if !(← peek line [40]) then throw .parseblock
    discard (gettoken line)
    let cmd ← parseline line fuel
    if !(← peek line [41]) then throw .missingParen
    discard (gettoken line)
    let rs ← parseredirs line fuel
    return cmd.redirected rs

/-- Parse a simple command, or a line in parentheses. -/
def parseexec (line : List UInt8) : Nat → Parser Cmd
  | 0 => throw .fuel
  | fuel + 1 => do
    if ← peek line [40] then parseblock line fuel
    else
      let rs ← parseredirs line fuel
      parseargs line fuel [] rs

end

/-- End all the strings of a command. -/
def nulterminate : Cmd → (Nat → UInt8) → Nat → UInt8
  | .exec argv, mem => argv.foldl (fun mem arg => Function.update mem arg.eq 0) mem
  | .redir cmd r, mem => Function.update (nulterminate cmd mem) r.file.eq 0
  | .pipe left right, mem => nulterminate right (nulterminate left mem)
  | .list left right, mem => nulterminate right (nulterminate left mem)
  | .back cmd, mem => nulterminate cmd mem

/-- Parse a whole line, up to its end. -/
def parsewhole (line : List UInt8) : Parser Cmd := do
  let cmd ← parseline line (4 * (line.length + 1))
  discard (peek line [])
  if (← get) ≠ line.length then throw .leftovers
  return cmd

/-- Parse a line and end the strings of the command in it. -/
def parsecmd (line : List UInt8) : Except Stop (Cmd × (Nat → UInt8)) := do
  let (cmd, _) ← parsewhole line 0
  return (cmd, nulterminate cmd (charAt line))

end Xv6.Shell
