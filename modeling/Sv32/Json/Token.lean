import Sv32.Json.Value

/-! # Tokens

Characters become tokens one character at a time. Between tokens there may be blanks; a number ends
where the next character cannot belong to it. Strings hold no control characters, and a number has
neither a leading zero nor a missing digit. -/
namespace Sv32.Json

inductive Token where
  | openBrace
  | closeBrace
  | openBracket
  | closeBracket
  | colon
  | comma
  | scalar (v : Json)

/-- A piece of a string: a character, or a code unit that was given by number. -/
inductive Piece where
  | char (c : Char)
  | unit (n : Nat)
  deriving DecidableEq, Repr

def isHighSurrogate (n : Nat) : Bool := 0xd800 ≤ n && n < 0xdc00

def isLowSurrogate (n : Nat) : Bool := 0xdc00 ≤ n && n < 0xe000

/-- Joins pairs of surrogates; there is no text if one is left over. The text so far comes last
character first. -/
def decode (text : List Char) : List Piece → Option String
  | [] => some (String.ofList text.reverse)
  | .char c :: rest => decode (c :: text) rest
  | .unit high :: .unit low :: rest =>
    if isHighSurrogate high && isLowSurrogate low then
      decode (Char.ofNat (0x10000 + (high - 0xd800) * 0x400 + (low - 0xdc00)) :: text) rest
    else if isHighSurrogate high || isLowSurrogate high then none
    else decode (Char.ofNat high :: text) (.unit low :: rest)
  | .unit n :: rest =>
    if isHighSurrogate n || isLowSurrogate n then none else decode (Char.ofNat n :: text) rest

inductive Part where
  | sign
  | zero
  | whole
  | point
  | fraction
  | mark
  | markSign
  | exponent
  deriving DecidableEq, Repr

namespace Part

def isComplete : Part → Bool
  | zero | whole | fraction | exponent => true
  | _ => false

def next? (p : Part) (c : Char) : Option Part :=
  match p with
  | sign => if c == '0' then some zero else if c.isDigit then some whole else none
  | zero => if c == '.' then some point else if c == 'e' || c == 'E' then some mark else none
  | whole =>
    if c.isDigit then some whole
    else if c == '.' then some point
    else if c == 'e' || c == 'E' then some mark
    else none
  | point => if c.isDigit then some fraction else none
  | fraction =>
    if c.isDigit then some fraction else if c == 'e' || c == 'E' then some mark else none
  | mark =>
    if c.isDigit then some exponent else if c == '+' || c == '-' then some markSign else none
  | markSign | exponent => if c.isDigit then some exponent else none

end Part

/-- What the characters so far are the beginning of. A number keeps its value while it is a plain
natural; strings keep their pieces, last first. -/
inductive Reading where
  | nothing
  | word (missing : List Char) (v : Json)
  | number (part : Part) (value : Option Nat)
  | string (pieces : List Piece)
  | escape (pieces : List Piece)
  | code (pieces : List Piece) (missing : Nat) (value : Nat)

/-- The tokens that are complete, last first, and the one that is being read. -/
structure Lexer where
  tokens : List Token
  reading : Reading

namespace Lexer

def isBlank (c : Char) : Bool := c == ' ' || c == '\t' || c == '\n' || c == '\r'

def digitValue (c : Char) : Nat := c.toNat - '0'.toNat

def hexValue? (c : Char) : Option Nat :=
  if c.isDigit then some (digitValue c)
  else if 'a' ≤ c && c ≤ 'f' then some (c.toNat - 'a'.toNat + 10)
  else if 'A' ≤ c && c ≤ 'F' then some (c.toNat - 'A'.toNat + 10)
  else none

def escaped? (c : Char) : Option Char :=
  match c with
  | '"' | '\\' | '/' => some c
  | 'b' => some '\x08'
  | 'f' => some '\x0c'
  | 'n' => some '\n'
  | 'r' => some '\r'
  | 't' => some '\t'
  | _ => none

def numberToken : Option Nat → Token
  | some n => .scalar (.natural n)
  | none => .scalar .number

def start (tokens : List Token) (c : Char) : Option Lexer :=
  match c with
  | '{' => some ⟨.openBrace :: tokens, .nothing⟩
  | '}' => some ⟨.closeBrace :: tokens, .nothing⟩
  | '[' => some ⟨.openBracket :: tokens, .nothing⟩
  | ']' => some ⟨.closeBracket :: tokens, .nothing⟩
  | ':' => some ⟨.colon :: tokens, .nothing⟩
  | ',' => some ⟨.comma :: tokens, .nothing⟩
  | '"' => some ⟨tokens, .string []⟩
  | 'n' => some ⟨tokens, .word ['u', 'l', 'l'] .null⟩
  | 't' => some ⟨tokens, .word ['r', 'u', 'e'] (.bool true)⟩
  | 'f' => some ⟨tokens, .word ['a', 'l', 's', 'e'] (.bool false)⟩
  | '-' => some ⟨tokens, .number .sign none⟩
  | '0' => some ⟨tokens, .number .zero (some 0)⟩
  | _ =>
    if isBlank c then some ⟨tokens, .nothing⟩
    else if c.isDigit then some ⟨tokens, .number .whole (some (digitValue c))⟩
    else none

def numberValue (part : Part) (value : Option Nat) (c : Char) : Option Nat :=
  match part with
  | .whole => value.map (10 * · + digitValue c)
  | _ => none

def step (l : Lexer) (c : Char) : Option Lexer :=
  match l.reading with
  | .nothing => start l.tokens c
  | .word missing v =>
    match missing with
    | [d] => if c == d then some ⟨.scalar v :: l.tokens, .nothing⟩ else none
    | d :: rest => if c == d then some ⟨l.tokens, .word rest v⟩ else none
    | [] => none
  | .number part value =>
    match part.next? c with
    | some next => some ⟨l.tokens, .number next (numberValue next value c)⟩
    | none => if part.isComplete then start (numberToken value :: l.tokens) c else none
  | .string pieces =>
    if c == '"' then some ⟨.scalar (.string (decode [] pieces.reverse)) :: l.tokens, .nothing⟩
    else if c == '\\' then some ⟨l.tokens, .escape pieces⟩
    else if c < ' ' then none
    else some ⟨l.tokens, .string (.char c :: pieces)⟩
  | .escape pieces =>
    if c == 'u' then some ⟨l.tokens, .code pieces 4 0⟩
    else (escaped? c).map fun d => ⟨l.tokens, .string (.char d :: pieces)⟩
  | .code pieces missing value =>
    (hexValue? c).map fun d =>
      let value := 16 * value + d
      if missing ≤ 1 then ⟨l.tokens, .string (.unit value :: pieces)⟩
      else ⟨l.tokens, .code pieces (missing - 1) value⟩

def run (l : Lexer) : List Char → Option Lexer
  | [] => some l
  | c :: cs =>
    match l.step c with
    | some l => l.run cs
    | none => none

def finish? (l : Lexer) : Option (List Token) :=
  match l.reading with
  | .nothing => some l.tokens.reverse
  | .number part value =>
    if part.isComplete then some (numberToken value :: l.tokens).reverse else none
  | _ => none

end Lexer

def Token.ofChars? (cs : List Char) : Option (List Token) := do
  let l ← Lexer.run ⟨[], .nothing⟩ cs
  l.finish?

end Sv32.Json
