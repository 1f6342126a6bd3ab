import Sv32.Json.Token

/-! # Parsing

Tokens become a value with the help of a stack of the arrays and objects that are still open, so
that nesting may be of any depth. -/
namespace Sv32.Json

/-- An open container with what it holds so far, last first. A member waits for its value. -/
inductive Frame where
  | array (items : List Json)
  | object (members : List (Option String × Json))
  | member (members : List (Option String × Json)) (key : Option String)

inductive Expect where
  | value
  | valueOrClose
  | key
  | keyOrClose
  | colon (key : Option String)
  | separator
  | nothing (v : Json)

structure Parser where
  expect : Expect
  stack : List Frame

namespace Parser

/-- Hands a complete value to the container around it. -/
def complete (v : Json) : List Frame → Option Parser
  | [] => some ⟨.nothing v, []⟩
  | .array items :: rest => some ⟨.separator, .array (v :: items) :: rest⟩
  | .member members key :: rest => some ⟨.separator, .object ((key, v) :: members) :: rest⟩
  | .object _ :: _ => none

def begin? (stack : List Frame) : Token → Option Parser
  | .scalar v => complete v stack
  | .openBracket => some ⟨.valueOrClose, .array [] :: stack⟩
  | .openBrace => some ⟨.keyOrClose, .object [] :: stack⟩
  | _ => none

def close? (t : Token) (stack : List Frame) : Option Parser :=
  match t, stack with
  | .closeBracket, .array items :: rest => complete (.array items.reverse) rest
  | .closeBrace, .object members :: rest => complete (.object members.reverse) rest
  | _, _ => none

def key? (stack : List Frame) : Token → Option Parser
  | .scalar (.string text) => some ⟨.colon text, stack⟩
  | _ => none

def step (p : Parser) (t : Token) : Option Parser :=
  match p.expect with
  | .value => begin? p.stack t
  | .valueOrClose => (close? t p.stack).or (begin? p.stack t)
  | .key => key? p.stack t
  | .keyOrClose => (close? t p.stack).or (key? p.stack t)
  | .colon key =>
    match t, p.stack with
    | .colon, .object members :: rest => some ⟨.value, .member members key :: rest⟩
    | _, _ => none
  | .separator =>
    match t, p.stack with
    | .comma, .array _ :: _ => some ⟨.value, p.stack⟩
    | .comma, .object _ :: _ => some ⟨.key, p.stack⟩
    | _, stack => close? t stack
  | .nothing _ => none

def run (p : Parser) : List Token → Option Parser
  | [] => some p
  | t :: ts =>
    match p.step t with
    | some p => p.run ts
    | none => none

end Parser

def ofTokens? (ts : List Token) : Option Json := do
  let p ← Parser.run ⟨.value, []⟩ ts
  match p.expect with
  | .nothing v => some v
  | _ => none

def parse? (text : String) : Option Json := do
  let ts ← Token.ofChars? text.toList
  ofTokens? ts

end Sv32.Json
