/-! # Data values

The values that a configuration text can spell. Of numbers only the plain naturals are told apart,
and text that no sequence of characters has (an unpaired half of a surrogate pair) is absent. -/
namespace Sv32

inductive Json where
  | null
  | bool (b : Bool)
  | natural (n : Nat)
  | number
  | string (text : Option String)
  | array (items : List Json)
  | object (members : List (Option String × Json))

namespace Json

/-- The value of a member that must not be there twice. -/
def member? (name : String) (members : List (Option String × Json)) : Option (Option Json) :=
  match members.filter (·.1 == some name) with
  | [] => some none
  | [m] => some (some m.2)
  | _ => none

/-- The two fields of a record. It may be an object, whose other members are skipped, or an array
of the fields in order; a field may be missing, but an array has no more than two elements. -/
def fields? (first second : String) : Json → Option (Option Json × Option Json)
  | object members => do
    guard (members.all (·.1.isSome))
    let a ← member? first members
    let b ← member? second members
    return (a, b)
  | array [] => some (none, none)
  | array [a] => some (some a, none)
  | array [a, b] => some (some a, some b)
  | _ => none

def natural? (bits : Nat) : Json → Option Nat
  | natural n => if n < 1 <<< bits then some n else none
  | _ => none

def orDefault {α : Type} (default : α) (read : Json → Option α) : Option Json → Option α
  | none => some default
  | some v => read v

end Json

end Sv32
