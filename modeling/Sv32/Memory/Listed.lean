import Sv32.Memory

/-! # Listed words

A memory of finitely many listed words, some of them read-only, that keeps a record of how it was
used. Any address may be listed, aligned or not; of two words listed for one address the first
counts. -/
namespace Sv32

inductive Visit where
  | read (a : PhysAddr) (found : Option Word)
  | write (a : PhysAddr) (w : Word) (allowed : Bool)
  deriving DecidableEq, Repr

structure Listed where
  words : List (PhysAddr × Word)
  readOnly : List PhysAddr
  visits : List Visit

namespace Listed

def new (words : List (PhysAddr × Word)) (readOnly : List PhysAddr) : Listed :=
  ⟨words, readOnly, []⟩

def put (a : PhysAddr) (w : Word) : List (PhysAddr × Word) → List (PhysAddr × Word)
  | [] => []
  | (b, v) :: rest => if b = a then (b, w) :: rest else (b, v) :: put a w rest

def find? (l : Listed) (a : PhysAddr) : Option Word := l.words.lookup a

instance : WordMemory Listed where
  readWord a l :=
    let found := l.find? a
    let l := { l with visits := l.visits ++ [.read a found] }
    match found with
    | some w => (.ok w, l)
    | none => (.error (.unmapped a), l)
  writeWord a w l :=
    let allowed := !l.readOnly.contains a
    let visits := l.visits ++ [.write a w allowed]
    if allowed && (l.find? a).isSome then (.ok (), { l with words := put a w l.words, visits })
    else (.error (.unmapped a), { l with visits })

end Listed

end Sv32
