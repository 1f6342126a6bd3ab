/-! # Accesses, privileges and rights

An access needs one right. A page grants rights and belongs either to user mode or to the
modes above it. -/
namespace Sv32

inductive Access where
  | fetch
  | read
  | write
  deriving DecidableEq, Repr

def Access.name : Access → String
  | .fetch => "Fetch"
  | .read => "Read"
  | .write => "Write"

inductive Privilege where
  | user
  | supervisor
  | machine
  deriving DecidableEq, Repr

namespace Privilege

/-- The two-bit encoding; the value 2 is reserved. -/
def code : Privilege → Nat
  | user => 0
  | supervisor => 1
  | machine => 3

def ofCode? : Nat → Option Privilege
  | 0 => some user
  | 1 => some supervisor
  | 3 => some machine
  | _ => none

def name : Privilege → String
  | user => "User"
  | supervisor => "Supervisor"
  | machine => "Machine"

theorem ofCode?_eq_some_iff (n : Nat) (p : Privilege) : ofCode? n = some p ↔ n = p.code := by
  unfold ofCode?
  split <;> cases p <;> simp_all [code]

end Privilege

structure Rights where
  read : Bool
  write : Bool
  exec : Bool
  user : Bool
  deriving DecidableEq, Repr

namespace Rights

def none : Rights := ⟨false, false, false, false⟩

instance : Inhabited Rights := ⟨none⟩

/-- Bits 1 to 4 of the low byte of a page-table entry, in the order read, write, exec, user. -/
def ofBits (bits : BitVec 8) : Rights :=
  ⟨bits.getLsbD 1, bits.getLsbD 2, bits.getLsbD 3, bits.getLsbD 4⟩

def contains (r s : Rights) : Bool :=
  (!s.read || r.read) && (!s.write || r.write) && (!s.exec || r.exec) && (!s.user || r.user)

def without (r s : Rights) : Rights :=
  ⟨r.read && !s.read, r.write && !s.write, r.exec && !s.exec, r.user && !s.user⟩

def union (r s : Rights) : Rights :=
  ⟨r.read || s.read, r.write || s.write, r.exec || s.exec, r.user || s.user⟩

def permits (r : Rights) : Access → Bool
  | .fetch => r.exec
  | .read => r.read
  | .write => r.write

def text (r : Rights) : String :=
  let place (b : Bool) (c : Char) := if b then c else '-'
  String.ofList [place r.read 'r', place r.write 'w', place r.exec 'x', place r.user 'u']

end Rights

def Access.requiredRight : Access → Rights
  | .fetch => { Rights.none with exec := true }
  | .read => { Rights.none with read := true }
  | .write => { Rights.none with write := true }

theorem Rights.permits_eq_contains (r : Rights) (a : Access) :
    r.permits a = r.contains a.requiredRight := by
  cases a <;> simp [permits, contains, Access.requiredRight, none]

end Sv32
