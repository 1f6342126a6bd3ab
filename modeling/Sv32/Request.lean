import Sv32.Access
import Sv32.Address

/-! # Requests

A request asks where one access of one privilege to one virtual address goes. A walk that fails has
a reason; the trap tells only whether the tables forbid the access or could not be reached. -/
namespace Sv32

structure Request where
  vaddr : VirtAddr
  access : Access
  privilege : Privilege
  deriving DecidableEq, Repr

/-- The operands of a fence; a missing one stands for all of its kind. -/
structure Fence where
  asid : Option (BitVec 16)
  vaddr : Option VirtAddr
  deriving DecidableEq, Repr

def Fence.all : Fence := ⟨none, none⟩

/-- Instruction fetches and data accesses are cached apart. -/
inductive Side where
  | instruction
  | data
  deriving DecidableEq, Repr

def Side.name : Side → String
  | .instruction => "itlb"
  | .data => "dtlb"

def Access.side : Access → Side
  | .fetch => .instruction
  | .read => .data
  | .write => .data

inductive FaultKind where
  | page
  | access
  deriving DecidableEq, Repr

structure Trap where
  kind : FaultKind
  access : Access
  addr : VirtAddr
  deriving DecidableEq, Repr

namespace Trap

def cause (t : Trap) : Nat :=
  match t.kind, t.access with
  | .access, .fetch => 1
  | .access, .read => 5
  | .access, .write => 7
  | .page, .fetch => 12
  | .page, .read => 13
  | .page, .write => 15

def name (t : Trap) : String :=
  (match t.access with | .fetch => "Instruction" | .read => "Load" | .write => "Store") ++
    (match t.kind with | .page => "PageFault" | .access => "AccessFault")

def message (t : Trap) : String := t.name ++ "(" ++ Hex.shortest t.addr.val.toNat ++ ")"

end Trap

inductive Refusal where
  | notValid
  | reservedEncoding
  | pointerAtLastLevel
  | misalignedSuperpage
  | notPermitted
  deriving DecidableEq, Repr

def Refusal.text : Refusal → String
  | notValid => "pte not valid"
  | reservedEncoding => "reserved w-without-r encoding"
  | pointerAtLastLevel => "pointer pte at last level"
  | misalignedSuperpage => "misaligned superpage"
  | notPermitted => "permission denied"

inductive Fault where
  | refused (why : Refusal)
  | unreachable (pte : PhysAddr)
  deriving DecidableEq, Repr

def Fault.kind : Fault → FaultKind
  | refused _ => .page
  | unreachable _ => .access

/-- The trap carries the access and the address that were asked for, not those of the table. -/
def Fault.trap (f : Fault) (q : Request) : Trap := ⟨f.kind, q.access, q.vaddr⟩

end Sv32
