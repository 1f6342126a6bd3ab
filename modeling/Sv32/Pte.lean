import Sv32.Register
import Sv32.Request

/-! # Page-table entries and leaves

An entry is a word: eight flag bits below a 22-bit page number. A valid entry that grants nothing points at
the next table; one that grants something is a leaf. -/
namespace Sv32

structure Leaf where
  ppn : PhysAddr
  rights : Rights
  level : PageLevel
  deriving DecidableEq, Repr, Inhabited

namespace Leaf

def isAligned (l : Leaf) : Bool := l.ppn.isPageAligned l.level

def translate (l : Leaf) (v : VirtAddr) : PhysAddr := l.ppn.splice l.level v

end Leaf

structure Pte where
  raw : Word
  deriving DecidableEq, Repr

namespace Pte

variable (p : Pte)

def valid : Bool := p.raw.getLsbD 0

def readable : Bool := p.raw.getLsbD 1

def writable : Bool := p.raw.getLsbD 2

def executable : Bool := p.raw.getLsbD 3

def user : Bool := p.raw.getLsbD 4

def accessed : Bool := p.raw.getLsbD 6

def dirty : Bool := p.raw.getLsbD 7

def pageNumber : BitVec 22 := p.raw.extractLsb' 10 22

def isReserved : Bool := !p.readable && p.writable

def isPointer : Bool := !p.readable && !p.writable && !p.executable

/-- The part of the page number that a superpage leaf must leave zero. -/
def lowPageNumber : BitVec 10 := p.raw.extractLsb' 10 10

def rights : Rights := .ofBits (p.raw.setWidth 8)

def grants (s : Status) : Access → Bool
  | .fetch => p.executable
  | .read => p.readable || (s.mxr && p.executable)
  | .write => p.writable

/-- User pages are open to user mode, and to the modes above it for data when `sum` is set. -/
def admits (s : Status) (access : Access) : Privilege → Bool
  | .user => p.user
  | .supervisor | .machine => !p.user || (s.sum && access != .fetch)

def permits (s : Status) (q : Request) : Bool := p.grants s q.access && p.admits s q.access q.privilege

def touch (access : Access) : Pte :=
  ⟨p.raw ||| (match access with | .write => 0xc0#32 | _ => 0x40#32)⟩

/-- What may be cached of a leaf. A clean page is cached without the right to write, so that the
first store to it comes back to the table and sets the dirty bit. -/
def leaf (level : PageLevel) : Leaf where
  ppn := .ofPageNumber p.pageNumber
  rights := { p.rights with write := p.rights.write && p.dirty }
  level := level

end Pte

end Sv32
