import Sv32.Address

/-! # Registers

The two registers that decide how addresses are mapped: `satp`, which names the mode, the address
space and the root table, and two bits of `sstatus` that widen what a leaf permits. -/
namespace Sv32

inductive PagingMode where
  | bare
  | sv32
  deriving DecidableEq, Repr

def PagingMode.name : PagingMode → String
  | .bare => "Bare"
  | .sv32 => "Sv32"

structure Satp where
  raw : Word
  deriving DecidableEq, Repr, Inhabited

namespace Satp

def mode (s : Satp) : PagingMode := if s.raw.getLsbD 31 then .sv32 else .bare

def asid (s : Satp) : BitVec 9 := s.raw.extractLsb' 22 9

def rootPage (s : Satp) : BitVec 22 := s.raw.extractLsb' 0 22

/-- Packs the three fields; bits that do not fit a field are dropped. -/
def ofParts (mode : PagingMode) (asid : BitVec 16) (rootPage : Word) : Satp :=
  ⟨(match mode with | .bare => 0#1 | .sv32 => 1#1) ++ asid.setWidth 9 ++ rootPage.setWidth 22⟩

end Satp

/-- Supervisor access to user pages, and reading pages that are only executable. -/
structure Status where
  sum : Bool
  mxr : Bool
  deriving DecidableEq, Repr

namespace Status

instance : Inhabited Status := ⟨false, false⟩

def ofSstatus (raw : Word) : Status := ⟨raw.getLsbD 18, raw.getLsbD 19⟩

end Status

structure Registers where
  satp : Satp
  status : Status
  deriving DecidableEq, Repr, Inhabited

end Sv32
