import Sv32.Memory.Ram
import Sv32.Mmu

/-! # A unit with its memory

A memory management unit beside the flat memory that holds its page tables, driven by one list of
operations on either. -/
namespace Sv32

structure Machine where
  mmu : Mmu
  ram : Ram

namespace Machine

def new (instruction data : Nat) (base : PhysAddr) (size : Nat) : Except Violation Machine := do
  let mmu ← Mmu.new instruction data
  return ⟨mmu, Ram.new base size⟩

inductive Op where
  | mmu (op : Mmu.Op)
  | ram (op : Ram.Op)
  deriving DecidableEq, Repr

inductive Answer where
  | mmu (a : Mmu.Answer)
  | ram (a : Ram.Answer)

def step (s : Machine) : Op → Except Violation (Effect Machine Answer)
  | .mmu op => do
    let e ← Mmu.step (s.mmu, s.ram) op
    return ⟨.mmu e.answer, ⟨e.state.1, e.state.2⟩, e.events⟩
  | .ram op =>
    let (a, ram) := s.ram.step op
    .ok ⟨.ram a, { s with ram }, []⟩

/-- Writes words into the memory, up to the first that it does not take. -/
def load (s : Machine) : List (PhysAddr × Word) → Except BusError Machine
  | [] => .ok s
  | (a, w) :: rest => do
    let ram ← s.ram.writeWord a w
    load { s with ram } rest

end Machine

end Sv32
