import Sv32.Address

/-! # Word memory

The walker needs no more of a memory than words read and written at physical addresses, either of
which can fail. A memory may change even when it is only read. -/
namespace Sv32

inductive BusError where
  | unmapped (addr : PhysAddr)
  | misaligned (addr : PhysAddr) (width : Nat)
  deriving DecidableEq, Repr

def BusError.message : BusError → String
  | unmapped addr => "physical address " ++ addr.text ++ " is not backed by memory"
  | misaligned addr width => "misaligned " ++ Nat.repr width ++ "-byte access at " ++ addr.text

class WordMemory (μ : Type) where
  readWord : PhysAddr → μ → Except BusError Word × μ
  writeWord : PhysAddr → Word → μ → Except BusError Unit × μ

export WordMemory (readWord writeWord)

/-- A memory of words that keep their values: reading changes nothing, nor does a write that fails,
and a write that succeeds changes one word. -/
class LawfulWordMemory (μ : Type) [WordMemory μ] : Prop where
  state_readWord : ∀ (a : PhysAddr) (m : μ), (readWord a m).2 = m
  state_writeWord_error : ∀ {a : PhysAddr} {w : Word} {m : μ} {e : BusError},
    (writeWord a w m).1 = .error e → (writeWord a w m).2 = m
  readWord_writeWord : ∀ {a : PhysAddr} {w : Word} {m : μ} (b : PhysAddr),
    (writeWord a w m).1 = .ok () →
      (readWord b (writeWord a w m).2).1 = if b = a then .ok w else (readWord b m).1

end Sv32
