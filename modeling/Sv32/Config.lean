import Sv32.Json.Parser
import Sv32.Machine

/-! # Configuration

The size and place of the memory and the capacities of the cache, read from text or from a file.
Everything may be left out; what is given must be a natural number that fits, and the sizes must not
be zero. -/
namespace Sv32

structure Config where
  ramBase : Word
  ramSize : Nat
  instructionCapacity : Nat
  dataCapacity : Nat
  deriving DecidableEq, Repr

inductive ConfigError where
  | unreadable
  | malformed
  | zeroCapacity (side : Side)
  | zeroRamSize
  deriving DecidableEq, Repr

def ConfigError.message : ConfigError → String
  | unreadable => "failed to read config"
  | malformed => "failed to parse config"
  | zeroCapacity side => side.name ++ " capacity must be at least one entry"
  | zeroRamSize => "ram_size must be non-zero"

namespace Config

def default : Config := ⟨0, 512 * 1024 * 1024, 32, 32⟩

instance : Inhabited Config := ⟨default⟩

/-- The first size that is zero is reported: the instruction side, the data side, the memory. -/
def validate (c : Config) : Except ConfigError Unit :=
  if c.instructionCapacity = 0 then .error (.zeroCapacity .instruction)
  else if c.dataCapacity = 0 then .error (.zeroCapacity .data)
  else if c.ramSize = 0 then .error .zeroRamSize
  else .ok ()

def memoryOfJson? (v : Json) : Option (Word × Nat) := do
  let (base, size) ← v.fields? "ram_base" "ram_size"
  let base ← Json.orDefault 0 (Json.natural? 32) base
  let size ← Json.orDefault default.ramSize (Json.natural? 64) size
  return (BitVec.ofNat 32 base, size)

def capacitiesOfJson? (v : Json) : Option (Nat × Nat) := do
  let (instruction, data) ← v.fields? "itlb_size" "dtlb_size"
  let instruction ← Json.orDefault default.instructionCapacity (Json.natural? 64) instruction
  let data ← Json.orDefault default.dataCapacity (Json.natural? 64) data
  return (instruction, data)

def ofJson? (v : Json) : Option Config := do
  let (memory, mmu) ← v.fields? "memory" "mmu"
  let (base, size) ← Json.orDefault (default.ramBase, default.ramSize) memoryOfJson? memory
  let (instruction, data) ←
    Json.orDefault (default.instructionCapacity, default.dataCapacity) capacitiesOfJson? mmu
  return ⟨base, size, instruction, data⟩

/-- Text that is malformed or mistyped is reported before sizes that are zero. -/
def ofText (text : String) : Except ConfigError Config :=
  match (Json.parse? text).bind ofJson? with
  | none => .error .malformed
  | some c => do
    c.validate
    return c

/-- The content of a file, or none if there is no file; it has to be text in UTF-8. -/
def ofFile (content : Option ByteArray) : Except ConfigError Config :=
  match content.bind String.fromUTF8? with
  | none => .error .unreadable
  | some text => ofText text

def build (c : Config) : Except Violation Machine :=
  Machine.new c.instructionCapacity c.dataCapacity ⟨c.ramBase⟩ c.ramSize

end Config

end Sv32
