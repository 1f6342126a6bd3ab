import Sv32.Stats
import Sv32.Walk

/-! # The memory management unit

Translates requests through the cache. A request that no entry serves walks the tables, and its leaf is
cached on the side that missed. A fence, a new `satp` and a change of privilege flush the whole cache. -/
namespace Sv32

structure Mmu where
  tlb : Tlb
  registers : Registers
  walks : Nat
  faults : Nat

namespace Mmu

def new (instruction data : Nat) : Except Violation Mmu := do
  let tlb ← Tlb.new instruction data
  return ⟨tlb, default, 0, 0⟩

variable {μ : Type} [WordMemory μ]

/-- Answers a request that missed: walks the tables and caches the leaf, or reports the fault. -/
def walkAndRefill (m : Mmu) (q : Request) (mem : μ) :
    Except Violation (Effect (Mmu × μ) (Except Trap PhysAddr)) :=
  let m := { m with walks := m.walks + 1 }
  match walk m.registers q mem with
  | (.ok leaf, mem) => do
    let e ← m.tlb.refill q.access.side q.vaddr leaf
    return ⟨.ok (leaf.translate q.vaddr), ({ m with tlb := e.state }, mem), e.events⟩
  | (.error f, mem) =>
    .ok ⟨.error (f.trap q), ({ m with faults := m.faults + 1 }, mem),
      [.walkFailed q f, .trapRaised q.access.side (f.trap q)]⟩

def translate (m : Mmu) (q : Request) (mem : μ) :
    Except Violation (Effect (Mmu × μ) (Except Trap PhysAddr)) :=
  if m.registers.bypasses q.privilege then .ok ⟨.ok ⟨q.vaddr.val⟩, (m, mem), []⟩
  else
    match m.tlb.lookup q.access.side q with
    | (some a, tlb) => .ok ⟨.ok a, ({ m with tlb }, mem), []⟩
    | (none, tlb) => walkAndRefill { m with tlb } q mem

def fence (m : Mmu) (f : Fence) : Effect Mmu Unit :=
  ⟨(), { m with tlb := (m.tlb.flush f).state }, (m.tlb.flush f).events⟩

/-- Writing the value that `satp` already has does nothing. -/
def writeSatp (m : Mmu) (new : Satp) : Effect Mmu Unit :=
  let old := m.registers.satp
  if new = old then ⟨(), m, []⟩
  else
    let m := { m with registers := { m.registers with satp := new } }
    let e := m.fence ⟨some (new.asid.setWidth 16), none⟩
    { e with events := .satpWritten old new :: e.events }

def writeSstatus (m : Mmu) (raw : Word) : Mmu :=
  { m with registers := { m.registers with status := .ofSstatus raw } }

def changePrivilege (m : Mmu) (old new : Privilege) : Effect Mmu Unit :=
  if new = old then ⟨(), m, []⟩
  else
    let e := m.fence .all
    { e with events := .privilegeChanged old new :: e.events }

def stats (m : Mmu) : Stats :=
  ⟨m.tlb.instruction.counters, m.tlb.data.counters, m.walks, m.faults⟩

def shutDown (m : Mmu) : List Event := .mmuShutDown m.walks m.faults :: m.tlb.delete

inductive Op where
  | translate (q : Request)
  | writeSatp (raw : Word)
  | writeSstatus (raw : Word)
  | fence (f : Fence)
  | changePrivilege (old new : Privilege)
  | stats
  | tlb (op : Tlb.Op)
  deriving DecidableEq, Repr

inductive Answer where
  | translated (r : Except Trap PhysAddr)
  | satp (s : Satp)
  | status (s : Status)
  | done
  | stats (s : Stats)
  | tlb (a : Tlb.Answer)

def step (s : Mmu × μ) : Op → Except Violation (Effect (Mmu × μ) Answer)
  | .translate q => do
    let e ← s.1.translate q s.2
    return ⟨.translated e.answer, e.state, e.events⟩
  | .writeSatp raw =>
    let e := s.1.writeSatp ⟨raw⟩
    .ok ⟨.satp e.state.registers.satp, (e.state, s.2), e.events⟩
  | .writeSstatus raw =>
    let m := s.1.writeSstatus raw
    .ok ⟨.status m.registers.status, (m, s.2), []⟩
  | .fence f => .ok ⟨.done, ((s.1.fence f).state, s.2), (s.1.fence f).events⟩
  | .changePrivilege old new =>
    let e := s.1.changePrivilege old new
    .ok ⟨.done, (e.state, s.2), e.events⟩
  | .stats => .ok ⟨.stats s.1.stats, s, []⟩
  | .tlb op => do
    let e ← s.1.tlb.step op
    return ⟨.tlb e.answer, ({ s.1 with tlb := e.state }, s.2), e.events⟩

end Mmu

end Sv32
