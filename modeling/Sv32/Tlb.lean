import Sv32.Tlb.Counters

/-! # The lookaside buffer

Two independent caches, one for instruction fetches and one for data accesses, each with its
counters. A lookup or refill touches one of them; a flush invalidates both. -/
namespace Sv32

structure Bank where
  cache : Cache
  counters : Counters

namespace Bank

variable (b : Bank)

def lookup (q : Request) : Option PhysAddr × Bank :=
  let found := b.cache.lookup q
  (found, { b with counters := b.counters.countLookup found.isSome })

def refill (v : VirtAddr) (l : Leaf) : Except Violation (Refill × Bank) := do
  let (outcome, cache) ← b.cache.refill v l
  return (outcome, ⟨cache, b.counters.countRefill outcome⟩)

def flush : Nat × Bank := (b.cache.flush.1, ⟨b.cache.flush.2, b.counters.countFlush⟩)

def resetCounters : Bank := { b with counters := {} }

end Bank

structure Tlb where
  instruction : Bank
  data : Bank

namespace Tlb

def new (instruction data : Nat) : Except Violation Tlb := do
  let i ← Cache.new instruction
  let d ← Cache.new data
  return ⟨⟨i, {}⟩, ⟨d, {}⟩⟩

variable (t : Tlb)

def bank : Side → Bank
  | .instruction => t.instruction
  | .data => t.data

def setBank (side : Side) (b : Bank) : Tlb :=
  match side with
  | .instruction => { t with instruction := b }
  | .data => { t with data := b }

@[simp] theorem bank_setBank (side : Side) (b : Bank) : (t.setBank side b).bank side = b := by
  cases side <;> rfl

theorem bank_setBank_eq_ite (side other : Side) (b : Bank) :
    (t.setBank side b).bank other = if other = side then b else t.bank other := by
  cases side <;> cases other <;> rfl

@[simp] theorem setBank_setBank (side : Side) (b b' : Bank) :
    (t.setBank side b).setBank side b' = t.setBank side b' := by
  cases side <;> rfl

theorem ext_bank {t u : Tlb} (h : ∀ side, t.bank side = u.bank side) : t = u := by
  have hi : t.instruction = u.instruction := h .instruction
  have hd : t.data = u.data := h .data
  cases t
  cases u
  simp_all

theorem bank_setBank_of_ne {side other : Side} (b : Bank) (h : other ≠ side) :
    (t.setBank side b).bank other = t.bank other := by
  cases side <;> cases other <;> simp_all [bank, setBank]

def lookup (side : Side) (q : Request) : Option PhysAddr × Tlb :=
  let (found, b) := (t.bank side).lookup q
  (found, t.setBank side b)

/-- Looks the request up without counting. -/
def peek (side : Side) (q : Request) : Option PhysAddr := (t.bank side).cache.lookup q

def refillEvent (side : Side) (v : VirtAddr) (l : Leaf) : Refill → Event
  | .inserted => .refilled side v l
  | .replaced => .replaced side v l
  | .evicted victim => .evicted side v l victim

def refill (side : Side) (v : VirtAddr) (l : Leaf) : Except Violation (Effect Tlb Refill) := do
  let (outcome, b) ← (t.bank side).refill v l
  return ⟨outcome, t.setBank side b, [refillEvent side v l outcome]⟩

/-- Invalidates every entry of both caches. The operands of the fence are only reported. -/
def flush (f : Fence) : Effect Tlb Unit :=
  let (i, instruction) := t.instruction.flush
  let (d, data) := t.data.flush
  ⟨(), ⟨instruction, data⟩, [.cacheFlushed f i, .cacheFlushed f d, .flushed f i d]⟩

def resetCounters : Tlb := ⟨t.instruction.resetCounters, t.data.resetCounters⟩

def delete : List Event := [.tlbDeleted t.instruction.cache.size t.data.cache.size]

inductive Op where
  | lookup (side : Side) (q : Request)
  | peek (side : Side) (q : Request)
  | refill (side : Side) (v : VirtAddr) (l : Leaf)
  | flush (f : Fence)
  | resetCounters
  | counters (side : Side)
  deriving DecidableEq, Repr

inductive Answer where
  | found (a : Option PhysAddr)
  | counters (c : Counters)
  | done
  deriving DecidableEq, Repr

def step (t : Tlb) : Op → Except Violation (Effect Tlb Answer)
  | .lookup side q =>
    let (found, t) := t.lookup side q
    .ok ⟨.found found, t, []⟩
  | .peek side q => .ok ⟨.found (t.peek side q), t, []⟩
  | .refill side v l => do
    let e ← t.refill side v l
    return ⟨.done, e.state, e.events⟩
  | .flush f => .ok ⟨.done, (t.flush f).state, (t.flush f).events⟩
  | .resetCounters => .ok ⟨.done, t.resetCounters, []⟩
  | .counters side => .ok ⟨.counters (t.bank side).counters, t, []⟩

end Tlb

end Sv32
