import Sv32.Pte

/-! # Cache entries

An entry remembers one leaf for one virtual page. A flush clears its valid mark and leaves the rest in
place. A violation is what a caller of a cache must not do; an operation that meets one stops. -/
namespace Sv32

inductive Violation where
  | zeroCapacity
  | evictFromEmpty
  | unalignedPage (ppn : PhysAddr) (level : PageLevel)
  deriving DecidableEq, Repr

def Violation.message : Violation → String
  | zeroCapacity => "translation set capacity must be non-zero"
  | evictFromEmpty => "evict from an empty translation set"
  | unalignedPage ppn level =>
    "refill with unaligned ppn " ++ ppn.text ++ " for a " ++ level.name ++ " page"

theorem bind_eq_ok {ε α β : Type} {x : Except ε α} {f : α → Except ε β} {b : β} :
    (x >>= f) = .ok b ↔ ∃ a, x = .ok a ∧ f a = .ok b := by
  cases x with
  | error e => simp [bind, Except.bind]
  | ok a => simp [bind, Except.bind]

theorem eq_ok_of_toOption {ε α β : Type} {x : Except ε α} {f : α → β} {b : β}
    (h : (x.map f).toOption = some b) : ∃ a, x = .ok a ∧ f a = b := by
  cases x with
  | error => cases h
  | ok a => exact ⟨a, rfl, Option.some.inj h⟩

structure Entry where
  vpn : Word
  leaf : Leaf
  valid : Bool
  deriving DecidableEq, Repr, Inhabited

namespace Entry

def ofLeaf (v : VirtAddr) (l : Leaf) : Entry := ⟨v.pageNumber l.level, l, true⟩

/-- A new entry; the physical page must have the alignment of its level. -/
def new (v : VirtAddr) (l : Leaf) : Except Violation Entry :=
  if l.isAligned then .ok (ofLeaf v l) else .error (.unalignedPage l.ppn l.level)

variable (e : Entry)

def covers (v : VirtAddr) : Bool := e.valid && e.vpn == v.pageNumber e.leaf.level

def holds (vpn : Word) (level : PageLevel) : Bool :=
  e.valid && e.leaf.level == level && e.vpn == vpn

/-- User pages serve user mode only, and all others every mode but that. -/
def permits (access : Access) (privilege : Privilege) : Bool :=
  (e.leaf.rights.user == (privilege == .user)) && e.leaf.rights.permits access

def serves (q : Request) : Bool := e.covers q.vaddr && e.permits q.access q.privilege

def translate (v : VirtAddr) : PhysAddr := e.leaf.translate v

/-- Takes over the page and the rights of `l`; the virtual page and the level stay. -/
def update (l : Leaf) : Entry := { e with leaf := { l with level := e.leaf.level } }

def invalidate : Entry := { e with valid := false }

theorem covers_iff (v : VirtAddr) :
    e.covers v = true ↔ e.valid = true ∧ v.pageNumber e.leaf.level = e.vpn := by
  simp only [covers, Bool.and_eq_true, beq_iff_eq]
  exact and_congr_right fun _ => eq_comm

theorem serves_iff (q : Request) :
    e.serves q = true ↔ e.valid = true ∧ e.vpn = q.vaddr.pageNumber e.leaf.level ∧
      e.leaf.rights.permits q.access = true ∧ e.leaf.rights.user = (q.privilege == .user) := by
  simp only [serves, covers, permits, Bool.and_eq_true, beq_iff_eq]
  constructor
  · rintro ⟨⟨hv, hp⟩, hu, hr⟩
    exact ⟨hv, hp, hr, hu⟩
  · rintro ⟨hv, hp, hr, hu⟩
    exact ⟨⟨hv, hp⟩, hu, hr⟩

end Entry

end Sv32
