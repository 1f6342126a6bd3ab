import Sv32.Memory
import Sv32.Pte

/-! # The page-table walk

Two tables at most: the root table, whose leaves are superpages, and below it tables of base pages.
An entry is read and checked; a leaf that permits the access is marked and written back before it
is given out. -/
namespace Sv32

namespace Walk

variable {μ : Type} [WordMemory μ]

/-- The address of the entry that `v` selects in the table of a level that starts at page `table`. -/
def slot (table : BitVec 22) (level : PageLevel) (v : VirtAddr) : PhysAddr :=
  ⟨(PhysAddr.ofPageNumber table).val ||| (v.tableIndex level).setWidth 32 <<< 2⟩

def load (a : PhysAddr) (mem : μ) : Except Fault Pte × μ :=
  match readWord a mem with
  | (.error _, mem) => (.error (.unreachable a), mem)
  | (.ok w, mem) =>
    let pte : Pte := ⟨w⟩
    if !pte.valid then (.error (.refused .notValid), mem)
    else if pte.isReserved then (.error (.refused .reservedEncoding), mem)
    else (.ok pte, mem)

/-- Writes an entry back to `a` if it is not what was read there. -/
def store (a : PhysAddr) (old new : Pte) (mem : μ) : Except Fault Unit × μ :=
  if new = old then (.ok (), mem)
  else
    match writeWord a new.raw mem with
    | (.error _, mem) => (.error (.unreachable a), mem)
    | (.ok (), mem) => (.ok (), mem)

def finish (s : Status) (q : Request) (level : PageLevel) (a : PhysAddr) (pte : Pte) (mem : μ) :
    Except Fault Leaf × μ :=
  if level = .super && pte.lowPageNumber != 0 then (.error (.refused .misalignedSuperpage), mem)
  else if !pte.permits s q then (.error (.refused .notPermitted), mem)
  else
    let new := pte.touch q.access
    match store a pte new mem with
    | (.error f, mem) => (.error f, mem)
    | (.ok (), mem) => (.ok (new.leaf level), mem)

end Walk

def walk {μ : Type} [WordMemory μ] (r : Registers) (q : Request) (mem : μ) : Except Fault Leaf × μ :=
  let top := Walk.slot r.satp.rootPage .super q.vaddr
  match Walk.load top mem with
  | (.error f, mem) => (.error f, mem)
  | (.ok pte, mem) =>
    if pte.isPointer then
      let bottom := Walk.slot pte.pageNumber .base q.vaddr
      match Walk.load bottom mem with
      | (.error f, mem) => (.error f, mem)
      | (.ok pte, mem) =>
        if pte.isPointer then (.error (.refused .pointerAtLastLevel), mem)
        else Walk.finish r.status q .base bottom pte mem
    else Walk.finish r.status q .super top pte mem

theorem walk_eq_of_toOption {μ : Type} [WordMemory μ] {r : Registers} {q : Request} {mem : μ} {l : Leaf}
    (h : (walk r q mem).1.toOption = some l) : walk r q mem = (.ok l, (walk r q mem).2) := by
  generalize walk r q mem = result at h ⊢
  obtain ⟨_ | _, _⟩ := result <;> cases h
  rfl

/-- Machine mode and bare mode leave addresses as they are. -/
def Registers.bypasses (r : Registers) (p : Privilege) : Bool :=
  p == .machine || r.satp.mode == .bare

def Registers.translate {μ : Type} [WordMemory μ] (r : Registers) (q : Request) (mem : μ) :
    Except Trap PhysAddr × μ :=
  if r.bypasses q.privilege then (.ok ⟨q.vaddr.val⟩, mem)
  else
    match walk r q mem with
    | (.ok leaf, mem) => (.ok (leaf.translate q.vaddr), mem)
    | (.error f, mem) => (.error (f.trap q), mem)

end Sv32
