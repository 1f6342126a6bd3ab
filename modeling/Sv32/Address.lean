/-! # Addresses and pages

Virtual and physical addresses are 32-bit words of two different types. A page level says where
an address is cut into a page number, kept in place, and an offset inside the page. -/
namespace Sv32

namespace Hex

def digits (n : Nat) : List Char := Nat.toDigits 16 n

def shortest (n : Nat) : String := String.ofList ('0' :: 'x' :: digits n)

def padded (width n : Nat) : String :=
  String.ofList ('0' :: 'x' :: (List.replicate (width - (digits n).length) '0' ++ digits n))

end Hex

abbrev Word := BitVec 32

inductive PageLevel where
  | base
  | super
  deriving DecidableEq, Repr, Inhabited

namespace PageLevel

def offsetBits : PageLevel → Nat
  | base => 12
  | super => 22

def offsetMask : PageLevel → Word
  | base => 0x00000fff
  | super => 0x003fffff

def name : PageLevel → String
  | base => "4K"
  | super => "4M"

def size : PageLevel → Nat
  | base => 0x1000
  | super => 0x400000

theorem toNat_and_offsetMask (level : PageLevel) (w : Word) :
    (w &&& level.offsetMask).toNat = w.toNat % level.size := by
  rw [BitVec.toNat_and]
  cases level with
  | base => exact Nat.and_two_pow_sub_one_eq_mod w.toNat 12
  | super => exact Nat.and_two_pow_sub_one_eq_mod w.toNat 22

end PageLevel

def Word.text (w : Word) : String := Hex.padded 8 w.toNat

structure VirtAddr where
  val : Word
  deriving DecidableEq, Repr, Inhabited

structure PhysAddr where
  val : Word
  deriving DecidableEq, Repr, Inhabited

namespace VirtAddr

variable (a : VirtAddr) (level : PageLevel)

/-- The address of the first byte of the page that holds `a`. -/
def pageNumber : Word := a.val &&& ~~~level.offsetMask

def pageOffset : Word := a.val &&& level.offsetMask

/-- The slot that `a` selects in a page table of `level`: the ten bits above that level's offset. -/
def tableIndex : BitVec 10 := a.val.extractLsb' level.offsetBits 10

def text : String := Word.text a.val

theorem pageNumber_or_pageOffset : a.pageNumber level ||| a.pageOffset level = a.val := by
  simp only [pageNumber, pageOffset]
  ext i hi
  simp
  cases a.val[i] <;> simp

theorem pageNumber_and_offsetMask : a.pageNumber level &&& level.offsetMask = 0 := by
  rw [pageNumber, BitVec.and_assoc, BitVec.and_comm (~~~_), BitVec.and_not_self]
  exact BitVec.and_zero

theorem toNat_pageOffset : (a.pageOffset level).toNat = a.val.toNat % level.size :=
  level.toNat_and_offsetMask a.val

end VirtAddr

namespace PhysAddr

variable (a : PhysAddr) (level : PageLevel)

def isPageAligned : Bool := a.val &&& level.offsetMask == 0

/-- The first byte of a physical page. Page numbers have 22 bits and addresses 32, so the two top
bits of the page number fall off. -/
def ofPageNumber (ppn : BitVec 22) : PhysAddr := ⟨ppn.setWidth 32 <<< 12⟩

/-- The byte of the page at `a` that has the offset of `v`. -/
def splice (v : VirtAddr) : PhysAddr := ⟨a.val ||| v.pageOffset level⟩

def text : String := Word.text a.val

variable {a level}

theorem isPageAligned_iff_mod : a.isPageAligned level = true ↔ a.val.toNat % level.size = 0 := by
  rw [isPageAligned, beq_iff_eq, ← BitVec.toNat_inj, level.toNat_and_offsetMask]
  rfl

theorem toNat_splice (h : a.isPageAligned level = true) (v : VirtAddr) :
    (a.splice level v).val.toNat = a.val.toNat + v.val.toNat % level.size := by
  have hmod := isPageAligned_iff_mod.mp h
  have behind : ∀ n o bits : Nat, o < Nat.pow 2 bits → n % Nat.pow 2 bits = 0 → n ||| o = n + o := by
    intro n o bits ho hn
    obtain ⟨k, rfl⟩ := Nat.dvd_of_mod_eq_zero hn
    exact (Nat.two_pow_add_eq_or_of_lt ho k).symm
  rw [splice, BitVec.toNat_or, v.toNat_pageOffset]
  cases level with
  | base => exact behind _ _ 12 (Nat.mod_lt _ (by decide)) hmod
  | super => exact behind _ _ 22 (Nat.mod_lt _ (by decide)) hmod

end PhysAddr

end Sv32
