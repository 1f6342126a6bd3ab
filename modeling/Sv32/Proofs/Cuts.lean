import Mathlib.Algebra.Group.Nat.Defs
import Mathlib.Data.Set.Function
import Sv32.Proofs.LeafRule

/-! # Where addresses are cut

The buffer masks the offset out and compares what is left, the walk takes ten bits for each table. Both cut
an address at the same places and lose nothing. -/
namespace Sv32

namespace VirtAddr

variable (v : VirtAddr) (level : PageLevel)

def page : Set VirtAddr := {u | u.pageNumber level = v.pageNumber level}

theorem toNat_pageNumber_add_pageOffset :
    (v.pageNumber level).toNat + (v.pageOffset level).toNat = v.val.toNat := by
  have hand : v.pageNumber level &&& v.pageOffset level = 0 := by
    rw [pageOffset, BitVec.and_comm v.val, ← BitVec.and_assoc, pageNumber_and_offsetMask]
    exact BitVec.zero_and
  rw [← BitVec.toNat_add_of_and_eq_zero hand, BitVec.add_eq_or_of_and_eq_zero _ _ hand,
    pageNumber_or_pageOffset]

theorem toNat_pageNumber :
    (v.pageNumber level).toNat = level.size * (v.val.toNat / level.size) := by
  apply Nat.add_right_cancel (m := (v.pageOffset level).toNat)
  rw [toNat_pageNumber_add_pageOffset, toNat_pageOffset, Nat.div_add_mod]

/-- The two slots and the offset in the base page, each put back where it was taken from. -/
theorem toNat_eq_slots :
    v.val.toNat = (v.tableIndex .super).toNat * 2 ^ 22 + (v.tableIndex .base).toNat * 2 ^ 12 +
      (v.pageOffset .base).toNat := by
  rw [toNat_tableIndex, toNat_tableIndex, toNat_pageOffset]
  simp only [vpn, PageLevel.size]
  omega

variable {v level} {w : VirtAddr}

theorem pageNumber_eq_iff :
    v.pageNumber level = w.pageNumber level ↔
      v.val.toNat / level.size = w.val.toNat / level.size := by
  have hpos : level.size ≠ 0 := by cases level <;> decide
  rw [← BitVec.toNat_inj, toNat_pageNumber, toNat_pageNumber]
  exact Nat.mul_right_inj hpos

theorem tableIndex_eq_iff {table : PageLevel} :
    v.tableIndex table = w.tableIndex table ↔ v.vpn table = w.vpn table := by
  rw [← toNat_tableIndex, ← toNat_tableIndex, BitVec.toNat_inj]

theorem pageNumber_base_eq_iff :
    v.pageNumber .base = w.pageNumber .base ↔
      v.tableIndex .super = w.tableIndex .super ∧ v.tableIndex .base = w.tableIndex .base := by
  rw [pageNumber_eq_iff, tableIndex_eq_iff, tableIndex_eq_iff]
  simp only [PageLevel.size, vpn]
  constructor
  · intro h
    omega
  · rintro ⟨hsuper, hbase⟩
    omega

theorem pageNumber_super_eq_iff :
    v.pageNumber .super = w.pageNumber .super ↔ v.tableIndex .super = w.tableIndex .super := by
  rw [pageNumber_eq_iff, tableIndex_eq_iff]
  rfl

theorem exists_mem_page (v : VirtAddr) {offset : Nat} (h : offset < level.size) :
    ∃ u ∈ v.page level, u.val.toNat % level.size = offset := by
  have hlt : level.size * (v.val.toNat / level.size) + offset < 2 ^ 32 := by
    have := v.val.isLt
    cases level <;> simp only [PageLevel.size] at h ⊢ <;> omega
  have hu := Nat.mod_eq_of_lt hlt
  refine ⟨⟨BitVec.ofNat 32 (level.size * (v.val.toNat / level.size) + offset)⟩,
    pageNumber_eq_iff.mpr ?_, ?_⟩
  · rw [BitVec.toNat_ofNat, hu, Nat.mul_add_div (Nat.zero_lt_of_lt h), Nat.div_eq_of_lt h,
      Nat.add_zero]
  · rw [BitVec.toNat_ofNat, hu, Nat.mul_add_mod, Nat.mod_eq_of_lt h]

end VirtAddr

namespace PhysAddr

def page (a : PhysAddr) (level : PageLevel) : Set PhysAddr :=
  {b | a.val.toNat ≤ b.val.toNat ∧ b.val.toNat < a.val.toNat + level.size}

/-- A virtual page is laid over a physical page, byte on byte. -/
theorem bijOn_splice {a : PhysAddr} {level : PageLevel} (aligned : a.isPageAligned level = true)
    (v : VirtAddr) : Set.BijOn (a.splice level) (v.page level) (a.page level) := by
  have hpos : 0 < level.size := by cases level <;> decide
  refine ⟨?_, ?_, ?_⟩
  · intro u _
    have hmod := Nat.mod_lt u.val.toNat hpos
    have hval := toNat_splice aligned u
    exact ⟨by omega, by omega⟩
  · intro u hu w hw h
    have hoffset : u.val.toNat % level.size = w.val.toNat % level.size := by
      have hval := congrArg (fun b : PhysAddr => b.val.toNat) h
      simp only [toNat_splice aligned] at hval
      omega
    have hnumber : u.val.toNat / level.size = w.val.toNat / level.size :=
      VirtAddr.pageNumber_eq_iff.mp (Eq.trans hu hw.symm)
    have hval : u.val.toNat = w.val.toNat := by
      rw [← Nat.div_add_mod u.val.toNat level.size, hnumber, hoffset, Nat.div_add_mod]
    exact congrArg VirtAddr.mk (BitVec.eq_of_toNat_eq hval)
  · intro b hb
    obtain ⟨hle, hlt⟩ := hb
    have hoff : b.val.toNat - a.val.toNat < level.size := by omega
    obtain ⟨u, hu, hoffset⟩ := v.exists_mem_page hoff
    have hval : (a.splice level u).val.toNat = b.val.toNat := by
      rw [toNat_splice aligned, hoffset]
      omega
    exact ⟨u, hu, congrArg PhysAddr.mk (BitVec.eq_of_toNat_eq hval)⟩

end PhysAddr

/-- Two addresses have the same page number exactly if they select the same slots, an address is put
together again from its slots or its page number and its offset, and behind an aligned physical page the
offset is added without a carry. -/
theorem pages_are_cut_alike (v w : VirtAddr) :
    (v.pageNumber .base = w.pageNumber .base ↔
      v.tableIndex .super = w.tableIndex .super ∧ v.tableIndex .base = w.tableIndex .base) ∧
    (v.pageNumber .super = w.pageNumber .super ↔ v.tableIndex .super = w.tableIndex .super) ∧
    v.val.toNat = (v.tableIndex .super).toNat * 2 ^ 22 + (v.tableIndex .base).toNat * 2 ^ 12 +
      (v.pageOffset .base).toNat ∧
    ∀ level,
      v.val = v.pageNumber level ||| v.pageOffset level ∧
      v.val.toNat = (v.pageNumber level).toNat + (v.pageOffset level).toNat ∧
      ∀ a : PhysAddr, a.isPageAligned level = true →
        (a.splice level v).val.toNat = a.val.toNat + (v.pageOffset level).toNat ∧
        Set.BijOn (a.splice level) (v.page level) (a.page level) := by
  refine ⟨VirtAddr.pageNumber_base_eq_iff, VirtAddr.pageNumber_super_eq_iff, v.toNat_eq_slots, ?_⟩
  intro level
  refine ⟨(v.pageNumber_or_pageOffset level).symm, (v.toNat_pageNumber_add_pageOffset level).symm, ?_⟩
  intro a aligned
  refine ⟨?_, PhysAddr.bijOn_splice aligned v⟩
  rw [v.toNat_pageOffset level]
  exact PhysAddr.toNat_splice aligned v

theorem pages_are_cut_alike_at_the_top :
    let v : VirtAddr := ⟨0x00401fff⟩
    let w : VirtAddr := ⟨0x00402000⟩
    let a : PhysAddr := ⟨0xffc00000⟩
    a.isPageAligned .super = true ∧ v.pageNumber .super = w.pageNumber .super ∧
      v.pageNumber .base ≠ w.pageNumber .base ∧ v.tableIndex .base ≠ w.tableIndex .base ∧
      (a.splice .super v).val.toNat = 0xffc01fff ∧
      Set.BijOn (a.splice .super) (v.page .super) (a.page .super) := by
  intro v w a
  have aligned : a.isPageAligned .super = true := by decide
  obtain ⟨hbase, hsuper, -, hlevel⟩ := pages_are_cut_alike v w
  obtain ⟨hsum, hbij⟩ := (hlevel .super).2.2 a aligned
  have hslot : v.tableIndex .base ≠ w.tableIndex .base := by decide
  exact ⟨aligned, hsuper.mpr (by decide), fun h => hslot (hbase.mp h).2, hslot,
    hsum.trans (by decide), hbij⟩

end Sv32
