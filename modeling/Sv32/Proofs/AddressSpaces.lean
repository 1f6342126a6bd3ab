import Mathlib.Algebra.Group.Nat.Defs
import Mathlib.Tactic.ByContra
import Sv32.Proofs.Outcomes

/-! # Address spaces

The register `satp` is its three fields and nothing else. A write to it flushes the buffer for a change of
any field, and is not noticed where no field changes. -/
namespace Sv32

namespace Satp

variable (s : Satp) (mode : PagingMode) (asid : BitVec 16) (rootPage : Word)

/-- The root page has the low 22 bits, the address space the nine above them, the mode the last. -/
theorem getLsbD_ofParts {i : Nat} (hi : i < 32) :
    (ofParts mode asid rootPage).raw.getLsbD i =
      if i < 22 then rootPage.getLsbD i
      else if i < 31 then asid.getLsbD (i - 22)
      else mode == .sv32 := by
  unfold ofParts
  rw [BitVec.getLsbD_append, BitVec.getLsbD_append, BitVec.getLsbD_setWidth, BitVec.getLsbD_setWidth]
  by_cases hlow : i < 22
  · simp only [hlow, decide_true, ↓reduceIte, Bool.true_and]
  · by_cases hmid : i < 31
    · have hj : i - 22 < 9 := by omega
      simp only [hlow, hmid, hj, decide_true, ↓reduceIte, Bool.true_and]
    · have htop : i = 31 := by omega
      subst htop
      cases mode <;> rfl

theorem mode_ofParts : (ofParts mode asid rootPage).mode = mode := by
  rw [Satp.mode, getLsbD_ofParts _ _ _ (by decide)]
  cases mode <;> rfl

theorem asid_ofParts : (ofParts mode asid rootPage).asid = asid.setWidth 9 := by
  apply BitVec.eq_of_getLsbD_eq
  intro i hi
  have hlow : ¬ 22 + i < 22 := by omega
  have hmid : 22 + i < 31 := by omega
  rw [Satp.asid, BitVec.getLsbD_extractLsb', getLsbD_ofParts _ _ _ (by omega), if_neg hlow, if_pos hmid,
    BitVec.getLsbD_setWidth, Nat.add_sub_cancel_left]

theorem rootPage_ofParts : (ofParts mode asid rootPage).rootPage = rootPage.setWidth 22 := by
  apply BitVec.eq_of_getLsbD_eq
  intro i hi
  rw [Satp.rootPage, BitVec.getLsbD_extractLsb', getLsbD_ofParts _ _ _ (by omega), Nat.zero_add, if_pos hi,
    BitVec.getLsbD_setWidth]

theorem ofParts_fields : ofParts s.mode (s.asid.setWidth 16) (s.rootPage.setWidth 32) = s := by
  refine congrArg Satp.mk (BitVec.eq_of_getLsbD_eq ?_)
  intro i hi
  refine (getLsbD_ofParts s.mode (s.asid.setWidth 16) (s.rootPage.setWidth 32) hi).trans ?_
  by_cases hlow : i < 22
  · simp only [hlow, hi, ↓reduceIte, Satp.rootPage, BitVec.getLsbD_setWidth, BitVec.getLsbD_extractLsb',
      decide_true, Bool.true_and, Nat.zero_add]
  · by_cases hmid : i < 31
    · have hj : i - 22 < 9 := by omega
      have hj' : i - 22 < 16 := by omega
      have hk : 22 + (i - 22) = i := by omega
      simp only [hlow, hmid, hj, hj', hk, ↓reduceIte, Satp.asid, BitVec.getLsbD_setWidth,
        BitVec.getLsbD_extractLsb', decide_true, Bool.true_and]
    · have htop : i = 31 := by omega
      subst htop
      rw [Satp.mode]
      cases s.raw.getLsbD 31 <;> rfl

def Differs (s t : Satp) : Prop := s.mode ≠ t.mode ∨ s.asid ≠ t.asid ∨ s.rootPage ≠ t.rootPage

theorem differs_iff {s t : Satp} : s.Differs t ↔ s ≠ t := by
  constructor
  · rintro h rfl
    rcases h with h | h | h <;> exact h rfl
  · intro hne
    by_contra hsame
    obtain ⟨hmode, hasid, hroot⟩ : s.mode = t.mode ∧ s.asid = t.asid ∧ s.rootPage = t.rootPage := by
      simpa only [Differs, not_or, not_not] using hsame
    apply hne
    rw [← s.ofParts_fields, hmode, hasid, hroot, t.ofParts_fields]

end Satp

structure Bank.FlushedTo (b b' : Bank) : Prop where
  entries : b'.cache.entries = b.cache.entries.map (·.invalidate)
  flushes : b'.counters.flushes = b.counters.flushes + 1

theorem Bank.FlushedTo.invalid {b b' : Bank} (h : b.FlushedTo b') {e : Entry}
    (he : e ∈ b'.cache.entries) : e.valid = false := by
  rw [h.entries] at he
  obtain ⟨old, -, rfl⟩ := List.mem_map.mp he
  rfl

theorem Tlb.flushedTo_flush (t : Tlb) (f : Fence) (side : Side) :
    (t.bank side).FlushedTo ((t.flush f).state.bank side) := by
  constructor
  · rw [t.cache_flush]
    exact (t.bank side).cache.entries_flush
  · rw [t.counters_flush]
    rfl

namespace Mmu

variable (m : Mmu) {new : Satp}

theorem writeSatp_of_eq (h : new = m.registers.satp) : m.writeSatp new = ⟨(), m, []⟩ := by
  rw [writeSatp, if_pos h]

theorem writeSatp_flushedTo (h : new ≠ m.registers.satp) (side : Side) :
    (m.tlb.bank side).FlushedTo ((m.writeSatp new).state.tlb.bank side) := by
  rw [writeSatp, if_neg h]
  exact m.tlb.flushedTo_flush ⟨some (new.asid.setWidth 16), none⟩ side

theorem satp_writeSatp : (m.writeSatp new).state.registers.satp = new := by
  by_cases h : new = m.registers.satp
  · rw [m.writeSatp_of_eq h, h]
  · rw [writeSatp, if_neg h]
    rfl

end Mmu

/-- A register is what its fields say. A write to it flushes both sides exactly if it changes a field, and
leaves the whole unit as it is otherwise. -/
theorem every_field_of_satp_matters :
    (∀ s : Satp, Satp.ofParts s.mode (s.asid.setWidth 16) (s.rootPage.setWidth 32) = s) ∧
    (∀ (mode : PagingMode) (asid : BitVec 16) (rootPage : Word),
      let s := Satp.ofParts mode asid rootPage
      s.mode = mode ∧ s.asid.toNat = asid.toNat % 2 ^ 9 ∧ s.rootPage.toNat = rootPage.toNat % 2 ^ 22) ∧
    ∀ (m : Mmu) (new : Satp),
      let m' := (m.writeSatp new).state
      m'.registers.satp = new ∧
      ((∀ side, (m.tlb.bank side).FlushedTo (m'.tlb.bank side)) ↔ m.registers.satp.Differs new) ∧
      (m.registers.satp.Differs new →
        ∀ side, ∀ e ∈ (m'.tlb.bank side).cache.entries, e.valid = false) ∧
      (¬ m.registers.satp.Differs new → m' = m) := by
  refine ⟨Satp.ofParts_fields, ?_, ?_⟩
  · intro mode asid rootPage s
    refine ⟨Satp.mode_ofParts .., ?_, ?_⟩
    · rw [Satp.asid_ofParts, BitVec.toNat_setWidth]
    · rw [Satp.rootPage_ofParts, BitVec.toNat_setWidth]
  · intro m new m'
    have changed : m.registers.satp.Differs new →
        ∀ side, (m.tlb.bank side).FlushedTo (m'.tlb.bank side) :=
      fun h => m.writeSatp_flushedTo (Satp.differs_iff.mp h).symm
    have unchanged : ¬ m.registers.satp.Differs new → m' = m := by
      intro h
      have heq : new = m.registers.satp := by
        by_contra hne
        exact h (Satp.differs_iff.mpr (Ne.symm hne))
      exact congrArg Effect.state (m.writeSatp_of_eq heq)
    refine ⟨m.satp_writeSatp, ⟨?_, changed⟩, fun h side e => (changed h side).invalid, unchanged⟩
    intro h
    by_contra hsame
    have hcount := (h .data).flushes
    rw [unchanged hsame] at hcount
    omega

theorem every_field_of_satp_matters_to_a_cached_page :
    let l : Leaf := ⟨⟨0xa000⟩, ⟨true, true, false, false⟩, .base⟩
    ∃ m : Mmu, m.registers.satp = ⟨0x00000001⟩ ∧ m.tlb.data.cache.entries = [⟨0x1000, l, true⟩] ∧
      (m.writeSatp ⟨0x00000001⟩).state = m ∧
      m.registers.satp.Differs ⟨0x40000001⟩ ∧
      (m.writeSatp ⟨0x40000001⟩).state.tlb.data.cache.entries = [⟨0x1000, l, false⟩] := by
  intro l
  have hrun : ((do
      let t ← Tlb.new 1 1
      let e ← t.refill .data ⟨0x1abc⟩ l
      return e.state : Except Violation Tlb).map fun t => t.data.cache.entries).toOption =
      some [⟨0x1000, l, true⟩] := by
    decide +kernel
  obtain ⟨t, -, hentries⟩ := eq_ok_of_toOption hrun
  let m : Mmu := ⟨t, ⟨⟨0x00000001⟩, default⟩, 0, 0⟩
  obtain ⟨-, -, h⟩ := every_field_of_satp_matters
  have same : ¬ m.registers.satp.Differs ⟨0x00000001⟩ := fun hd => Satp.differs_iff.mp hd rfl
  have hasid : (Satp.mk 0x00000001).asid ≠ (Satp.mk 0x40000001).asid := by decide
  have differs : m.registers.satp.Differs ⟨0x40000001⟩ := Or.inr (Or.inl hasid)
  obtain ⟨-, -, -, unchanged⟩ := h m ⟨0x00000001⟩
  obtain ⟨-, flushed, -, -⟩ := h m ⟨0x40000001⟩
  refine ⟨m, rfl, hentries, unchanged same, differs, ?_⟩
  have hafter := (flushed.mpr differs .data).entries
  exact hafter.trans (congrArg (List.map (·.invalidate)) hentries)

end Sv32
