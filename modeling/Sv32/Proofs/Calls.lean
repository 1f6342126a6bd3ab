import Mathlib.Data.Nat.Count
import Sv32.Proofs.Outcomes

/-! # Calls

A unit has no memory of its own: every call brings one along, and a memory may even give two answers to one
question. What a call does to the unit, for any memory, is said here once. -/
namespace Sv32

/-- An operation, with the memory that it finds. -/
structure Call (μ : Type) where
  op : Mmu.Op
  memory : μ

namespace Mmu

/-- The operations that change the buffer behind the back of the unit. To peek, or to read the counters of
a side, changes nothing. -/
def Op.meddles : Op → Bool
  | .tlb (.lookup ..) | .tlb (.refill ..) | .tlb (.flush _) | .tlb .resetCounters => true
  | _ => false

def Op.flushes (satp : Satp) : Op → Bool
  | .writeSatp raw => satp.raw != raw
  | .fence _ => true
  | .changePrivilege old new => old != new
  | _ => false

def Answer.fails : Answer → Bool
  | .translated (.error _) => true
  | _ => false

section

variable {μ : Type} [WordMemory μ]

def call (m : Mmu) (c : Call μ) : Except Violation (Effect Mmu Answer) :=
  (step (m, c.memory) c.op).map fun e => ⟨e.answer, e.state.1, e.events⟩

abbrev Calls (m : Mmu) (calls : Nat → Call μ) := Effect.History call m calls

/-- All that a call can do: translate, flush the buffer, or leave it alone. -/
inductive Called (m : Mmu) (c : Call μ) : Answer → Mmu → Prop where
  | translated {q : Request} {e : Effect (Mmu × μ) (Except Trap PhysAddr)} (op : c.op = .translate q)
      (h : m.Translates q c.memory e) : Called m c (.translated e.answer) e.state.1
  | flushed {a : Answer} {f : Fence} {r : Registers} (flushes : c.op.flushes m.registers.satp = true)
      (succeeds : a.fails = false) :
      Called m c a { m with tlb := (m.tlb.flush f).state, registers := r }
  | kept {a : Answer} {r : Registers} (flushes : c.op.flushes m.registers.satp = false)
      (succeeds : a.fails = false) : Called m c a { m with registers := r }

theorem call_eq_ok (m : Mmu) {c : Call μ} (h : c.op.meddles = false) :
    ∃ e, m.call c = .ok e ∧ m.Called c e.answer e.state := by
  obtain ⟨op, mem⟩ := c
  cases op with
  | translate q =>
    obtain ⟨e, he, ht⟩ := m.translate_eq_ok q mem
    refine ⟨⟨.translated e.answer, e.state.1, e.events⟩, ?_, .translated rfl ht⟩
    simp only [call, step, he]
    rfl
  | writeSatp raw =>
    refine ⟨_, rfl, ?_⟩
    by_cases hsame : (⟨raw⟩ : Satp) = m.registers.satp
    · simp only [writeSatp, hsame, ↓reduceIte]
      exact .kept (by simp [Op.flushes, ← hsame]) rfl
    · simp only [writeSatp, hsame, ↓reduceIte]
      refine .flushed ?_ rfl
      rw [Op.flushes, bne_iff_ne]
      intro hraw
      exact hsame (congrArg Satp.mk hraw.symm)
  | changePrivilege old new =>
    refine ⟨_, rfl, ?_⟩
    by_cases hsame : new = old
    · simp only [changePrivilege, hsame, ↓reduceIte]
      exact .kept (by simp [Op.flushes]) rfl
    · simp only [changePrivilege, hsame, ↓reduceIte]
      exact .flushed (bne_iff_ne.mpr (Ne.symm hsame)) rfl
  | writeSstatus raw => exact ⟨_, rfl, .kept rfl rfl⟩
  | fence f => exact ⟨_, rfl, .flushed rfl rfl⟩
  | stats => exact ⟨_, rfl, .kept rfl rfl⟩
  | tlb op =>
    cases op with
    | peek | counters => exact ⟨_, rfl, .kept rfl rfl⟩
    | _ => cases h

namespace Calls

variable {m : Mmu} {calls : Nat → Call μ} (own : ∀ k, (calls k).op.meddles = false)

include own in
theorem nonempty (m : Mmu) : Nonempty (m.Calls calls) := by
  refine Effect.History.nonempty (P := fun _ _ => True) ?_ trivial
  intro k m _
  obtain ⟨e, he, -⟩ := m.call_eq_ok (own k)
  exact ⟨e, he, trivial⟩

include own in
theorem called (ρ : m.Calls calls) (k : Nat) :
    (ρ.state k).Called (calls k) (ρ.answer k) (ρ.state (k + 1)) := by
  obtain ⟨events, h⟩ := ρ.next k
  obtain ⟨e, he, hc⟩ := (ρ.state k).call_eq_ok (own k)
  rw [h] at he
  cases he
  exact hc

include own in
theorem invariant {P : Mmu → Prop} (hm : P m)
    (preserved : ∀ {m c a m'}, P m → m.Called (μ := μ) c a m' → P m') (ρ : m.Calls calls) (n : Nat) :
    P (ρ.state n) := by
  induction n with
  | zero =>
    rw [ρ.start]
    exact hm
  | succ n ih => exact preserved ih (called own ρ n)

theorem eq_count (ρ : m.Calls calls) (counter : Mmu → Nat) {p : Nat → Prop} [DecidablePred p]
    (start : counter m = 0)
    (step : ∀ k, counter (ρ.state (k + 1)) = counter (ρ.state k) + if p k then 1 else 0) (n : Nat) :
    counter (ρ.state n) = Nat.count p n := by
  induction n with
  | zero => rw [ρ.start, start, Nat.count_zero]
  | succ n ih => rw [step, ih, Nat.count_succ]

end Calls

end

end Mmu

end Sv32
