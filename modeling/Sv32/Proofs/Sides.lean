import Sv32.Proofs.Outcomes

/-! # The two sides do not interfere

A side is a machine by itself, with a cache and its counters. What it answers is decided by its own
operations and by the flushes and resets between them, and operations of different sides may change places.
-/
namespace Sv32

/-- An operation on one side alone; which side it names makes no difference. -/
def Bank.step (b : Bank) : Tlb.Op → Except Violation (Effect Bank Tlb.Answer)
  | .lookup _ q => .ok ⟨.found (b.lookup q).1, (b.lookup q).2, []⟩
  | .peek _ q => .ok ⟨.found (b.cache.lookup q), b, []⟩
  | .refill _ v l => do
    let (_, b) ← b.refill v l
    return ⟨.done, b, []⟩
  | .flush _ => .ok ⟨.done, b.flush.2, []⟩
  | .resetCounters => .ok ⟨.done, b.resetCounters, []⟩
  | .counters _ => .ok ⟨.counters b.counters, b, []⟩

namespace Tlb

def Op.concerns (side : Side) : Op → Bool
  | .lookup s _ | .peek s _ | .refill s _ _ | .counters s => s == side
  | .flush _ | .resetCounters => true

/-- Of the answers to some operations, those to the operations that concern a side. -/
def seenBy (side : Side) (ops : List Op) (answers : List Answer) : List Answer :=
  ((ops.zip answers).filter (·.1.concerns side)).map (·.2)

variable {t : Tlb} {side : Side} {op : Op} {ops : List Op}

theorem seenBy_cons (answer : Answer) (answers : List Answer) :
    seenBy side (op :: ops) (answer :: answers) =
      if op.concerns side then answer :: seenBy side ops answers else seenBy side ops answers := by
  simp only [seenBy, List.zip_cons_cons, List.filter_cons]
  split <;> rfl

theorem seenBy_eq_self {answers : List Answer} (h : ∀ op ∈ ops, op.concerns side = true)
    (hl : answers.length = ops.length) : seenBy side ops answers = answers := by
  induction ops generalizing answers with
  | nil => exact (List.length_eq_zero_iff.mp hl).symm
  | cons op ops ih =>
    obtain ⟨answer, answers, rfl⟩ := List.exists_cons_of_length_eq_add_one hl
    rw [seenBy_cons, if_pos (h op List.mem_cons_self),
      ih (fun op hop => h op (List.mem_cons_of_mem _ hop)) (Nat.succ.inj hl)]

theorem step_side {e : Effect Tlb Answer} (hc : op.concerns side = true) (h : t.step op = .ok e) :
    (t.bank side).step op = .ok ⟨e.answer, e.state.bank side, []⟩ := by
  cases op with
  | lookup s q =>
    obtain rfl := beq_iff_eq.mp hc
    cases h
    rw [bank_setBank]
    rfl
  | peek s q =>
    obtain rfl := beq_iff_eq.mp hc
    cases h
    rfl
  | refill s v l =>
    obtain rfl := beq_iff_eq.mp hc
    obtain ⟨e', he, h⟩ := bind_eq_ok.mp h
    cases h
    obtain ⟨b, hb, hs⟩ := refill_eq_ok he
    simp only [Bank.step, hb, hs, bank_setBank, bind, Except.bind, pure, Except.pure]
  | flush f | resetCounters =>
    cases h
    cases side <;> rfl
  | counters s =>
    obtain rfl := beq_iff_eq.mp hc
    cases h
    rfl

theorem step_elsewhere {e : Effect Tlb Answer} (hc : op.concerns side = false)
    (h : t.step op = .ok e) : e.state.bank side = t.bank side := by
  have apart : ∀ {s : Side}, (s == side) = false → side ≠ s := by
    rintro s hs rfl
    rw [beq_self_eq_true] at hs
    cases hs
  cases op with
  | lookup s q =>
    cases h
    exact t.bank_setBank_of_ne _ (apart hc)
  | refill s v l =>
    obtain ⟨e', he, h⟩ := bind_eq_ok.mp h
    cases h
    obtain ⟨b, -, hs⟩ := refill_eq_ok he
    simp only [hs]
    exact t.bank_setBank_of_ne b (apart hc)
  | peek | counters =>
    cases h
    rfl
  | flush | resetCounters => cases hc

theorem run_side (side : Side) {e : Effect Tlb (List Answer)} (h : Effect.run step t ops = .ok e) :
    Effect.run Bank.step (t.bank side) (ops.filter (·.concerns side)) =
      .ok ⟨seenBy side ops e.answer, e.state.bank side, []⟩ := by
  induction ops generalizing t e with
  | nil =>
    cases h
    rfl
  | cons op ops ih =>
    obtain ⟨first, rest, hf, hr, rfl⟩ := Effect.run_cons_eq_ok.mp h
    have hrest := ih hr
    rw [List.filter_cons, seenBy_cons]
    cases hc : op.concerns side with
    | true =>
      rw [if_pos rfl, if_pos rfl]
      exact Effect.run_cons_eq_ok.mpr ⟨_, _, step_side hc hf, hrest, rfl⟩
    | false =>
      rw [step_elsewhere hc hf] at hrest
      exact hrest

theorem run_congr {ops' : List Op} {e e' : Effect Tlb (List Answer)} (h : Effect.run step t ops = .ok e)
    (h' : Effect.run step t ops' = .ok e')
    (hops : ops'.filter (·.concerns side) = ops.filter (·.concerns side)) :
    seenBy side ops' e'.answer = seenBy side ops e.answer ∧ e'.state.bank side = e.state.bank side := by
  have hside := run_side side h'
  rw [hops, run_side side h] at hside
  obtain ⟨ha, hb, -⟩ := Effect.mk.inj (Except.ok.inj hside)
  exact ⟨ha.symm, hb.symm⟩

theorem run_of_aligned (t : Tlb) (aligned : ∀ side v l, .refill side v l ∈ ops → l.isAligned = true) :
    ∃ e, Effect.run step t ops = .ok e := by
  refine Effect.run_eq_ok ?_ t
  intro t op hop
  exact t.step_eq_ok fun side v l h => aligned side v l (h ▸ hop)

end Tlb

/-- From any buffer, under any operations that refill with aligned pages: a side sees the same if all that
does not concern it is left out, and if the operations of the two sides come in between each other in
another way among the same flushes and resets. -/
theorem sides_do_not_interfere (t : Tlb) (ops : List Tlb.Op)
    (aligned : ∀ side v l, .refill side v l ∈ ops → l.isAligned = true) :
    ∃ e, Effect.run Tlb.step t ops = .ok e ∧
      (∀ side, ∃ e', Effect.run Tlb.step t (ops.filter (·.concerns side)) = .ok e' ∧
        e'.answer = Tlb.seenBy side ops e.answer ∧ e'.state.bank side = e.state.bank side) ∧
      ∀ ops', (∀ side, ops'.filter (·.concerns side) = ops.filter (·.concerns side)) →
        ∃ e', Effect.run Tlb.step t ops' = .ok e' ∧ e'.state = e.state ∧
          ∀ side, Tlb.seenBy side ops' e'.answer = Tlb.seenBy side ops e.answer := by
  obtain ⟨e, he⟩ := Tlb.run_of_aligned t aligned
  refine ⟨e, he, ?_, ?_⟩
  · intro side
    have alone : ∃ e', Effect.run Tlb.step t (ops.filter (·.concerns side)) = .ok e' :=
      Tlb.run_of_aligned t fun s v l h => aligned s v l (List.mem_filter.mp h).1
    have same : (ops.filter (·.concerns side)).filter (·.concerns side) = ops.filter (·.concerns side) := by
      simp only [List.filter_filter, Bool.and_self]
    obtain ⟨e', he'⟩ := alone
    obtain ⟨ha, hb⟩ := Tlb.run_congr he he' same
    rw [Tlb.seenBy_eq_self (fun op h => (List.mem_filter.mp h).2) (Effect.length_answer he')] at ha
    exact ⟨e', he', ha, hb⟩
  · intro ops' hops
    have aligned' : ∀ side v l, .refill side v l ∈ ops' → l.isAligned = true := by
      intro side v l h
      have hmem : Tlb.Op.refill side v l ∈ ops'.filter (·.concerns side) :=
        List.mem_filter.mpr ⟨h, beq_self_eq_true side⟩
      rw [hops] at hmem
      exact aligned side v l (List.mem_filter.mp hmem).1
    obtain ⟨e', he'⟩ := Tlb.run_of_aligned t aligned'
    have same := fun side => Tlb.run_congr he he' (hops side)
    exact ⟨e', he', Tlb.ext_bank fun side => (same side).2, fun side => (same side).1⟩

theorem sides_do_not_interfere_where_one_evicts :
    let r : Rights := ⟨true, false, true, false⟩
    let ops : List Tlb.Op :=
      [.refill .instruction ⟨0x1000⟩ ⟨⟨0xa000⟩, r, .base⟩, .refill .data ⟨0x1000⟩ ⟨⟨0xb000⟩, r, .base⟩,
        .refill .data ⟨0x2000⟩ ⟨⟨0xc000⟩, r, .base⟩, .lookup .data ⟨⟨0x1abc⟩, .read, .supervisor⟩,
        .lookup .instruction ⟨⟨0x1abc⟩, .fetch, .supervisor⟩, .flush .all,
        .peek .instruction ⟨⟨0x1abc⟩, .fetch, .supervisor⟩]
    (∀ side v l, .refill side v l ∈ ops → l.isAligned = true) ∧
      ∃ t e e', Tlb.new 1 1 = .ok t ∧ Effect.run Tlb.step t ops = .ok e ∧
        Effect.run Tlb.step t (ops.filter (·.concerns .instruction)) = .ok e' ∧
        e'.answer = [.done, .found (some ⟨0xaabc⟩), .done, .found none] ∧
        Tlb.seenBy .instruction ops e.answer = e'.answer ∧
        e'.state.bank .instruction = e.state.bank .instruction := by
  intro r ops
  have aligned : ∀ side v l, .refill side v l ∈ ops → l.isAligned = true := by
    intro side v l h
    simp only [ops, List.mem_cons, Tlb.Op.refill.injEq, reduceCtorEq, List.not_mem_nil,
      or_false] at h
    rcases h with ⟨-, -, rfl⟩ | ⟨-, -, rfl⟩ | ⟨-, -, rfl⟩ <;> decide
  obtain ⟨t, ht, -⟩ := Tlb.new_fifo (show 0 < 1 by decide) (show 0 < 1 by decide)
  obtain ⟨e, he, halone, -⟩ := sides_do_not_interfere t ops aligned
  obtain ⟨e', he', ha, hb⟩ := halone .instruction
  have hrun : ((Tlb.new 1 1).bind fun t =>
      Effect.run Tlb.step t (ops.filter (·.concerns .instruction))).toOption.map (·.answer) =
      some [.done, .found (some ⟨0xaabc⟩), .done, .found none] := by
    decide +kernel
  simp only [ht, Except.bind, he', Except.toOption, Option.map_some, Option.some.injEq] at hrun
  exact ⟨aligned, t, e, e', ht, he, he', hrun, ha.symm, hb⟩

end Sv32
