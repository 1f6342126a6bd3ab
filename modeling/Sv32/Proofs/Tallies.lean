import Mathlib.Data.Nat.Count
import Sv32.Proofs.LiveRefills
import Sv32.Proofs.Sides

/-! # The counters since the last reset

The counters are set back to zero now and then, while the entries stay. What they say of the caches is then
about the time since the reset. -/
namespace Sv32

/-- What a side has counted, where `resident` entries were there when the counting began, and since then
`hits` lookups found something and `flushes` flushes came. -/
structure Bank.Tallied (b : Bank) (hits flushes resident : Nat) : Prop where
  lookups : b.counters.lookups = b.counters.hits + b.counters.misses
  hits : b.counters.hits = hits
  outcomes : b.counters.replacements + b.counters.evictions ≤ b.counters.refills
  resident : b.cache.size + b.counters.replacements + b.counters.evictions = resident + b.counters.refills
  full : 0 < b.counters.evictions → b.cache.size = b.cache.capacity
  flushes : b.counters.flushes = flushes

namespace Tlb

def Op.hits : Op → Answer → Bool
  | .lookup _ _, .found (some _) => true
  | _, _ => false

def Op.flushes : Op → Bool
  | .flush _ => true
  | _ => false

theorem Op.flushes_of_elsewhere {op : Op} {side : Side} (h : op.concerns side = false) :
    op.flushes = false := by
  cases op with
  | flush => cases h
  | _ => rfl

end Tlb

namespace Bank

variable {b b' : Bank} {hits flushes resident : Nat}

theorem tallied_of_zero (h : b.counters = {}) : b.Tallied 0 0 b.cache.size := by
  constructor <;> simp [h]

theorem Tallied.lookup (h : b.Tallied hits flushes resident) (q : Request) :
    (b.lookup q).2.Tallied (hits + if (b.lookup q).1.isSome then 1 else 0) flushes resident := by
  constructor <;> simp only [Bank.lookup, Counters.lookups_countLookup, Counters.hits_countLookup,
    Counters.misses_countLookup, Counters.refills_countLookup, Counters.replacements_countLookup,
    Counters.evictions_countLookup, Counters.flushes_countLookup]
  · have hl := h.lookups
    split <;> omega
  · exact congrArg (· + _) h.hits
  · exact h.outcomes
  · exact h.resident
  · exact h.full
  · exact h.flushes

theorem Tallied.refill (h : b.Tallied hits flushes resident) {v : VirtAddr} {l : Leaf} {r : Refill}
    (hr : b.refill v l = .ok (r, b')) : b'.Tallied hits flushes resident := by
  obtain ⟨hcache, hcounters⟩ := refill_eq_ok hr
  have hsize := Cache.size_refill hcache
  have hcapacity := Cache.capacity_refill hcache
  obtain ⟨inserted, evicted⟩ := Cache.room_of_refill hcache
  constructor
  · rw [hcounters, Counters.lookups_countRefill, Counters.hits_countRefill, Counters.misses_countRefill]
    exact h.lookups
  · rw [hcounters, Counters.hits_countRefill]
    exact h.hits
  · have houtcomes := h.outcomes
    rw [hcounters]
    cases r <;> simp only [Counters.countRefill] <;> omega
  · have hresident := h.resident
    have hrefill := resident_of_refill hr
    omega
  · rw [hcounters, hsize, hcapacity]
    cases r with
    | inserted =>
      -- a full cache has no room, so nothing was evicted before
      intro hpos
      exact absurd (h.full hpos) (Nat.ne_of_lt (inserted rfl))
    | replaced => exact h.full
    | evicted victim => exact fun _ => evicted victim rfl
  · rw [hcounters, Counters.flushes_countRefill]
    exact h.flushes

theorem Tallied.flush (h : b.Tallied hits flushes resident) :
    b.flush.2.Tallied hits (flushes + 1) resident := by
  refine ⟨h.lookups, h.hits, h.outcomes, h.resident, ?_, congrArg (· + 1) h.flushes⟩
  intro hpos
  have hcapacity : b.flush.2.cache.capacity = b.cache.capacity := b.cache.capacity_flush
  rw [hcapacity]
  exact h.full hpos

theorem Tallied.step (h : b.Tallied hits flushes resident) {op : Tlb.Op} {e : Effect Bank Tlb.Answer}
    (hop : op ≠ .resetCounters) (hs : b.step op = .ok e) :
    e.state.Tallied (hits + if op.hits e.answer then 1 else 0) (flushes + if op.flushes then 1 else 0)
      resident := by
  cases op with
  | lookup side q =>
    cases hs
    have hlookup := h.lookup q
    cases hf : (b.lookup q).1 with
    | none | some =>
      rw [hf] at hlookup
      exact hlookup
  | refill side v l =>
    obtain ⟨⟨r, b'⟩, hr, he⟩ := bind_eq_ok.mp hs
    cases he
    exact h.refill hr
  | flush f =>
    cases hs
    exact h.flush
  | resetCounters => exact absurd rfl hop
  | peek side q | counters side =>
    cases hs
    exact h

end Bank

namespace Tlb

/-- The time up to `n` at which the counters were reset last; where they never were, the beginning. -/
def lastReset (op : Nat → Op) : Nat → Nat
  | 0 => 0
  | n + 1 => if op n = .resetCounters then n + 1 else lastReset op n

theorem lastReset_le (op : Nat → Op) (n : Nat) : lastReset op n ≤ n := by
  induction n with
  | zero => exact Nat.le_refl 0
  | succ n ih =>
    rw [lastReset]
    split
    · exact Nat.le_refl _
    · exact Nat.le_succ_of_le ih

theorem lastReset_spec (op : Nat → Op) (n : Nat) :
    (lastReset op n = 0 ∨ ∃ k, lastReset op n = k + 1 ∧ op k = .resetCounters) ∧
      ∀ k, lastReset op n ≤ k → k < n → op k ≠ .resetCounters := by
  induction n with
  | zero => exact ⟨Or.inl rfl, fun k _ hk => absurd hk (Nat.not_lt_zero k)⟩
  | succ n ih =>
    obtain ⟨hstart, hsince⟩ := ih
    rw [lastReset]
    by_cases hop : op n = .resetCounters
    · rw [if_pos hop]
      exact ⟨Or.inr ⟨n, rfl, hop⟩, fun k hle hlt => absurd hlt (Nat.not_lt.mpr hle)⟩
    · rw [if_neg hop]
      refine ⟨hstart, ?_⟩
      intro k hle hlt
      rcases Nat.lt_succ_iff_lt_or_eq.mp hlt with hlt | rfl
      · exact hsince k hle hlt
      · exact hop

namespace History

variable {instruction data : Nat} {op : Nat → Op} (ρ : History instruction data op)

/-- The times from `r` on and before `n` whose operation and answer are of a kind, counted. -/
def countSince (kind : Op → Answer → Bool) (r n : Nat) : Nat :=
  Nat.count (fun k => r ≤ k ∧ kind (op k) (ρ.answer k) = true) n

variable (kind : Op → Answer → Bool) {r n : Nat} {side : Side}

theorem countSince_self (r : Nat) : ρ.countSince kind r r = 0 := by
  rw [countSince, Nat.count_iff_forall_not]
  intro k hk h
  omega

theorem countSince_succ (h : r ≤ n) : ρ.countSince kind r (n + 1) =
    ρ.countSince kind r n + if kind (op n) (ρ.answer n) then 1 else 0 := by
  simp only [countSince, Nat.count_succ, h, true_and]

theorem counters_start (side : Side) : ((ρ.state 0).bank side).counters = {} := by
  obtain ⟨i, -, hi⟩ := bind_eq_ok.mp ρ.start
  obtain ⟨d, -, hstart⟩ := bind_eq_ok.mp hi
  rw [← Except.ok.inj hstart]
  cases side <;> rfl

theorem counters_reset (h : op n = .resetCounters) (side : Side) :
    ((ρ.state (n + 1)).bank side).counters = {} := by
  obtain ⟨events, hnext⟩ := ρ.next n
  rw [h] at hnext
  rw [← (Effect.mk.inj (Except.ok.inj hnext)).2.1]
  cases side <;> rfl

theorem tallied (side : Side) (n : Nat) :
    ((ρ.state n).bank side).Tallied
      (ρ.countSince (fun op a => op.concerns side && op.hits a) (lastReset op n) n)
      (ρ.countSince (fun op _ => op.flushes) (lastReset op n) n)
      ((ρ.state (lastReset op n)).bank side).cache.size := by
  induction n with
  | zero =>
    simp only [lastReset, countSince_self]
    exact Bank.tallied_of_zero (ρ.counters_start side)
  | succ n ih =>
    by_cases hop : op n = .resetCounters
    · simp only [lastReset, hop, ↓reduceIte, countSince_self]
      exact Bank.tallied_of_zero (ρ.counters_reset hop side)
    · have hle := lastReset_le op n
      simp only [lastReset, hop, ↓reduceIte, ρ.countSince_succ _ hle]
      obtain ⟨events, hnext⟩ := ρ.next n
      cases hc : (op n).concerns side with
      | true => exact ih.step hop (step_side hc hnext)
      | false =>
        rw [step_elsewhere hc hnext, Op.flushes_of_elsewhere hc]
        exact ih

end History

end Tlb

/-- On a new buffer, under any operations that refill with aligned pages: since the last reset every lookup
was a hit or a miss, no more was replaced or evicted than refilled, the rest of the refills is resident, and
a side that has evicted is full. Both have counted the same flushes. -/
theorem counters_tally_since_a_reset (instruction data : Nat) (hi : 0 < instruction) (hd : 0 < data)
    (op : Nat → Tlb.Op) (aligned : ∀ k side v l, op k = .refill side v l → l.isAligned = true) :
    Nonempty (Tlb.History instruction data op) ∧
      ∀ (ρ : Tlb.History instruction data op) (n : Nat),
        let r := Tlb.lastReset op n
        (∀ side, let b := (ρ.state n).bank side
          b.counters.lookups = b.counters.hits + b.counters.misses ∧
          b.counters.hits = ρ.countSince (fun op a => op.concerns side && op.hits a) r n ∧
          b.counters.replacements + b.counters.evictions ≤ b.counters.refills ∧
          b.cache.size + b.counters.replacements + b.counters.evictions =
            ((ρ.state r).bank side).cache.size + b.counters.refills ∧
          (0 < b.counters.evictions → b.cache.isFull = true)) ∧
        (ρ.state n).instruction.counters.flushes = (ρ.state n).data.counters.flushes ∧
        (ρ.state n).data.counters.flushes = ρ.countSince (fun op _ => op.flushes) r n := by
  refine ⟨Tlb.History.nonempty_of_aligned hi hd aligned, ?_⟩
  intro ρ n r
  refine ⟨?_, ?_, (ρ.tallied .data n).flushes⟩
  · intro side
    have h := ρ.tallied side n
    refine ⟨h.lookups, h.hits, h.outcomes, h.resident, ?_⟩
    intro hpos
    exact beq_iff_eq.mpr (h.full hpos)
  · exact (ρ.tallied .instruction n).flushes.trans (ρ.tallied .data n).flushes.symm

theorem counters_tally_since_a_reset_with_an_entry :
    let r : Rights := ⟨true, false, false, false⟩
    let q : Request := ⟨⟨0x2abc⟩, .read, .supervisor⟩
    let ops : List Tlb.Op :=
      [.lookup .data q, .refill .data ⟨0x1000⟩ ⟨⟨0xa000⟩, r, .base⟩, .flush .all, .resetCounters,
        .refill .data ⟨0x1000⟩ ⟨⟨0xb000⟩, r, .base⟩, .refill .data ⟨0x1000⟩ ⟨⟨0xc000⟩, r, .base⟩,
        .refill .data ⟨0x2000⟩ ⟨⟨0xd000⟩, r, .base⟩, .lookup .data q, .lookup .data q, .peek .data q,
        .flush .all, .lookup .data q]
    let op (k : Nat) : Tlb.Op := ops.getD k .resetCounters
    (∀ k side v l, op k = .refill side v l → l.isAligned = true) ∧
      ∃ ρ : Tlb.History 1 1 op, Tlb.lastReset op 12 = 4 ∧ ((ρ.state 4).bank .data).cache.size = 1 ∧
        ((ρ.state 12).bank .data).counters = ⟨3, 2, 1, 3, 1, 2, 1⟩ ∧
        ρ.countSince (fun op a => op.concerns .data && op.hits a) 4 12 = 2 ∧
        (ρ.state 12).instruction.counters.flushes = 1 ∧
        ((ρ.state 12).bank .data).cache.isFull = true := by
  intro r q ops op
  have aligned : ∀ k side v l, op k = .refill side v l → l.isAligned = true := by
    intro k side v l h
    match k with
    | 0 | 1 | 2 | 3 | 4 | 5 | 6 | 7 | 8 | 9 | 10 | 11 => cases h <;> decide
    | k + 12 => cases h
  obtain ⟨⟨ρ⟩, h⟩ := counters_tally_since_a_reset 1 1 (by decide) (by decide) op aligned
  have hlast : Tlb.lastReset op 12 = 4 := by decide
  obtain ⟨hsides, hflushes, -⟩ := h ρ 12
  obtain ⟨-, hhits, -, hresident, hfull⟩ := hsides .data
  have hrun : ((Tlb.new 1 1).bind fun t =>
      Effect.run Tlb.step t ((List.range 12).map op)).toOption.map
        (fun e => ((e.state.bank .data).counters, (e.state.bank .data).cache.size)) =
      some (⟨3, 2, 1, 3, 1, 2, 1⟩, 1) := by
    decide +kernel
  obtain ⟨events, hr⟩ := Effect.run_range ρ.next 12
  simp only [ρ.start, Except.bind, hr, Except.toOption, Option.map_some, Option.some.injEq,
    Prod.mk.injEq] at hrun
  obtain ⟨hcounters, hsize⟩ := hrun
  rw [hlast] at hhits hresident
  refine ⟨aligned, ρ, hlast, ?_, hcounters, ?_, ?_, hfull ?_⟩
  · rw [hcounters, hsize] at hresident
    simpa using hresident.symm
  · rw [← hhits, hcounters]
  · rw [hflushes]
    exact congrArg Counters.flushes hcounters
  · rw [hcounters]
    decide

end Sv32
