import Sv32.Memory.Ram
import Sv32.Proofs.Calls

/-! # The counters balance

A lookup, a refill and a flush are counted on their side, walks and faults for both. The counters still
agree at any time, and with the entries that are there. -/
namespace Sv32

namespace Bank

/-- What the counters of a side say of each other, and of its size. -/
structure Balanced (b : Bank) : Prop where
  lookups : b.counters.lookups = b.counters.hits + b.counters.misses
  resident : b.cache.size + b.counters.replacements + b.counters.evictions = b.counters.refills

variable {b b' : Bank} {q : Request} {v : VirtAddr} {l : Leaf} {r : Refill}

theorem Balanced.lookup (h : b.Balanced) (q : Request) : (b.lookup q).2.Balanced := by
  constructor <;> simp only [Bank.lookup, Counters.lookups_countLookup, Counters.hits_countLookup,
    Counters.misses_countLookup, Counters.refills_countLookup, Counters.replacements_countLookup,
    Counters.evictions_countLookup]
  · have hl := h.lookups
    split <;> omega
  · exact h.resident

theorem Balanced.refill (h : b.Balanced) (hr : b.refill v l = .ok (r, b')) : b'.Balanced := by
  constructor
  · rw [(refill_eq_ok hr).2, Counters.lookups_countRefill, Counters.hits_countRefill,
      Counters.misses_countRefill]
    exact h.lookups
  · have hres := h.resident
    have hrefill := resident_of_refill hr
    omega

theorem Balanced.flush (h : b.Balanced) : b.flush.2.Balanced := ⟨h.lookups, h.resident⟩

/-- What becomes of the side that a request is for, and how many walks and faults are counted. -/
inductive Serves (b : Bank) (q : Request) : Bank → Nat → Nat → Prop where
  | hit {x : PhysAddr} (found : b.cache.lookup q = some x) : Serves b q (b.lookup q).2 0 0
  | failed (missed : b.cache.lookup q = none) : Serves b q (b.lookup q).2 1 1
  | walked {l : Leaf} {r : Refill} {b' : Bank} (missed : b.cache.lookup q = none)
      (refilled : (b.lookup q).2.refill q.vaddr l = .ok (r, b')) : Serves b q b' 1 0

variable {walks faults : Nat}

theorem Serves.balanced (h : b.Serves q b' walks faults) (hb : b.Balanced) : b'.Balanced := by
  cases h with
  | hit | failed => exact hb.lookup q
  | walked _ refilled => exact (hb.lookup q).refill refilled

theorem Serves.misses (h : b.Serves q b' walks faults) :
    b'.counters.misses = b.counters.misses + walks := by
  cases h with
  | hit found => simp [Bank.lookup, found]
  | failed missed => simp [Bank.lookup, missed]
  | walked missed refilled =>
    rw [(refill_eq_ok refilled).2]
    simp [Bank.lookup, missed]

theorem Serves.refills (h : b.Serves q b' walks faults) :
    b'.counters.refills + faults = b.counters.refills + walks := by
  cases h with
  | hit | failed => simp [Bank.lookup]
  | walked _ refilled =>
    rw [(refill_eq_ok refilled).2]
    simp [Bank.lookup]

theorem Serves.flushes (h : b.Serves q b' walks faults) : b'.counters.flushes = b.counters.flushes := by
  cases h with
  | hit | failed => simp [Bank.lookup]
  | walked _ refilled =>
    rw [(refill_eq_ok refilled).2]
    simp [Bank.lookup]

end Bank

def Tlb.total (t : Tlb) (count : Counters → Nat) : Nat :=
  count t.instruction.counters + count t.data.counters

theorem Tlb.total_setBank (t : Tlb) (side : Side) (b : Bank) (count : Counters → Nat) :
    (t.setBank side b).total count + count (t.bank side).counters = t.total count + count b.counters := by
  cases side <;> simp only [total, setBank, bank] <;> omega

namespace Mmu

/-- What the counters say of each other, and of the sizes of the two sides. -/
structure Balanced (m : Mmu) : Prop where
  sides : ∀ side, (m.tlb.bank side).Balanced
  misses : m.walks = m.tlb.total (·.misses)
  refills : m.walks = m.faults + m.tlb.total (·.refills)

variable {μ : Type} [WordMemory μ] {m m' : Mmu} {q : Request} {mem : μ} {c : Call μ} {a : Answer}

theorem Translates.serves {e : Effect (Mmu × μ) (Except Trap PhysAddr)} (h : m.Translates q mem e) :
    (e.state.1 = m ∧ (Answer.translated e.answer).fails = false) ∨
      ∃ b walks faults, (m.tlb.bank q.access.side).Serves q b walks faults ∧
        e.state.1 = { m with
          tlb := m.tlb.setBank q.access.side b
          walks := m.walks + walks
          faults := m.faults + faults } ∧
        faults = if (Answer.translated e.answer).fails = true then 1 else 0 := by
  cases h with
  | bypassed h => exact Or.inl ⟨rfl, rfl⟩
  | hit _ found => exact Or.inr ⟨_, 0, 0, .hit found, rfl, rfl⟩
  | failed _ missed _ => exact Or.inr ⟨_, 1, 1, .failed missed, rfl, rfl⟩
  | walked _ missed _ refilled =>
    obtain ⟨b, hb, hs⟩ := Tlb.refill_eq_ok refilled
    -- the refill finds its side as the lookup has left it
    simp only [Tlb.lookup, Tlb.bank_setBank, Tlb.setBank_setBank] at hb hs
    refine Or.inr ⟨b, 1, 0, .walked missed hb, ?_, rfl⟩
    rw [hs]
    rfl

theorem Balanced.serves (h : m.Balanced) {b : Bank} {side : Side} {walks faults : Nat}
    (hb : (m.tlb.bank side).Serves q b walks faults) :
    Balanced { m with
      tlb := m.tlb.setBank side b
      walks := m.walks + walks
      faults := m.faults + faults } := by
  refine ⟨?_, ?_, ?_⟩
  · intro other
    rw [Tlb.bank_setBank_eq_ite]
    split
    · exact hb.balanced (h.sides side)
    · exact h.sides other
  · have total := m.tlb.total_setBank side b (·.misses)
    have old := h.misses
    have new := hb.misses
    dsimp only at total ⊢
    omega
  · have total := m.tlb.total_setBank side b (·.refills)
    have old := h.refills
    have new := hb.refills
    dsimp only at total ⊢
    omega

theorem Called.balanced (h : m.Called c a m') (hm : m.Balanced) : m'.Balanced := by
  cases h with
  | translated _ h =>
    rcases h.serves with ⟨hsame, -⟩ | ⟨b, walks, faults, hb, hs, -⟩
    · rw [hsame]
      exact hm
    · rw [hs]
      exact hm.serves hb
  | flushed =>
    refine ⟨?_, hm.misses, hm.refills⟩
    intro side
    have hb := (hm.sides side).flush
    cases side <;> exact hb
  | kept => exact ⟨hm.sides, hm.misses, hm.refills⟩

theorem Called.faults (h : m.Called c a m') :
    m'.faults = m.faults + if a.fails = true then 1 else 0 := by
  cases h with
  | translated _ h =>
    rcases h.serves with ⟨hsame, hok⟩ | ⟨b, walks, faults, -, hs, hf⟩
    · rw [hsame, hok]
      rfl
    · rw [hs, ← hf]
  | flushed _ hok | kept _ hok =>
    rw [hok]
    rfl

theorem Called.flushes (h : m.Called c a m') (side : Side) :
    (m'.tlb.bank side).counters.flushes = (m.tlb.bank side).counters.flushes +
      if c.op.flushes m.registers.satp = true then 1 else 0 := by
  cases h with
  | translated hop h =>
    rw [hop]
    rcases h.serves with ⟨hsame, -⟩ | ⟨b, walks, faults, hb, hs, -⟩
    · rw [hsame]
      rfl
    · rw [hs, Tlb.bank_setBank_eq_ite]
      split
      · rename_i hside
        rw [hside]
        exact hb.flushes
      · rfl
  | flushed hf =>
    rw [hf]
    cases side <;> rfl
  | kept hf =>
    rw [hf]
    rfl

theorem new_balanced {instruction data : Nat} (hi : 0 < instruction) (hd : 0 < data) :
    ∃ m, Mmu.new instruction data = .ok m ∧ m.Balanced ∧ m.faults = 0 ∧
      ∀ side, (m.tlb.bank side).counters.flushes = 0 := by
  obtain ⟨i, d, hfi, hfd, hnew⟩ := Tlb.new_eq_ok hi hd
  have empty : ∀ {c : Cache} {capacity}, c.fifo = .initial capacity → Bank.Balanced ⟨c, {}⟩ := by
    intro c capacity h
    refine ⟨rfl, ?_⟩
    have hsize : c.size = c.entries.length := c.ring.length_toList.symm
    exact hsize.trans (congrArg (·.entries.length) h)
  refine ⟨⟨⟨⟨i, {}⟩, ⟨d, {}⟩⟩, default, 0, 0⟩, ?_, ⟨?_, rfl, rfl⟩, rfl, ?_⟩
  · simp only [Mmu.new, hnew, bind, Except.bind, pure, Except.pure]
  · rintro (_ | _)
    · exact empty hfi
    · exact empty hfd
  · rintro (_ | _) <;> rfl

end Mmu

/-- From a new unit, under any calls that leave the buffer to it, with any memories: every lookup was a hit
or a miss, every miss a walk, every walk a fault or a refill, and what is resident is what was refilled but
for what was replaced or evicted. Both sides have counted the same flushes. -/
theorem counters_balance {μ : Type} [WordMemory μ] (instruction data : Nat) (hi : 0 < instruction)
    (hd : 0 < data) (calls : Nat → Call μ) (own : ∀ k, (calls k).op.meddles = false) :
    ∃ m, Mmu.new instruction data = .ok m ∧ Nonempty (m.Calls calls) ∧
      ∀ (ρ : m.Calls calls) (n : Nat),
        let s := (ρ.state n).stats
        s.walks = s.instruction.misses + s.data.misses ∧
        s.walks = s.faults + s.instruction.refills + s.data.refills ∧
        s.faults = Nat.count (fun k => (ρ.answer k).fails = true) n ∧
        (∀ side, let b := (ρ.state n).tlb.bank side
          b.counters.lookups = b.counters.hits + b.counters.misses ∧
          b.cache.size + b.counters.replacements + b.counters.evictions = b.counters.refills) ∧
        s.instruction.flushes = s.data.flushes ∧
        s.instruction.flushes =
          Nat.count (fun k => (calls k).op.flushes (ρ.state k).registers.satp = true) n := by
  obtain ⟨m, hm, hbalanced, hfaults, hflushes⟩ := Mmu.new_balanced hi hd
  refine ⟨m, hm, Mmu.Calls.nonempty own m, ?_⟩
  intro ρ n s
  have called := Mmu.Calls.called own ρ
  have h : (ρ.state n).Balanced :=
    Mmu.Calls.invariant own hbalanced (fun hm hcalled => hcalled.balanced hm) ρ n
  have flushes : ∀ side, ((ρ.state n).tlb.bank side).counters.flushes =
      Nat.count (fun k => (calls k).op.flushes (ρ.state k).registers.satp = true) n :=
    fun side => ρ.eq_count (fun m => (m.tlb.bank side).counters.flushes) (hflushes side)
      (fun k => (called k).flushes side) n
  refine ⟨h.misses, ?_, ρ.eq_count (·.faults) hfaults (fun k => (called k).faults) n, ?_, ?_,
    flushes .instruction⟩
  · have hrefills := h.refills
    rw [Tlb.total, ← Nat.add_assoc] at hrefills
    exact hrefills
  · intro side
    exact ⟨(h.sides side).lookups, (h.sides side).resident⟩
  · exact (flushes .instruction).trans (flushes .data).symm

theorem counters_balance_past_an_eviction :
    let ram := ((Ram.new ⟨0⟩ 0x4000).setBytes 0x1004 (Word.littleEndian 0x801)).setBytes 0x2004
      (Word.littleEndian 0x1407)
    let later := ram.setBytes 0x2008 (Word.littleEndian 0x1803)
    let calls : Nat → Call Ram := fun k => [
      ⟨.translate ⟨⟨0x00401abc⟩, .read, .supervisor⟩, ram⟩, ⟨.writeSatp 0x80000001, ram⟩,
      ⟨.translate ⟨⟨0x00401abc⟩, .read, .supervisor⟩, ram⟩,
      ⟨.translate ⟨⟨0x00401abc⟩, .read, .supervisor⟩, ram⟩,
      ⟨.translate ⟨⟨0x00401abc⟩, .write, .supervisor⟩, ram⟩, ⟨.writeSatp 0x80000001, ram⟩,
      ⟨.translate ⟨⟨0x00402abc⟩, .read, .supervisor⟩, ram⟩,
      ⟨.translate ⟨⟨0x00402abc⟩, .read, .supervisor⟩, later⟩, ⟨.fence .all, later⟩,
      ⟨.changePrivilege .user .user, later⟩, ⟨.changePrivilege .user .machine, later⟩].getD k
        ⟨.stats, later⟩
    (∀ k, (calls k).op.meddles = false) ∧
      ∃ (m : Mmu) (ρ : m.Calls calls),
        (ρ.state 11).stats = ⟨⟨0, 0, 0, 0, 0, 0, 3⟩, ⟨5, 1, 4, 3, 1, 1, 3⟩, 4, 1⟩ ∧
        Nat.count (fun k => (ρ.answer k).fails = true) 11 = 1 ∧
        Nat.count (fun k => (calls k).op.flushes (ρ.state k).registers.satp = true) 11 = 3 := by
  intro ram later calls
  have own : ∀ k, (calls k).op.meddles = false := by
    intro k
    match k with
    | 0 | 1 | 2 | 3 | 4 | 5 | 6 | 7 | 8 | 9 | 10 | k + 11 => rfl
  obtain ⟨m, hm, ⟨ρ⟩, h⟩ := counters_balance (μ := Ram) 1 1 (by decide) (by decide) calls own
  obtain ⟨-, -, hfaults, -, -, hflushes⟩ := h ρ 11
  have hrun : ((Mmu.new 1 1).bind fun m =>
      (Effect.run Mmu.call m ((List.range 11).map calls)).map fun e => e.state.stats).toOption =
      some ⟨⟨0, 0, 0, 0, 0, 0, 3⟩, ⟨5, 1, 4, 3, 1, 1, 3⟩, 4, 1⟩ := by
    decide +kernel
  obtain ⟨events, hr⟩ := Effect.run_range ρ.next 11
  rw [ρ.start] at hr
  simp only [hm, Except.bind, hr, Except.map, Except.toOption, Option.some.injEq] at hrun
  rw [hrun] at hfaults hflushes
  exact ⟨own, m, ρ, hrun, hfaults.symm, hflushes.symm⟩

end Sv32
