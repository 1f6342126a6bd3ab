import Sv32.Config
import Sv32.Proofs.Calls

/-! # Requests never go wrong

A unit that is built from a valid configuration meets no violation, whatever the tables hold and whatever
the memory answers: walks give out aligned pages only, and a cache that is full is not empty. -/
namespace Sv32

structure Entry.Aligned (e : Entry) : Prop where
  physical : e.leaf.isAligned = true
  virtual : e.vpn &&& e.leaf.level.offsetMask = 0

namespace Fifo

/-- The capacity is what it should be, and every entry is aligned, flushed or not. -/
structure Safe (f : Fifo) (capacity : Nat) : Prop where
  capacity : f.capacity = capacity
  aligned : ∀ e ∈ f.entries, e.Aligned

variable {f : Fifo} {capacity : Nat}

theorem Safe.refill (h : f.Safe capacity) (v : VirtAddr) {l : Leaf} (hl : l.isAligned = true) :
    (f.refill v l).2.Safe capacity := by
  refine ⟨(f.capacity_refill v l).trans h.capacity, ?_⟩
  intro e he
  rcases mem_refill he with rfl | ⟨he, -⟩
  · exact ⟨hl, v.pageNumber_and_offsetMask l.level⟩
  · exact h.aligned e he

theorem Safe.flush (h : f.Safe capacity) : f.flush.Safe capacity := by
  refine ⟨h.capacity, ?_⟩
  intro e he
  obtain ⟨old, hold, rfl⟩ := List.mem_map.mp he
  have aligned := h.aligned old hold
  exact ⟨aligned.physical, aligned.virtual⟩

theorem initial_safe (capacity : Nat) : (initial capacity).Safe capacity :=
  ⟨rfl, nofun⟩

end Fifo

namespace Cache

variable {c : Cache}

theorem evict_of_full (h : c.isFull = true) : ∃ victim rest, c.evict = .ok (victim, rest) ∧
    ∀ e, c.append e = (.evicted victim, (rest.append e).2) := by
  have full : ¬ c.ring.size < c.ring.capacity := Nat.not_lt.mpr (Nat.le_of_eq (beq_iff_eq.mp h).symm)
  have hpos := c.ring.size_pos_of_full full
  refine ⟨(c.ring.pop hpos).1, ⟨(c.ring.pop hpos).2⟩, ?_, ?_⟩
  · simp only [evict, hpos, ↓reduceDIte]
  · intro e
    have room : (c.ring.pop hpos).2.size < (c.ring.pop hpos).2.capacity :=
      Nat.lt_of_lt_of_le (Nat.sub_one_lt (Nat.ne_of_gt hpos)) c.ring.size_le
    simp only [append, full, room, ↓reduceDIte]
    rfl

theorem slot_lt (c : Cache) {i : Nat} (hi : i ≤ c.size) :
    c.ring.slot i < c.ring.slots.size ∧ c.ring.head + i < 2 * c.capacity := by
  have hsize := c.ring.size_le
  have hhead := c.ring.head_lt
  change i ≤ c.ring.size at hi
  refine ⟨c.ring.slot_lt (Nat.le_trans hi hsize), ?_⟩
  simp only [Cache.capacity, Ring.capacity]
  omega

end Cache

def Config.capacity (c : Config) : Side → Nat
  | .instruction => c.instructionCapacity
  | .data => c.dataCapacity

namespace Mmu

/-- Both sides are safe at these capacities. -/
def Safe (capacity : Side → Nat) (m : Mmu) : Prop :=
  ∀ side, (m.tlb.bank side).cache.fifo.Safe (capacity side)

variable {μ : Type} [WordMemory μ] {m m' : Mmu} {q : Request} {mem : μ} {c : Call μ} {a : Answer}
  {capacity : Side → Nat}

theorem Translates.fifo {e : Effect (Mmu × μ) (Except Trap PhysAddr)} (h : m.Translates q mem e)
    (side : Side) :
    (e.state.1.tlb.bank side).cache.fifo = (m.tlb.bank side).cache.fifo ∨
      ∃ l : Leaf, l.isAligned = true ∧
        (e.state.1.tlb.bank side).cache.fifo = ((m.tlb.bank side).cache.fifo.refill q.vaddr l).2 := by
  cases h with
  | bypassed => exact Or.inl rfl
  | hit | failed => exact Or.inl (congrArg Cache.fifo (m.tlb.cache_lookup _ _ _))
  | @walked l _ e _ _ found refilled =>
    have aligned := walk_isAligned found
    have hfifo := Tlb.fifo_of_refill aligned refilled side
    rw [Tlb.cache_lookup] at hfifo
    split at hfifo
    · exact Or.inr ⟨l, aligned, hfifo⟩
    · exact Or.inl hfifo

theorem Called.safe (h : m.Called c a m') (hm : m.Safe capacity) : m'.Safe capacity := by
  intro side
  cases h with
  | translated _ h =>
    rcases h.fifo side with hsame | ⟨l, hl, hrefill⟩
    · rw [hsame]
      exact hm side
    · rw [hrefill]
      exact (hm side).refill _ hl
  | flushed =>
    rw [Tlb.cache_flush, Cache.flush_fifo]
    exact (hm side).flush
  | kept => exact hm side

end Mmu

theorem Config.build_eq_ok {c : Config} (h : c.validate = .ok ()) :
    ∃ s, c.build = .ok s ∧ s.mmu.Safe c.capacity := by
  unfold validate at h
  split at h
  · cases h
  rename_i hi
  split at h
  · cases h
  rename_i hd
  obtain ⟨i, d, hfi, hfd, hnew⟩ := Tlb.new_eq_ok (Nat.pos_of_ne_zero hi) (Nat.pos_of_ne_zero hd)
  refine ⟨⟨⟨⟨⟨i, {}⟩, ⟨d, {}⟩⟩, Inhabited.default, 0, 0⟩, .new ⟨c.ramBase⟩ c.ramSize⟩, ?_, ?_⟩
  · simp only [build, Machine.new, Mmu.new, hnew, bind, Except.bind, pure, Except.pure]
  · rintro (_ | _)
    · exact hfi ▸ Fifo.initial_safe c.instructionCapacity
    · exact hfd ▸ Fifo.initial_safe c.dataCapacity

/-- From any valid configuration, under any calls that leave the buffer to the unit, with memories that
answer whatever they like: every call is answered, all pages that are given out or resident are aligned, and
no slot, shift or product leaves its range. -/
theorem calls_are_safe {μ : Type} [WordMemory μ] (c : Config) (hc : c.validate = .ok ())
    (calls : Nat → Call μ) (own : ∀ k, (calls k).op.meddles = false) :
    ∃ s, c.build = .ok s ∧ Nonempty (s.mmu.Calls calls) ∧
      (∀ (ρ : s.mmu.Calls calls) (n : Nat),
        (∀ q l mem, walk (ρ.state n).registers q (calls n).memory = (.ok l, mem) →
          l.isAligned = true ∧ Entry.new q.vaddr l = .ok (.ofLeaf q.vaddr l)) ∧
        ∀ side, let cache := ((ρ.state n).tlb.bank side).cache
          cache.capacity = c.capacity side ∧
          (∀ e ∈ cache.entries, e.leaf.isAligned = true ∧ e.vpn &&& e.leaf.level.offsetMask = 0) ∧
          (cache.isFull = true → ∃ victim rest, cache.evict = .ok (victim, rest) ∧
            ∀ e, cache.append e = (.evicted victim, (rest.append e).2)) ∧
          ∀ i ≤ cache.size, cache.ring.slot i < cache.ring.slots.size ∧
            cache.ring.head + i < 2 * c.capacity side) ∧
      ∀ (v : VirtAddr) (level : PageLevel),
        level.offsetBits + 10 ≤ 32 ∧ 4 * (v.tableIndex level).toNat < 2 ^ 12 := by
  obtain ⟨s, hs, hsafe⟩ := c.build_eq_ok hc
  refine ⟨s, hs, Mmu.Calls.nonempty own s.mmu, ?_, ?_⟩
  · intro ρ n
    have h : (ρ.state n).Safe c.capacity :=
      Mmu.Calls.invariant own hsafe (fun hm hcalled => hcalled.safe hm) ρ n
    refine ⟨?_, ?_⟩
    · intro q l mem hwalk
      have aligned := walk_isAligned hwalk
      exact ⟨aligned, by rw [Entry.new, if_pos aligned]⟩
    · intro side cache
      have hcap : cache.capacity = c.capacity side := (h side).capacity
      refine ⟨hcap, ?_, cache.evict_of_full, ?_⟩
      · intro e he
        have aligned := (h side).aligned e he
        exact ⟨aligned.physical, aligned.virtual⟩
      · intro i hi
        rw [← hcap]
        exact cache.slot_lt hi
  · intro v level
    have hindex := (v.tableIndex level).isLt
    refine ⟨?_, by omega⟩
    cases level <;> decide

/-- Memory that answers each read with the next of some words, wherever it is read, and takes every write. -/
structure Script where
  words : List Word

instance : WordMemory Script where
  readWord a s :=
    match s.words with
    | [] => (.error (.unmapped a), s)
    | w :: words => (.ok w, ⟨words⟩)
  writeWord _ _ s := (.ok (), s)

theorem calls_are_safe_on_tables_that_lie :
    let c : Config := ⟨0, 0x4000, 1, 2⟩
    let q : Request := ⟨⟨0x00401abc⟩, .write, .supervisor⟩
    let calls : Nat → Call Script := fun k => [
      ⟨.writeSatp 0x80000001, ⟨[]⟩⟩, ⟨.translate q, ⟨[0x801, 0x1407]⟩⟩, ⟨.fence .all, ⟨[]⟩⟩,
      ⟨.translate q, ⟨[0x00100407]⟩⟩, ⟨.translate q, ⟨[0x00100007]⟩⟩, ⟨.fence .all, ⟨[]⟩⟩].getD k
        ⟨.translate q, ⟨[]⟩⟩
    c.validate = .ok () ∧ (∀ k, (calls k).op.meddles = false) ∧
      ∃ (s : Machine) (ρ : s.mmu.Calls calls), c.build = .ok s ∧ (ρ.state 7).faults = 2 ∧
        let cache := (ρ.state 7).tlb.data.cache
        (cache.entries.map fun e => (e.vpn, e.leaf.ppn)) =
          [(0x00401000, ⟨0x5000⟩), (0x00400000, ⟨0x00400000⟩)] ∧
        (∀ e ∈ cache.entries, e.leaf.isAligned = true) ∧
        ∃ victim rest, cache.evict = .ok (victim, rest) := by
  intro c q calls
  have hc : c.validate = .ok () := rfl
  have own : ∀ k, (calls k).op.meddles = false := by
    intro k
    match k with
    | 0 | 1 | 2 | 3 | 4 | 5 | k + 6 => rfl
  obtain ⟨s, hs, ⟨ρ⟩, h, -⟩ := calls_are_safe c hc calls own
  obtain ⟨-, haligned, hevict, -⟩ := (h ρ 7).2 .data
  have hrun : (c.build.bind fun s =>
      (Effect.run Mmu.call s.mmu ((List.range 7).map calls)).map fun e =>
        (e.state.faults, e.state.tlb.data.cache.isFull,
          e.state.tlb.data.cache.entries.map fun e => (e.vpn, e.leaf.ppn))).toOption =
      some (2, true, [(0x00401000, ⟨0x5000⟩), (0x00400000, ⟨0x00400000⟩)]) := by
    decide +kernel
  obtain ⟨events, hr⟩ := Effect.run_range ρ.next 7
  rw [ρ.start] at hr
  simp only [hs, Except.bind, hr, Except.map, Except.toOption, Option.some.injEq,
    Prod.mk.injEq] at hrun
  obtain ⟨hfaults, hfull, hentries⟩ := hrun
  obtain ⟨victim, rest, hv, -⟩ := hevict hfull
  exact ⟨hc, own, s, ρ, hs, hfaults, hentries, fun e he => (haligned e he).1, victim, rest, hv⟩

end Sv32
