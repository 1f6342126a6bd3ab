import Sv32.Mmu
import Sv32.Proofs.Fifo
import Sv32.Proofs.LeafRule

/-! # What a request can come to

A request is left alone, is served by an entry, walks the tables and has its leaf cached, or fails. What
each of these leaves of the unit, its counters and the memory is said here once, for any memory. -/
namespace Sv32

theorem Bank.refill_eq_ok {b b' : Bank} {v : VirtAddr} {l : Leaf} {r : Refill}
    (h : b.refill v l = .ok (r, b')) :
    b.cache.refill v l = .ok (r, b'.cache) ∧ b'.counters = b.counters.countRefill r := by
  obtain ⟨⟨r, c⟩, hc, he⟩ := bind_eq_ok.mp h
  cases he
  exact ⟨hc, rfl⟩

theorem Bank.resident_of_refill {b b' : Bank} {v : VirtAddr} {l : Leaf} {r : Refill}
    (h : b.refill v l = .ok (r, b')) :
    b'.cache.size + b'.counters.replacements + b'.counters.evictions + b.counters.refills =
      b.cache.size + b.counters.replacements + b.counters.evictions + b'.counters.refills := by
  obtain ⟨hcache, hcounters⟩ := refill_eq_ok h
  have hsize := Cache.size_refill hcache
  rw [hcounters]
  cases r <;> simp only [Counters.countRefill, reduceCtorEq, ↓reduceIte] at hsize ⊢ <;> omega

namespace Tlb

variable (t : Tlb)

theorem cache_setBank (side other : Side) (b : Bank) :
    ((t.setBank side b).bank other).cache =
      if other = side then b.cache else (t.bank other).cache := by
  rw [bank_setBank_eq_ite]
  exact apply_ite Bank.cache ..

theorem cache_lookup (side other : Side) (q : Request) :
    ((t.lookup side q).2.bank other).cache = (t.bank other).cache := by
  simp only [lookup, cache_setBank]
  split
  · rename_i h
    rw [h]
    rfl
  · rfl

theorem counters_lookup (side other : Side) (q : Request) :
    ((t.lookup side q).2.bank other).counters =
      if other = side then (t.bank other).counters.countLookup (t.peek side q).isSome
      else (t.bank other).counters := by
  simp only [lookup, bank_setBank_eq_ite]
  split
  · rename_i h
    rw [h]
    rfl
  · rfl

theorem peek_eq_none_iff (side : Side) (q : Request) :
    t.peek side q = none ↔ ∀ e ∈ (t.bank side).cache.entries, e.serves q = false := by
  simp [peek, Cache.lookup]

theorem new_eq_ok {instruction data : Nat} (hi : 0 < instruction) (hd : 0 < data) :
    ∃ i d : Cache, i.fifo = .initial instruction ∧ d.fifo = .initial data ∧
      Tlb.new instruction data = .ok ⟨⟨i, {}⟩, ⟨d, {}⟩⟩ := by
  obtain ⟨i, hni, hfi⟩ := Cache.new_fifo hi
  obtain ⟨d, hnd, hfd⟩ := Cache.new_fifo hd
  refine ⟨i, d, hfi, hfd, ?_⟩
  simp only [Tlb.new, hni, hnd, bind, Except.bind, pure, Except.pure]

theorem new_fifo {instruction data : Nat} (hi : 0 < instruction) (hd : 0 < data) :
    ∃ t, Tlb.new instruction data = .ok t ∧
      ∀ side, ∃ capacity, (t.bank side).cache.fifo = .initial capacity := by
  obtain ⟨i, d, hfi, hfd, hnew⟩ := new_eq_ok hi hd
  refine ⟨_, hnew, ?_⟩
  intro side
  cases side with
  | instruction => exact ⟨instruction, hfi⟩
  | data => exact ⟨data, hfd⟩

theorem cache_flush (f : Fence) (side : Side) :
    ((t.flush f).state.bank side).cache = (t.bank side).cache.flush.2 := by
  cases side <;> rfl

theorem counters_flush (f : Fence) (side : Side) :
    ((t.flush f).state.bank side).counters = (t.bank side).counters.countFlush := by
  cases side <;> rfl

theorem events_flush (f : Fence) :
    (t.flush f).events =
      [.cacheFlushed f t.instruction.cache.validSize, .cacheFlushed f t.data.cache.validSize,
        .flushed f t.instruction.cache.validSize t.data.cache.validSize] := rfl

theorem refill_of_isAligned (side : Side) (v : VirtAddr) {l : Leaf} (h : l.isAligned = true) :
    ∃ e, t.refill side v l = .ok e ∧ e.answer = ((t.bank side).cache.fifo.refill v l).1 ∧
      ∀ other, (e.state.bank other).cache.fifo =
        if other = side then ((t.bank other).cache.fifo.refill v l).2
        else (t.bank other).cache.fifo := by
  obtain ⟨c, hc, hf⟩ := (t.bank side).cache.refill_fifo (v := v) (Or.inl h)
  generalize ((t.bank side).cache.fifo.refill v l).1 = r at hc
  refine ⟨⟨r, t.setBank side ⟨c, (t.bank side).counters.countRefill r⟩, [refillEvent side v l r]⟩,
    ?_, rfl, ?_⟩
  · simp only [refill, Bank.refill, hc, bind, Except.bind, pure, Except.pure]
  · intro other
    simp only [cache_setBank]
    split
    · rename_i ho
      rw [ho, hf]
    · rfl

theorem fifo_of_refill {t : Tlb} {side : Side} {v : VirtAddr} {l : Leaf} {e : Effect Tlb Refill}
    (aligned : l.isAligned = true) (h : t.refill side v l = .ok e) (other : Side) :
    (e.state.bank other).cache.fifo =
      if other = side then ((t.bank other).cache.fifo.refill v l).2
      else (t.bank other).cache.fifo := by
  obtain ⟨e', he, -, hfifo⟩ := t.refill_of_isAligned side v aligned
  obtain rfl := Except.ok.inj (he.symm.trans h)
  exact hfifo other

theorem refill_eq_ok {t : Tlb} {side : Side} {v : VirtAddr} {l : Leaf} {e : Effect Tlb Refill}
    (h : t.refill side v l = .ok e) :
    ∃ b, (t.bank side).refill v l = .ok (e.answer, b) ∧ e.state = t.setBank side b := by
  obtain ⟨⟨r, b⟩, hb, he⟩ := bind_eq_ok.mp h
  cases he
  exact ⟨b, hb, rfl⟩

theorem events_refill {t : Tlb} {side : Side} {v : VirtAddr} {l : Leaf} {e : Effect Tlb Refill}
    (h : t.refill side v l = .ok e) : e.events = [refillEvent side v l e.answer] := by
  obtain ⟨⟨r, b⟩, -, he⟩ := bind_eq_ok.mp h
  cases he
  rfl

theorem counters_refill {t : Tlb} {side : Side} {v : VirtAddr} {l : Leaf} {e : Effect Tlb Refill}
    (h : t.refill side v l = .ok e) (other : Side) :
    (e.state.bank other).counters =
      if other = side then (t.bank other).counters.countRefill e.answer
      else (t.bank other).counters := by
  obtain ⟨b, hb, hs⟩ := refill_eq_ok h
  rw [hs, bank_setBank_eq_ite]
  split
  · rename_i ho
    rw [ho]
    exact (Bank.refill_eq_ok hb).2
  · rfl

theorem step_eq_ok {op : Op} (aligned : ∀ side v l, op = .refill side v l → l.isAligned = true) :
    ∃ e, t.step op = .ok e := by
  cases op with
  | refill side v l =>
    obtain ⟨e, he, -⟩ := t.refill_of_isAligned side v (aligned side v l rfl)
    exact ⟨⟨.done, e.state, e.events⟩, by simp only [step, he, bind, Except.bind, pure, Except.pure]⟩
  | _ => exact ⟨_, rfl⟩

end Tlb

theorem Registers.bypasses_eq_false_iff (r : Registers) (p : Privilege) :
    r.bypasses p = false ↔ r.satp.mode = .sv32 ∧ p ≠ .machine := by
  cases hm : r.satp.mode <;> simp [bypasses, hm]

namespace Mmu

variable {μ : Type} [WordMemory μ]

/-- All that a request can come to, with all that it leaves. -/
inductive Translates (m : Mmu) (q : Request) (mem : μ) :
    Effect (Mmu × μ) (Except Trap PhysAddr) → Prop where
  | bypassed (h : m.registers.bypasses q.privilege = true) :
      Translates m q mem ⟨.ok ⟨q.vaddr.val⟩, (m, mem), []⟩
  | hit {x : PhysAddr} (h : m.registers.bypasses q.privilege = false)
      (found : m.tlb.peek q.access.side q = some x) :
      Translates m q mem ⟨.ok x, ({ m with tlb := (m.tlb.lookup q.access.side q).2 }, mem), []⟩
  | walked {l : Leaf} {mem' : μ} {e : Effect Tlb Refill}
      (h : m.registers.bypasses q.privilege = false) (missed : m.tlb.peek q.access.side q = none)
      (found : walk m.registers q mem = (.ok l, mem'))
      (refilled : (m.tlb.lookup q.access.side q).2.refill q.access.side q.vaddr l = .ok e) :
      Translates m q mem
        ⟨.ok (l.translate q.vaddr), ({ m with tlb := e.state, walks := m.walks + 1 }, mem'), e.events⟩
  | failed {f : Fault} {mem' : μ} (h : m.registers.bypasses q.privilege = false)
      (missed : m.tlb.peek q.access.side q = none)
      (fault : walk m.registers q mem = (.error f, mem')) :
      Translates m q mem
        ⟨.error (f.trap q),
          ({ m with
              tlb := (m.tlb.lookup q.access.side q).2
              walks := m.walks + 1
              faults := m.faults + 1 }, mem'),
          [.walkFailed q f, .trapRaised q.access.side (f.trap q)]⟩

theorem Translates.eq {m : Mmu} {q : Request} {mem : μ} {e : Effect (Mmu × μ) (Except Trap PhysAddr)}
    (h : m.Translates q mem e) : m.translate q mem = .ok e := by
  have hlook : m.tlb.lookup q.access.side q =
      (m.tlb.peek q.access.side q, (m.tlb.lookup q.access.side q).2) := rfl
  cases h with
  | bypassed h => simp only [translate, h, ↓reduceIte]
  | hit h found =>
    rw [found] at hlook
    rw [translate, h, hlook]
    rfl
  | walked h missed found refilled =>
    rw [missed] at hlook
    rw [translate, h, hlook]
    simp only [walkAndRefill, found, refilled, bind, Except.bind, pure, Except.pure,
      Bool.false_eq_true, ↓reduceIte]
  | failed h missed fault =>
    rw [missed] at hlook
    rw [translate, h, hlook]
    simp only [walkAndRefill, fault, Bool.false_eq_true, ↓reduceIte]

theorem translate_eq_ok (m : Mmu) (q : Request) (mem : μ) :
    ∃ e, m.translate q mem = .ok e ∧ m.Translates q mem e := by
  have outcome : ∃ e, m.Translates q mem e := by
    cases hb : m.registers.bypasses q.privilege with
    | true => exact ⟨_, .bypassed hb⟩
    | false =>
      cases hpeek : m.tlb.peek q.access.side q with
      | some x => exact ⟨_, .hit hb hpeek⟩
      | none =>
        cases hwalk : walk m.registers q mem with
        | mk result mem' =>
          cases result with
          | ok l =>
            obtain ⟨e, hrefill, -⟩ := (m.tlb.lookup q.access.side q).2.refill_of_isAligned
              q.access.side q.vaddr (walk_isAligned hwalk)
            exact ⟨_, .walked hb hpeek hwalk hrefill⟩
          | error f => exact ⟨_, .failed hb hpeek hwalk⟩
  obtain ⟨e, h⟩ := outcome
  exact ⟨e, h.eq, h⟩

end Mmu

section

variable {μ : Type} [WordMemory μ] (reads : ∀ (a : PhysAddr) (mem : μ), (readWord a mem).2 = mem)
  (refusals : ∀ (a : PhysAddr) (w : Word) (mem : μ) (e : BusError),
    (writeWord a w mem).1 = .error e → (writeWord a w mem).2 = mem)

include reads in
theorem load_state (a : PhysAddr) (mem : μ) : (Walk.load a mem).2 = mem := by
  have h := reads a mem
  unfold Walk.load
  split
  · rename_i hr
    rw [hr] at h
    exact h
  · rename_i hr
    rw [hr] at h
    dsimp only
    split
    · exact h
    · split <;> exact h

include refusals in
theorem store_failed {a : PhysAddr} {p new : Pte} {f : Fault} {mem mem' : μ}
    (h : Walk.store a p new mem = (.error f, mem')) : mem' = mem := by
  unfold Walk.store at h
  split at h
  · cases h
  · split at h
    · rename_i e mem'' hw
      have hrefused := refusals a new.raw mem e (congrArg Prod.fst hw)
      rw [hw] at hrefused
      cases h
      exact hrefused
    · cases h

include refusals in
theorem finish_failed {s : Status} {q : Request} {level : PageLevel} {a : PhysAddr} {p : Pte} {f : Fault}
    {mem mem' : μ} (h : Walk.finish s q level a p mem = (.error f, mem')) : mem' = mem := by
  unfold Walk.finish at h
  split at h
  · cases h
    rfl
  · split at h
    · cases h
      rfl
    · dsimp only at h
      split at h
      · rename_i hs
        cases h
        exact store_failed refusals hs
      · cases h

include reads refusals in
theorem walk_failed_state {r : Registers} {q : Request} {f : Fault} {mem mem' : μ}
    (h : walk r q mem = (.error f, mem')) : mem' = mem := by
  -- both tables are read before anything is written
  have loaded : ∀ {a mem₁ x}, Walk.load a mem = (x, mem₁) → mem₁ = mem := by
    intro a mem₁ x hl
    have hm := load_state reads a mem
    rw [hl] at hm
    exact hm
  unfold walk at h
  dsimp only at h
  split at h
  · rename_i hroot
    cases h
    exact loaded hroot
  · rename_i hroot
    obtain rfl := loaded hroot
    split at h
    · split at h
      · rename_i htable
        cases h
        exact loaded htable
      · rename_i htable
        obtain rfl := loaded htable
        split at h
        · cases h
          rfl
        · exact finish_failed refusals h
    · exact finish_failed refusals h

include reads refusals in
theorem Mmu.Translates.state_of_error {m : Mmu} {q : Request} {mem : μ}
    {e : Effect (Mmu × μ) (Except Trap PhysAddr)} (h : m.Translates q mem e) {t : Trap}
    (ht : e.answer = .error t) : e.state.2 = mem := by
  cases h with
  | bypassed | hit | walked => cases ht
  | failed _ _ fault => exact walk_failed_state reads refusals fault

end

/-- What a unit has counted when a request has missed on this side and failed. All else is as it was. -/
structure Mmu.FailureCounted (m : Mmu) (side : Side) (m' : Mmu) : Prop where
  registers : m'.registers = m.registers
  caches : ∀ other, (m'.tlb.bank other).cache = (m.tlb.bank other).cache
  missed : (m'.tlb.bank side).counters =
    { (m.tlb.bank side).counters with
      lookups := (m.tlb.bank side).counters.lookups + 1
      misses := (m.tlb.bank side).counters.misses + 1 }
  elsewhere : ∀ other, other ≠ side → (m'.tlb.bank other).counters = (m.tlb.bank other).counters
  walks : m'.walks = m.walks + 1
  faults : m'.faults = m.faults + 1

namespace Mmu

variable {μ : Type} [WordMemory μ] {m : Mmu} {q : Request} {mem : μ}
  {e : Effect (Mmu × μ) (Except Trap PhysAddr)}

/-- The buffer never makes a request fail. -/
theorem Translates.error_iff (h : m.Translates q mem e) (t : Trap) :
    e.answer = .error t ↔
      m.registers.bypasses q.privilege = false ∧ m.tlb.peek q.access.side q = none ∧
        ∃ f, (walk m.registers q mem).1 = .error f ∧ f.trap q = t := by
  cases h with
  | bypassed h => simp [h]
  | hit h found => simp [found]
  | walked h missed found refilled => simp [found]
  | failed h missed fault => simp [h, missed, fault]

theorem Translates.counted (h : m.Translates q mem e) {t : Trap} (ht : e.answer = .error t) :
    m.FailureCounted q.access.side e.state.1 := by
  cases h with
  | bypassed | hit | walked => cases ht
  | failed h missed fault =>
    have counters := fun other => m.tlb.counters_lookup q.access.side other q
    simp only [missed] at counters
    refine ⟨rfl, fun other => m.tlb.cache_lookup q.access.side other q, ?_, ?_, rfl, rfl⟩
    · rw [counters, if_pos rfl]
      rfl
    · intro other hne
      rw [counters, if_neg hne]

end Mmu

/-- A request fails exactly where it is mapped, no entry of its side serves it and the walk fails, and its
trap is that of the walk. It leaves one lookup that missed, one walk and one fault; registers, memory and
both caches are as they were. -/
theorem failed_requests_only_count {μ : Type} [WordMemory μ]
    (reads : ∀ (a : PhysAddr) (mem : μ), (readWord a mem).2 = mem)
    (refusals : ∀ (a : PhysAddr) (w : Word) (mem : μ) (e : BusError),
      (writeWord a w mem).1 = .error e → (writeWord a w mem).2 = mem)
    (m : Mmu) (q : Request) (mem : μ) :
    ∃ e, m.translate q mem = .ok e ∧
      (∀ t, e.answer = .error t ↔
        m.registers.satp.mode = .sv32 ∧ q.privilege ≠ .machine ∧
          (∀ entry ∈ (m.tlb.bank q.access.side).cache.entries, entry.serves q = false) ∧
          ∃ f, (walk m.registers q mem).1 = .error f ∧ f.trap q = t) ∧
      ∀ t, e.answer = .error t → e.state.2 = mem ∧ m.FailureCounted q.access.side e.state.1 := by
  obtain ⟨e, he, h⟩ := m.translate_eq_ok q mem
  refine ⟨e, he, ?_, ?_⟩
  · intro t
    rw [h.error_iff, Registers.bypasses_eq_false_iff, Tlb.peek_eq_none_iff, and_assoc]
  · intro t ht
    exact ⟨h.state_of_error reads refusals ht, h.counted ht⟩

/-- Flat memory that refuses every write. -/
structure Rom where
  ram : Ram

instance : WordMemory Rom where
  readWord a rom := (rom.ram.readWord a, rom)
  writeWord a _ rom := (.error (.unmapped a), rom)

theorem failed_requests_only_count_where_marks_are_refused :
    let rom : Rom := ⟨((Ram.new ⟨0⟩ 0x4000).setBytes 0x1004 (Word.littleEndian 0x801)).setBytes 0x2004
      (Word.littleEndian 0x1407)⟩
    let q : Request := ⟨⟨0x00401abc⟩, .write, .supervisor⟩
    ∃ tlb e, Tlb.new 1 1 = .ok tlb ∧
      Mmu.translate ⟨tlb, ⟨⟨0x80000001⟩, ⟨false, false⟩⟩, 0, 0⟩ q rom = .ok e ∧
      e.answer = .error ⟨.access, .write, q.vaddr⟩ ∧ e.state.2 = rom ∧
      Mmu.FailureCounted ⟨tlb, ⟨⟨0x80000001⟩, ⟨false, false⟩⟩, 0, 0⟩ .data e.state.1 := by
  intro rom q
  obtain ⟨tlb, htlb, hempty⟩ := Tlb.new_fifo (show 0 < 1 by decide) (show 0 < 1 by decide)
  obtain ⟨e, he, hfails, hstate⟩ := failed_requests_only_count (μ := Rom) (fun _ _ => rfl)
    (fun _ _ _ _ _ => rfl) ⟨tlb, ⟨⟨0x80000001⟩, ⟨false, false⟩⟩, 0, 0⟩ q rom
  have hentries : (tlb.bank q.access.side).cache.entries = [] := by
    obtain ⟨capacity, h⟩ := hempty q.access.side
    exact congrArg Fifo.entries h
  have hwalk : ∃ f, (walk ⟨⟨0x80000001⟩, ⟨false, false⟩⟩ q rom).1 = .error f ∧
      f.trap q = ⟨.access, .write, q.vaddr⟩ := by
    have hf : (match (walk ⟨⟨0x80000001⟩, ⟨false, false⟩⟩ q rom).1 with
        | .ok _ => none
        | .error f => some (f.trap q)) = some ⟨.access, .write, q.vaddr⟩ := by
      decide
    split at hf
    · cases hf
    · exact ⟨_, ‹_›, Option.some.inj hf⟩
  have ha : e.answer = .error ⟨.access, .write, q.vaddr⟩ := by
    have hmode : (Satp.mk 0x80000001).mode = .sv32 := by decide
    refine (hfails _).mpr ⟨hmode, nofun, ?_, hwalk⟩
    rw [hentries]
    exact nofun
  obtain ⟨hmem, hcounted⟩ := hstate _ ha
  exact ⟨tlb, e, htlb, he, ha, hmem, hcounted⟩

end Sv32
