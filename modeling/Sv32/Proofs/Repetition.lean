import Sv32.Memory.Ram
import Sv32.Proofs.Transparency

/-! # Walks made again

A walk marks its leaf before it gives it out, so the same walk made again writes nothing. What is cached of
the leaf grants no more than the tables do by then, and a request made twice is answered the same. -/
namespace Sv32

section

variable {μ : Type} [WordMemory μ] [LawfulWordMemory μ] {r : Registers} {q : Request} {m m' : μ}
  {l : Leaf}

/-- A walk that has succeeded can be made again, and there is nothing left to write. -/
theorem walk_again (h : walk r q m = (.ok l, m')) : walk r q m' = (.ok l, m') := by
  obtain ⟨a, p, leaf, allowed, accessed, dirty, hl⟩ := walk_leaves h
  have hw := leaf.walk_eq allowed accessed dirty
  rw [← hl] at hw
  exact hw

/-- What is cached of a walk permits only requests for which a walk of their own finds the same leaf, on the
memory that the first has left, under any flags and without a write, and gives out the same address. -/
theorem cached_rights_never_exceed_walks (h : walk r q m = (.ok l, m')) :
    ∃ e, Entry.new q.vaddr l = .ok e ∧
      ∀ (q' : Request) (s : Status), q'.vaddr.pageNumber l.level = q.vaddr.pageNumber l.level →
        e.permits q'.access q'.privilege = true →
        walk { r with status := s } q' m' = (.ok l, m') ∧
          e.translate q'.vaddr = l.translate q'.vaddr ∧
          (e.translate q'.vaddr).val &&& ~~~l.level.offsetMask = l.ppn.val ∧
          (e.translate q'.vaddr).val &&& l.level.offsetMask = q'.vaddr.pageOffset l.level := by
  have aligned := walk_isAligned h
  refine ⟨.ofLeaf q.vaddr l, if_pos aligned, ?_⟩
  intro q' s page permitted
  obtain ⟨user, right⟩ := Bool.and_eq_true_iff.mp permitted
  obtain ⟨a, p, leaf, -, accessed, -, hl⟩ := walk_leaves h
  have backs : p.Backs l := hl ▸ Pte.backs_leaf accessed l.level
  obtain ⟨allowed, dirty⟩ := backs.allows right (beq_iff_eq.mp user) s
  have hw := LeafAt.walk_eq (r := { r with status := s }) (leaf.congr page) allowed accessed dirty
  rw [← hl] at hw
  exact ⟨hw, rfl, PhysAddr.splice_parts aligned q'.vaddr⟩

end

theorem cached_rights_never_exceed_walks_after_a_store :
    let m := ((Ram.new ⟨0⟩ 0x4000).setBytes 0x1004 (Word.littleEndian 0x801)).setBytes 0x2004
      (Word.littleEndian 0x1407)
    let r : Registers := ⟨⟨0x80000001⟩, ⟨false, true⟩⟩
    let q : Request := ⟨⟨0x00401abc⟩, .write, .supervisor⟩
    let q' : Request := ⟨⟨0x00401004⟩, .write, .machine⟩
    let l : Leaf := ⟨⟨0x5000⟩, ⟨true, true, false, false⟩, .base⟩
    walk r q m = (.ok l, (walk r q m).2) ∧
      ∃ e, Entry.new q.vaddr l = .ok e ∧ e.permits q'.access q'.privilege = true ∧
        walk { r with status := ⟨true, false⟩ } q' (walk r q m).2 = (.ok l, (walk r q m).2) ∧
        e.translate q'.vaddr = ⟨0x5004⟩ := by
  intro m r q q' l
  have hw : walk r q m = (.ok l, (walk r q m).2) := walk_eq_of_toOption (by decide)
  obtain ⟨e, he, h⟩ := cached_rights_never_exceed_walks hw
  obtain rfl := Except.ok.inj ((if_pos (by decide)).symm.trans he)
  obtain ⟨again, -⟩ := h q' ⟨true, false⟩ (by decide) (by decide)
  exact ⟨hw, _, he, by decide, again, by decide⟩

/-- The leaf answers the request under the flags of the status register only: it is a user page and asked
for by another mode, or it is to be read and cannot be. -/
def Leaf.NeedsFlags (l : Leaf) (q : Request) : Prop :=
  l.rights.user = true ∧ q.privilege ≠ .user ∨ q.access = .read ∧ l.rights.read = false

theorem serves_walk_iff {μ : Type} [WordMemory μ] [LawfulWordMemory μ] {r : Registers} {q : Request}
    {m m' : μ} {l : Leaf} (h : walk r q m = (.ok l, m')) :
    (⟨q.vaddr.pageNumber l.level, l, true⟩ : Entry).serves q = true ↔ ¬ l.NeedsFlags q := by
  obtain ⟨user, write, fetch⟩ := walk_grants h
  rw [Entry.serves_iff]
  constructor
  · rintro ⟨-, -, right, huser⟩ (⟨page, mode⟩ | ⟨read, unreadable⟩)
    · rw [page] at huser
      exact mode (beq_iff_eq.mp huser.symm)
    · rw [read] at right
      exact Bool.false_ne_true (unreadable.symm.trans right)
  · intro plain
    refine ⟨rfl, rfl, ?_, ?_⟩
    · cases haccess : q.access with
      | fetch => exact fetch haccess
      | write => exact write haccess
      | read =>
        apply Bool.of_not_eq_false
        intro unreadable
        exact plain (Or.inr ⟨haccess, unreadable⟩)
    · by_cases mode : q.privilege = .user
      · rw [user mode, mode]
        rfl
      · rw [beq_false_of_ne mode]
        apply Bool.of_not_eq_true
        intro page
        exact plain (Or.inl ⟨page, mode⟩)

namespace Tlb

variable {t : Tlb} {q : Request} {l : Leaf} {e : Effect Tlb Refill}

theorem peek_lookup (t : Tlb) (side other : Side) (q q' : Request) :
    (t.lookup side q).2.peek other q' = t.peek other q' := by
  simp only [peek, cache_lookup]

theorem peek_of_refill (missed : t.peek q.access.side q = none) (aligned : l.isAligned = true)
    (h : (t.lookup q.access.side q).2.refill q.access.side q.vaddr l = .ok e) :
    e.state.peek q.access.side q =
      if (⟨q.vaddr.pageNumber l.level, l, true⟩ : Entry).serves q then some (l.translate q.vaddr)
      else none := by
  have hfifo := fifo_of_refill aligned h q.access.side
  rw [if_pos rfl, cache_lookup] at hfifo
  have entries := congrArg Fifo.entries hfifo
  have unserved := (t.peek_eq_none_iff q.access.side q).mp missed
  have hfind := Fifo.find?_refill (f := (t.bank q.access.side).cache.fifo) unserved q.vaddr l
  rw [← entries] at hfind
  have hpeek := congrArg (Option.map (Entry.translate · q.vaddr)) hfind
  rw [apply_ite (Option.map _)] at hpeek
  exact hpeek

end Tlb

/-- The second of two effects has the answer of the first, and has left all that the first has left as it
was: memory, registers, and the entries of both sides in their order. -/
structure Repeats {μ : Type} (first second : Effect (Mmu × μ) (Except Trap PhysAddr)) : Prop where
  answer : second.answer = first.answer
  memory : second.state.2 = first.state.2
  registers : second.state.1.registers = first.state.1.registers
  entries : ∀ side, (second.state.1.tlb.bank side).cache.fifo = (first.state.1.tlb.bank side).cache.fifo

/-- By `m'` this has been counted on a side since `m`, and so many walks. -/
structure Mmu.Counted (m : Mmu) (side : Side) (count : Counters → Counters) (walks : Nat) (m' : Mmu) :
    Prop where
  own : (m'.tlb.bank side).counters = count (m.tlb.bank side).counters
  elsewhere : ∀ other, other ≠ side → (m'.tlb.bank other).counters = (m.tlb.bank other).counters
  walks : m'.walks = m.walks + walks
  faults : m'.faults = m.faults

namespace Repeats

variable {μ : Type} [WordMemory μ] (first : Effect (Mmu × μ) (Except Trap PhysAddr)) {q : Request}

theorem of_hit {x : PhysAddr} (h : first.state.1.registers.bypasses q.privilege = false)
    (found : first.state.1.tlb.peek q.access.side q = some x) (answer : first.answer = .ok x) :
    ∃ second, first.state.1.translate q first.state.2 = .ok second ∧ Repeats first second ∧
      first.state.1.Counted q.access.side
        (fun c => { c with lookups := c.lookups + 1, hits := c.hits + 1 }) 0 second.state.1 := by
  have counters := fun other => first.state.1.tlb.counters_lookup q.access.side other q
  simp only [found] at counters
  refine ⟨_, (Mmu.Translates.hit h found).eq, ⟨answer.symm, rfl, rfl, ?_⟩, ⟨?_, ?_, rfl, rfl⟩⟩
  · intro side
    exact congrArg Cache.fifo (first.state.1.tlb.cache_lookup q.access.side side q)
  · rw [counters, if_pos rfl]
    rfl
  · intro other hne
    rw [counters, if_neg hne]

theorem of_walk {l : Leaf} (h : first.state.1.registers.bypasses q.privilege = false)
    (missed : first.state.1.tlb.peek q.access.side q = none)
    (found : walk first.state.1.registers q first.state.2 = (.ok l, first.state.2))
    (answer : first.answer = .ok (l.translate q.vaddr))
    (resident : (first.state.1.tlb.bank q.access.side).cache.fifo.refill q.vaddr l =
      (.replaced, (first.state.1.tlb.bank q.access.side).cache.fifo)) :
    ∃ second, first.state.1.translate q first.state.2 = .ok second ∧ Repeats first second ∧
      first.state.1.Counted q.access.side
        (fun c => { c with
          lookups := c.lookups + 1
          misses := c.misses + 1
          refills := c.refills + 1
          replacements := c.replacements + 1 }) 1 second.state.1 := by
  obtain ⟨e, he, hreplaced, hfifo⟩ := (first.state.1.tlb.lookup q.access.side q).2.refill_of_isAligned
    q.access.side q.vaddr (walk_isAligned found)
  simp only [Tlb.cache_lookup, resident] at hreplaced hfifo
  have counters : ∀ other, (e.state.bank other).counters =
      if other = q.access.side then
        ((first.state.1.tlb.bank other).counters.countLookup false).countRefill .replaced
      else (first.state.1.tlb.bank other).counters := by
    intro other
    rw [Tlb.counters_refill he, Tlb.counters_lookup, missed, hreplaced]
    split <;> rfl
  refine ⟨_, (Mmu.Translates.walked h missed found he).eq, ⟨answer.symm, rfl, rfl, ?_⟩,
    ⟨?_, ?_, rfl, rfl⟩⟩
  · intro side
    rw [hfifo]
    split
    · rename_i own
      rw [own, resident]
    · rfl
  · exact (counters q.access.side).trans (if_pos rfl)
  · intro other hne
    exact (counters other).trans (if_neg hne)

theorem of_fault {f : Fault} (h : first.state.1.registers.bypasses q.privilege = false)
    (missed : first.state.1.tlb.peek q.access.side q = none)
    (fault : walk first.state.1.registers q first.state.2 = (.error f, first.state.2))
    (answer : first.answer = .error (f.trap q)) :
    ∃ second, first.state.1.translate q first.state.2 = .ok second ∧ Repeats first second := by
  refine ⟨_, (Mmu.Translates.failed h missed fault).eq, answer.symm, rfl, rfl, ?_⟩
  intro side
  exact congrArg Cache.fifo (first.state.1.tlb.cache_lookup q.access.side side q)

end Repeats

/-- A request that is made twice in a row gets the same answer, and the second time changes nothing but the
counters. After a walk that has succeeded it is a hit, unless the leaf answers it by the flags only: then
the walk is made again and its refill is a replacement. -/
theorem repeated_requests_agree {μ : Type} [WordMemory μ] [LawfulWordMemory μ] (m : Mmu) (q : Request)
    (mem : μ) :
    ∃ first second, m.translate q mem = .ok first ∧
      first.state.1.translate q first.state.2 = .ok second ∧ Repeats first second ∧
      ∀ l, first.state.1.walks = m.walks + 1 → walk m.registers q mem = (.ok l, first.state.2) →
        (¬ l.NeedsFlags q → first.state.1.Counted q.access.side
          (fun c => { c with lookups := c.lookups + 1, hits := c.hits + 1 }) 0 second.state.1) ∧
        (l.NeedsFlags q → first.state.1.Counted q.access.side
          (fun c => { c with
            lookups := c.lookups + 1
            misses := c.misses + 1
            refills := c.refills + 1
            replacements := c.replacements + 1 }) 1 second.state.1) := by
  obtain ⟨first, hfirst, h⟩ := m.translate_eq_ok q mem
  cases h with
  | bypassed h =>
    refine ⟨_, _, hfirst, (Mmu.Translates.bypassed h).eq, ⟨rfl, rfl, rfl, fun _ => rfl⟩, ?_⟩
    intro l hwalks
    exact absurd hwalks.symm (Nat.succ_ne_self m.walks)
  | @hit x h found =>
    have found' := (m.tlb.peek_lookup q.access.side q.access.side q q).trans found
    obtain ⟨second, hsecond, repeats, -⟩ := Repeats.of_hit
      ⟨.ok x, ({ m with tlb := (m.tlb.lookup q.access.side q).2 }, mem), []⟩ h found' rfl
    refine ⟨_, second, hfirst, hsecond, repeats, ?_⟩
    intro l hwalks
    exact absurd hwalks.symm (Nat.succ_ne_self m.walks)
  | @failed f mem' h missed fault =>
    have missed' := (m.tlb.peek_lookup q.access.side q.access.side q q).trans missed
    obtain ⟨rfl, -⟩ := walk_failed fault
    obtain ⟨second, hsecond, repeats⟩ := Repeats.of_fault
      ⟨.error (f.trap q), ({ m with
        tlb := (m.tlb.lookup q.access.side q).2
        walks := m.walks + 1
        faults := m.faults + 1 }, mem'), _⟩ h missed' fault rfl
    refine ⟨_, second, hfirst, hsecond, repeats, ?_⟩
    intro l _ found
    exact nomatch (Prod.mk.inj (fault.symm.trans found)).1
  | @walked l mem' e h missed found refilled =>
    have aligned := walk_isAligned found
    have again := walk_again found
    have hpeek := Tlb.peek_of_refill missed aligned refilled
    have same : ∀ {l'}, walk m.registers q mem = (.ok l', mem') → l' = l :=
      fun found' => Except.ok.inj (Prod.mk.inj (found'.symm.trans found)).1
    -- no entry served the request before, so it is the new one that answers, or again none does
    by_cases serves : (⟨q.vaddr.pageNumber l.level, l, true⟩ : Entry).serves q = true
    · rw [if_pos serves] at hpeek
      obtain ⟨second, hsecond, repeats, counted⟩ := Repeats.of_hit
        ⟨_, ({ m with tlb := e.state, walks := m.walks + 1 }, mem'), e.events⟩ h hpeek rfl
      refine ⟨_, second, hfirst, hsecond, repeats, ?_⟩
      intro l' _ found'
      obtain rfl := same found'
      exact ⟨fun _ => counted, fun flags => absurd flags ((serves_walk_iff found).mp serves)⟩
    · rw [if_neg serves] at hpeek
      have resident : (e.state.bank q.access.side).cache.fifo.refill q.vaddr l =
          (.replaced, (e.state.bank q.access.side).cache.fifo) := by
        have hfifo := (Tlb.fifo_of_refill aligned refilled q.access.side).trans (if_pos rfl)
        rw [hfifo]
        exact Fifo.refill_refill ..
      obtain ⟨second, hsecond, repeats, counted⟩ := Repeats.of_walk
        ⟨_, ({ m with tlb := e.state, walks := m.walks + 1 }, mem'), e.events⟩ h hpeek again rfl resident
      refine ⟨_, second, hfirst, hsecond, repeats, ?_⟩
      intro l' _ found'
      obtain rfl := same found'
      exact ⟨fun plain => absurd ((serves_walk_iff found).mpr plain) serves, fun _ => counted⟩

theorem repeated_requests_agree_on_an_executable_page :
    let ram := ((Ram.new ⟨0⟩ 0x4000).setBytes 0x1004 (Word.littleEndian 0x801)).setBytes 0x2004
      (Word.littleEndian 0x1409)
    let r : Registers := ⟨⟨0x80000001⟩, ⟨false, true⟩⟩
    let q : Request := ⟨⟨0x00401abc⟩, .read, .supervisor⟩
    let l : Leaf := ⟨⟨0x5000⟩, ⟨false, false, true, false⟩, .base⟩
    ∃ tlb first second, Tlb.new 1 1 = .ok tlb ∧ Mmu.translate ⟨tlb, r, 0, 0⟩ q ram = .ok first ∧
      walk r q ram = (.ok l, first.state.2) ∧ l.NeedsFlags q ∧ first.state.1.walks = 1 ∧
      first.state.1.translate q first.state.2 = .ok second ∧ second.answer = .ok ⟨0x5abc⟩ ∧
      second.state.1.walks = 2 ∧ (second.state.1.tlb.bank .data).counters.replacements =
        (first.state.1.tlb.bank .data).counters.replacements + 1 := by
  intro ram r q l
  obtain ⟨tlb, htlb, hempty⟩ := Tlb.new_fifo Nat.one_pos Nat.one_pos
  have hw : walk r q ram = (.ok l, (walk r q ram).2) := walk_eq_of_toOption (by decide)
  have missed : tlb.peek q.access.side q = none := by
    obtain ⟨capacity, hfifo⟩ := hempty q.access.side
    have entries : (tlb.bank q.access.side).cache.entries = [] := congrArg Fifo.entries hfifo
    simp only [Tlb.peek, Cache.lookup, entries, List.find?_nil, Option.map_none]
  obtain ⟨e, refilled, -⟩ := (tlb.lookup q.access.side q).2.refill_of_isAligned q.access.side q.vaddr
    (walk_isAligned hw)
  have mapped : r.bypasses q.privilege = false := by decide
  have hfirst := (Mmu.Translates.walked (m := ⟨tlb, r, 0, 0⟩) mapped missed hw refilled).eq
  obtain ⟨first, second, hfirst', hsecond, repeats, counts⟩ := repeated_requests_agree ⟨tlb, r, 0, 0⟩ q ram
  obtain rfl := Except.ok.inj (hfirst.symm.trans hfirst')
  have flags : l.NeedsFlags q := Or.inr ⟨rfl, rfl⟩
  have counted := (counts l rfl hw).2 flags
  have answer : second.answer = .ok ⟨0x5abc⟩ := repeats.answer.trans (congrArg Except.ok (by decide))
  exact ⟨tlb, _, second, htlb, hfirst, hw, flags, rfl, hsecond, answer, counted.walks,
    congrArg Counters.replacements counted.own⟩

end Sv32
