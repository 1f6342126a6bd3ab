import Sv32.Proofs.Outcomes

/-! # What the unit writes

All that a unit ever writes to memory is marks: a request that is answered may set the accessed bit of the
one leaf that its walk has reached, and a store the dirty bit too. -/
namespace Sv32

namespace Ram

variable {m m' : Ram} {a : PhysAddr} {w : Word}

theorem writeWord_of_eq (h : WordMemory.writeWord a w m = (.ok (), m')) : m.writeWord a w = .ok m' := by
  simp only [WordMemory.writeWord] at h
  split at h
  · cases h
    assumption
  · cases h

theorem writeWord_eq_ok (h : m.writeWord a w = .ok m') :
    ∃ o, m.locateWord a = .ok o ∧ m' = m.setBytes o w.littleEndian := by
  rw [writeWord_eq_map] at h
  cases ho : m.locateWord a with
  | error e =>
    rw [ho] at h
    cases h
  | ok o =>
    rw [ho] at h
    exact ⟨o, rfl, (Except.ok.inj h).symm⟩

theorem readWord_of_writeWord (h : m.writeWord a w = .ok m') (b : PhysAddr) :
    m'.readWord b = if b = a then .ok w else m.readWord b := by
  obtain ⟨o, ho, rfl⟩ := writeWord_eq_ok h
  exact readWord_setBytes ho w b

theorem byte_of_writeWord (h : m.writeWord a w = .ok m') {i : Nat} (hi : m'.byte i ≠ m.byte i) :
    a.val.toNat ≤ m.base.val.toNat + i ∧ m.base.val.toNat + i < a.val.toNat + 4 := by
  obtain ⟨o, ho, rfl⟩ := writeWord_eq_ok h
  obtain ⟨-, hbase, -⟩ := locateWord_eq_ok ho
  rw [byte_setBytes] at hi
  split at hi
  · rename_i hle
    have hlt : i - o < w.littleEndian.length := by
      apply Nat.lt_of_not_le
      intro hlen
      rw [List.getElem?_eq_none hlen] at hi
      exact hi rfl
    have hfour : w.littleEndian.length = 4 := rfl
    omega
  · exact absurd rfl hi

end Ram

namespace Mmu

abbrev History (m : Mmu) (ram : Ram) (op : Nat → Op) := Effect.History Mmu.step (m, ram) op

theorem step_eq_ok {μ : Type} [WordMemory μ] (s : Mmu × μ) {op : Op}
    (aligned : ∀ side v l, op = .tlb (.refill side v l) → l.isAligned = true) :
    ∃ e, Mmu.step s op = .ok e := by
  cases op with
  | translate q =>
    obtain ⟨e, he, -⟩ := s.1.translate_eq_ok q s.2
    exact ⟨⟨.translated e.answer, e.state, e.events⟩, by simp only [step, he]; rfl⟩
  | tlb op =>
    obtain ⟨e, he⟩ := s.1.tlb.step_eq_ok fun side v l h => aligned side v l (congrArg Op.tlb h)
    exact ⟨⟨.tlb e.answer, ({ s.1 with tlb := e.state }, s.2), e.events⟩, by simp only [step, he]; rfl⟩
  | _ => exact ⟨_, rfl⟩

theorem step_memory {μ : Type} [WordMemory μ] [LawfulWordMemory μ] {s : Mmu × μ} {op : Op}
    {e : Effect (Mmu × μ) Answer} (h : Mmu.step s op = .ok e) :
    e.state.2 = s.2 ∨ ∃ q x l, op = .translate q ∧ e.answer = .translated (.ok x) ∧
      walk s.1.registers q s.2 = (.ok l, e.state.2) := by
  cases op with
  | translate q =>
    obtain ⟨e', he, ht⟩ := s.1.translate_eq_ok q s.2
    simp only [step, he, bind, Except.bind, pure, Except.pure, Except.ok.injEq] at h
    subst h
    cases ht with
    | bypassed | hit => exact Or.inl rfl
    | walked _ _ found _ => exact Or.inr ⟨q, _, _, rfl, rfl, found⟩
    | failed _ _ fault => exact Or.inl (walk_failed fault).1
  | writeSatp raw =>
    cases h
    exact Or.inl rfl
  | tlb op =>
    obtain ⟨e', -, h⟩ := bind_eq_ok.mp h
    cases h
    exact Or.inl rfl
  | _ =>
    cases h
    exact Or.inl rfl

namespace History

variable {m : Mmu} {ram : Ram} {op : Nat → Op} (ρ : History m ram op)

def memory (k : Nat) : Ram := (ρ.state k).2

/-- The request at `k` is answered, and the leaf `p` that its walk has reached at `a` is replaced by `new`,
which has marks that `p` lacks. -/
structure MarksAt (k : Nat) (q : Request) (a : PhysAddr) (p new : Pte) : Prop where
  translated : op k = .translate q
  answered : ∃ x, ρ.answer k = .translated (.ok x)
  reached : ∃ l, walk (ρ.state k).1.registers q (ρ.memory k) = (.ok l, ρ.memory (k + 1)) ∧
    LeafAt (ρ.memory k) (ρ.state k).1.registers.satp.rootPage q.vaddr l.level a p
  leaf : p.valid = true ∧ p.GrantsSome ∧ (p.writable = true → p.readable = true)
  aligned : a.val.toNat % 4 = 0
  word : (ρ.memory k).readWord a = .ok p.raw
  marked : p.Marked q.access new
  changed : new ≠ p
  written : (ρ.memory k).writeWord a new.raw = .ok (ρ.memory (k + 1))

/-- The request at `k` sets the bit `i` of the leaf at `a`: the leaf was accessed, or it was stored to. -/
def SetsAt (k : Nat) (a : PhysAddr) (i : Nat) : Prop :=
  ∃ q p new, ρ.MarksAt k q a p new ∧ p.raw.getLsbD i = false ∧ (i = 6 ∨ i = 7 ∧ q.access = .write)

theorem nonempty_of_aligned (m : Mmu) (ram : Ram)
    (aligned : ∀ k side v l, op k = .tlb (.refill side v l) → l.isAligned = true) :
    Nonempty (History m ram op) := by
  obtain ⟨state, answer, start, next⟩ := Effect.endless (fun k s => step_eq_ok s (aligned k)) (m, ram)
  exact ⟨⟨state, answer, start, next⟩⟩

theorem memory_zero : ρ.memory 0 = ram := congrArg Prod.snd ρ.start

theorem memory_succ (k : Nat) :
    ρ.memory (k + 1) = ρ.memory k ∨ ∃ q a p new, ρ.MarksAt k q a p new := by
  obtain ⟨events, h⟩ := ρ.next k
  rcases step_memory h with hsame | ⟨q, x, l, hop, hanswer, hwalk⟩
  · exact Or.inl hsame
  · obtain ⟨a, p, leaf, -, written, -⟩ := walk_found hwalk
    rcases written with ⟨-, hsame⟩ | ⟨hne, hw⟩
    · exact Or.inl hsame
    · have hw := Ram.writeWord_of_eq hw
      have hp := leaf.entry
      obtain ⟨o, ho, -⟩ := Ram.writeWord_eq_ok hw
      exact Or.inr ⟨q, a, p, _, hop, ⟨x, hanswer⟩, ⟨l, hwalk, leaf⟩,
        ⟨hp.valid, leaf.grantsSome, hp.not_reserved⟩, (Ram.locateWord_eq_ok ho).1, hp.readWord_eq,
        (p.marked_iff q.access).mpr rfl, hne, hw⟩

theorem placed (n : Nat) : (ρ.memory n).base = ram.base ∧ (ρ.memory n).size = ram.size := by
  induction n with
  | zero =>
    rw [memory_zero]
    exact ⟨rfl, rfl⟩
  | succ n ih =>
    rcases ρ.memory_succ n with hsame | ⟨q, a, p, new, h⟩
    · rw [hsame]
      exact ih
    · obtain ⟨o, -, hm⟩ := Ram.writeWord_eq_ok h.written
      rw [hm, Ram.base_setBytes, Ram.size_setBytes]
      exact ih

theorem byte_changed {n i : Nat} (hi : (ρ.memory n).byte i ≠ ram.byte i) :
    ∃ k, k < n ∧ ∃ q a p new, ρ.MarksAt k q a p new ∧ a.val.toNat ≤ ram.base.val.toNat + i ∧
      ram.base.val.toNat + i < a.val.toNat + 4 := by
  induction n with
  | zero =>
    rw [memory_zero] at hi
    exact absurd rfl hi
  | succ n ih =>
    by_cases hn : (ρ.memory (n + 1)).byte i = (ρ.memory n).byte i
    · rw [hn] at hi
      obtain ⟨k, hk, h⟩ := ih hi
      exact ⟨k, Nat.lt_succ_of_lt hk, h⟩
    · rcases ρ.memory_succ n with hsame | ⟨q, a, p, new, h⟩
      · rw [hsame] at hn
        exact absurd rfl hn
      · have hword := Ram.byte_of_writeWord h.written hn
        rw [(ρ.placed n).1] at hword
        exact ⟨n, Nat.lt_succ_self n, q, a, p, new, h, hword⟩

variable {ρ} {k n i : Nat} {q : Request} {a b : PhysAddr} {p new : Pte}

theorem MarksAt.readWord (h : ρ.MarksAt k q a p new) (b : PhysAddr) :
    (ρ.memory (k + 1)).readWord b = if b = a then .ok new.raw else (ρ.memory k).readWord b :=
  Ram.readWord_of_writeWord h.written b

theorem SetsAt.set (h : ρ.SetsAt k a i) {w : Word} (hw : (ρ.memory (k + 1)).readWord a = .ok w) :
    w.getLsbD i = true := by
  obtain ⟨q, p, new, hmarks, -, hi⟩ := h
  rw [hmarks.readWord, if_pos rfl] at hw
  rw [← Except.ok.inj hw, hmarks.marked i]
  rcases hi with rfl | ⟨rfl, hwrite⟩
  · simp
  · simp [hwrite]

theorem word_succ {w : Word} (hw : (ρ.memory n).readWord a = .ok w) :
    ∃ w', (ρ.memory (n + 1)).readWord a = .ok w' ∧
      ∀ i, w'.getLsbD i = true ↔ w.getLsbD i = true ∨ ρ.SetsAt n a i := by
  have same : (ρ.memory (n + 1)).readWord a = .ok w →
      ∀ i, w.getLsbD i = true ↔ w.getLsbD i = true ∨ ρ.SetsAt n a i := by
    intro hw' i
    exact ⟨Or.inl, fun h => h.elim id fun h => h.set hw'⟩
  rcases ρ.memory_succ n with hsame | ⟨q, b, p, new, h⟩
  · rw [← hsame] at hw
    exact ⟨w, hw, same hw⟩
  · -- the word is the one that is marked, or another
    by_cases hab : a = b
    · subst hab
      have hread := h.readWord a
      rw [if_pos rfl] at hread
      refine ⟨new.raw, hread, ?_⟩
      intro i
      have hp : w = p.raw := Except.ok.inj (hw.symm.trans h.word)
      constructor
      · intro hset
        cases hclear : p.raw.getLsbD i with
        | true => exact Or.inl (hp ▸ hclear)
        | false =>
          have hbit := h.marked i
          simp only [hset, hclear, Bool.false_or] at hbit
          refine Or.inr ⟨q, p, new, h, hclear, ?_⟩
          simpa using hbit.symm
      · rintro (hset | hsets)
        · rw [h.marked i, ← hp, hset, Bool.true_or, Bool.true_or]
        · exact hsets.set hread
    · have hread := h.readWord a
      rw [if_neg hab, hw] at hread
      exact ⟨w, hread, same hread⟩

theorem word_marked {w : Word} (hw : ram.readWord a = .ok w) (n : Nat) :
    ∃ w', (ρ.memory n).readWord a = .ok w' ∧
      ∀ i, w'.getLsbD i = true ↔ w.getLsbD i = true ∨ ∃ k, k < n ∧ ρ.SetsAt k a i := by
  induction n with
  | zero =>
    rw [← ρ.memory_zero] at hw
    exact ⟨w, hw, fun i => ⟨Or.inl, fun h => h.elim id fun ⟨k, hk, _⟩ => absurd hk (Nat.not_lt_zero k)⟩⟩
  | succ n ih =>
    obtain ⟨w', hw', hset⟩ := ih
    obtain ⟨w'', hw'', hset'⟩ := word_succ hw'
    refine ⟨w'', hw'', ?_⟩
    intro i
    simp only [hset', hset, Nat.lt_succ_iff_lt_or_eq, or_and_right, exists_or, exists_eq_left, or_assoc]

end History

end Mmu

/-- From any unit and any memory, under any operations on the unit: an operation leaves the memory alone, or
is a request that is answered and marks the one leaf that its walk has reached. Words keep all their bits,
and gain accessed bits, and dirty bits from stores. -/
theorem only_leaves_are_marked (m : Mmu) (ram : Ram) (op : Nat → Mmu.Op)
    (aligned : ∀ k side v l, op k = .tlb (.refill side v l) → l.isAligned = true) :
    Nonempty (Mmu.History m ram op) ∧ ∀ (ρ : Mmu.History m ram op) (n : Nat),
      (ρ.memory (n + 1) = ρ.memory n ∨ ∃ q a p new, ρ.MarksAt n q a p new) ∧
      (∀ t, ρ.answer n = .translated (.error t) → ρ.memory (n + 1) = ρ.memory n) ∧
      ((ρ.memory n).base = ram.base ∧ (ρ.memory n).size = ram.size) ∧
      (∀ i, (ρ.memory n).byte i ≠ ram.byte i →
        ∃ k, k < n ∧ ∃ q a p new, ρ.MarksAt k q a p new ∧ a.val.toNat ≤ ram.base.val.toNat + i ∧
          ram.base.val.toNat + i < a.val.toNat + 4) ∧
      ∀ a w, ram.readWord a = .ok w → ∃ w', (ρ.memory n).readWord a = .ok w' ∧
        ∀ i, w'.getLsbD i = true ↔ w.getLsbD i = true ∨ ∃ k, k < n ∧ ρ.SetsAt k a i := by
  refine ⟨Mmu.History.nonempty_of_aligned m ram aligned, ?_⟩
  intro ρ n
  refine ⟨ρ.memory_succ n, ?_, ρ.placed n, ?_, ?_⟩
  · intro t ht
    rcases ρ.memory_succ n with hsame | ⟨q, a, p, new, h⟩
    · exact hsame
    · obtain ⟨x, hx⟩ := h.answered
      rw [ht] at hx
      cases hx
  · intro i hi
    exact ρ.byte_changed hi
  · intro a w hw
    exact Mmu.History.word_marked hw n

theorem only_leaves_are_marked_by_read_and_store :
    let r : Rights := ⟨true, true, false, false⟩
    let ops : List Mmu.Op :=
      [.tlb (.refill .data ⟨0x00400000⟩ ⟨⟨0x6000⟩, r, .base⟩),
        .translate ⟨⟨0x00401abc⟩, .read, .supervisor⟩, .translate ⟨⟨0x00401abc⟩, .write, .supervisor⟩]
    let op : Nat → Mmu.Op := fun k => ops.getD k .stats
    let ram := ((Ram.new ⟨0⟩ 0x4000).setBytes 0x1004 (Word.littleEndian 0x801)).setBytes 0x2004
      (Word.littleEndian 0x1407)
    (∀ k side v l, op k = .tlb (.refill side v l) → l.isAligned = true) ∧
      ∃ (m : Mmu) (ρ : Mmu.History m ram op), (ρ.memory 3).readWord ⟨0x2004⟩ = .ok 0x14c7 ∧
        (∃ k, k < 3 ∧ ρ.SetsAt k ⟨0x2004⟩ 6) ∧ ∃ k, k < 3 ∧ ρ.SetsAt k ⟨0x2004⟩ 7 := by
  intro r ops op ram
  have aligned : ∀ k side v l, op k = .tlb (.refill side v l) → l.isAligned = true := by
    intro k side v l h
    match k with
    | 0 =>
      cases h
      decide
    | 1 | 2 | k + 3 => cases h
  obtain ⟨tlb, htlb, -⟩ := Tlb.new_fifo (show 0 < 1 by decide) (show 0 < 1 by decide)
  obtain ⟨⟨ρ⟩, h⟩ :=
    only_leaves_are_marked ⟨tlb, ⟨⟨0x80000001⟩, ⟨false, false⟩⟩, 0, 0⟩ ram op aligned
  obtain ⟨-, -, -, -, hwords⟩ := h ρ 3
  have hfirst : ram.readWord ⟨0x2004⟩ = .ok 0x1407 := by
    have hread : (ram.readWord ⟨0x2004⟩).toOption = some 0x1407 := by decide
    generalize ram.readWord ⟨0x2004⟩ = answer at hread ⊢
    cases answer <;> cases hread
    rfl
  obtain ⟨w, hw, hbits⟩ := hwords ⟨0x2004⟩ 0x1407 hfirst
  have hrun : ((Tlb.new 1 1).bind fun tlb =>
      (Effect.run Mmu.step (⟨tlb, ⟨⟨0x80000001⟩, ⟨false, false⟩⟩, 0, 0⟩, ram)
        ((List.range 3).map op)).map fun e => (e.state.2.readWord ⟨0x2004⟩).toOption).toOption =
      some (some 0x14c7) := by
    decide +kernel
  obtain ⟨events, hr⟩ := Effect.run_range ρ.next 3
  rw [ρ.start] at hr
  have hlast : w = 0x14c7 := by
    rw [htlb] at hrun
    simp only [Except.bind, hr, Except.map, Except.toOption, Option.some.injEq] at hrun
    have hw' : (ρ.state 3).2.readWord ⟨0x2004⟩ = .ok w := hw
    rw [hw'] at hrun
    exact Option.some.inj hrun
  subst hlast
  refine ⟨aligned, _, ρ, hw, ?_, ?_⟩
  · exact ((hbits 6).mp (by decide)).resolve_left (by decide)
  · exact ((hbits 7).mp (by decide)).resolve_left (by decide)

end Sv32
