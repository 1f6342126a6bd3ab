import Sv32.Proofs.Commands

/-! # Hits are the live refills

A refill lives until its page is refilled again, a flush comes, or its entry is pushed out. The valid
entries of a side are the leaves of its live refills, in the order in which their entries were appended. -/
namespace Sv32

namespace Tlb

/-- It happened at `j`, before `n`, and every time between the two has kept it. -/
structure Since (happens keeps : Nat → Prop) (n j : Nat) : Prop where
  earlier : j < n
  happened : happens j
  kept : ∀ i, j < i → i < n → keeps i

theorem since_succ {happens keeps : Nat → Prop} {n j : Nat} : Since happens keeps (n + 1) j ↔
    (j = n ∧ happens n) ∨ (Since happens keeps n j ∧ keeps n) := by
  constructor
  · rintro ⟨hj, hr, hs⟩
    rcases Nat.lt_succ_iff_lt_or_eq.mp hj with hj | rfl
    · exact Or.inr ⟨⟨hj, hr, fun i hji hin => hs i hji (Nat.lt_succ_of_lt hin)⟩,
        hs n hj (Nat.lt_succ_self n)⟩
    · exact Or.inl ⟨rfl, hr⟩
  · rintro (⟨rfl, hr⟩ | ⟨⟨hj, hr, hs⟩, hn⟩)
    · exact ⟨Nat.lt_succ_self j, hr, fun i hji hin => by omega⟩
    · refine ⟨Nat.lt_succ_of_lt hj, hr, ?_⟩
      intro i hji hin
      rcases Nat.lt_succ_iff_lt_or_eq.mp hin with hin | rfl
      · exact hs i hji hin
      · exact hn

structure History (instruction data : Nat) (op : Nat → Op) where
  state : Nat → Tlb
  answer : Nat → Answer
  start : Tlb.new instruction data = .ok (state 0)
  next : ∀ k, ∃ events, (state k).step (op k) = .ok ⟨answer k, state (k + 1), events⟩

def Op.bare : Op → Op
  | .flush _ => .flush .all
  | op => op

theorem step_bare (t : Tlb) (op : Op) :
    (t.step op).map (fun e => (e.answer, e.state)) =
      (t.step op.bare).map fun e => (e.answer, e.state) := by
  cases op <;> rfl

namespace History

variable {instruction data : Nat} {op : Nat → Op}

theorem nonempty_of_aligned (hi : 0 < instruction) (hd : 0 < data)
    (aligned : ∀ k side v l, op k = .refill side v l → l.isAligned = true) :
    Nonempty (History instruction data op) := by
  obtain ⟨t, ht, -⟩ := Tlb.new_fifo hi hd
  obtain ⟨state, answer, h0, hnext⟩ := Effect.endless (fun k t => t.step_eq_ok (aligned k)) t
  exact ⟨state, answer, h0 ▸ ht, hnext⟩

variable (ρ : History instruction data op)

def held (k : Nat) (side : Side) : Fifo := ((ρ.state k).bank side).cache.fifo

/-- The operation at `k` refills this page of this side with `l`, and that comes to `r`. -/
def RefillsAt (k : Nat) (side : Side) (vpn : Word) (l : Leaf) (r : Refill) : Prop :=
  ∃ v e, op k = .refill side v l ∧ v.pageNumber l.level = vpn ∧ (ρ.state k).refill side v l = .ok e ∧
    e.answer = r

def EvictsAt (k : Nat) (side : Side) (e : Entry) : Prop := ∃ vpn l, ρ.RefillsAt k side vpn l (.evicted e)

def AppendsAt (k : Nat) (side : Side) (vpn : Word) (level : PageLevel) : Prop :=
  ∃ l r, ρ.RefillsAt k side vpn l r ∧ l.level = level ∧ r ≠ .replaced

/-- The operation at `k` leaves the page alone: it does not refill it, nor flush, nor push its entry
out. -/
structure Spares (k : Nat) (side : Side) (vpn : Word) (level : PageLevel) : Prop where
  refill : ∀ l r, ρ.RefillsAt k side vpn l r → l.level ≠ level
  flush : ∀ f, op k ≠ .flush f
  evict : ∀ e, ρ.EvictsAt k side e → ¬ Fifo.Maps vpn level e

/-- At `n` the page is live with the leaf `l`, which its most recent refill brought at `j`. -/
def Live (n : Nat) (side : Side) (vpn : Word) (l : Leaf) (j : Nat) : Prop :=
  Since (fun i => ∃ r, ρ.RefillsAt i side vpn l r) (fun i => ρ.Spares i side vpn l.level) n j

def Appended (n : Nat) (side : Side) (vpn : Word) (level : PageLevel) (a : Nat) : Prop :=
  Since (fun i => ρ.AppendsAt i side vpn level) (fun i => ¬ ρ.AppendsAt i side vpn level) n a

/-- At `n` the page of the request is live at the level of `l`, with rights that permit the request. -/
structure Serves (n : Nat) (side : Side) (q : Request) (l : Leaf) (j : Nat) : Prop where
  live : ρ.Live n side (q.vaddr.pageNumber l.level) l j
  right : l.rights.permits q.access = true
  user : l.rights.user = true ↔ q.privilege = .user

structure Ordered (n : Nat) (side : Side) (ps : List (Word × PageLevel)) : Prop where
  appended : ∀ p ∈ ps, ∃ a, ρ.Appended n side p.1 p.2 a
  ordered : ps.Pairwise fun p p' =>
    ∀ a a', ρ.Appended n side p.1 p.2 a → ρ.Appended n side p'.1 p'.2 a' → a < a'

/-- The valid entries of a side are its live refills, in the order in which they were appended. -/
structure Traced (n : Nat) (side : Side) : Prop where
  sound : (ρ.held n side).Invariant
  mem : ∀ e : Entry, e.valid = true →
    (e ∈ (ρ.held n side).entries ↔ ∃ j, ρ.Live n side e.vpn e.leaf j)
  order : ρ.Ordered n side (Fifo.pages (ρ.held n side).entries)

variable {ρ} {n : Nat} {side : Side} {vpn : Word} {l : Leaf} {level : PageLevel}

theorem Appended.unique {a a' : Nat} (h : ρ.Appended n side vpn level a)
    (h' : ρ.Appended n side vpn level a') : a = a' := by
  rcases Nat.lt_trichotomy a a' with hlt | heq | hlt
  · exact absurd h'.happened (h.kept a' hlt h'.earlier)
  · exact heq
  · exact absurd h.happened (h'.kept a hlt h.earlier)

theorem live_succ {j : Nat} : ρ.Live (n + 1) side vpn l j ↔
    (j = n ∧ ∃ r, ρ.RefillsAt n side vpn l r) ∨
      (ρ.Live n side vpn l j ∧ ρ.Spares n side vpn l.level) :=
  since_succ

theorem appended_succ {a : Nat} : ρ.Appended (n + 1) side vpn level a ↔
    (a = n ∧ ρ.AppendsAt n side vpn level) ∨
      (ρ.Appended n side vpn level a ∧ ¬ ρ.AppendsAt n side vpn level) :=
  since_succ

theorem Ordered.succ {ps : List (Word × PageLevel)} (h : ρ.Ordered n side ps)
    (hn : ∀ p ∈ ps, ¬ ρ.AppendsAt n side p.1 p.2) : ρ.Ordered (n + 1) side ps := by
  have before : ∀ p ∈ ps, ∀ a, ρ.Appended (n + 1) side p.1 p.2 a → ρ.Appended n side p.1 p.2 a := by
    intro p hp a ha
    rcases appended_succ.mp ha with ⟨-, happ⟩ | ⟨ha, -⟩
    · exact absurd happ (hn p hp)
    · exact ha
  constructor
  · intro p hp
    obtain ⟨a, ha⟩ := h.appended p hp
    exact ⟨a, appended_succ.mpr (Or.inr ⟨ha, hn p hp⟩)⟩
  · refine h.ordered.imp_of_mem ?_
    intro p p' hp hp' hlt a a' ha ha'
    exact hlt a a' (before p hp a ha) (before p' hp' a' ha')

theorem Ordered.sublist {ps qs : List (Word × PageLevel)} (h : ρ.Ordered n side ps)
    (hs : qs.Sublist ps) : ρ.Ordered n side qs :=
  ⟨fun p hp => h.appended p (hs.subset hp), h.ordered.sublist hs⟩

theorem Ordered.snoc {ps : List (Word × PageLevel)} {p : Word × PageLevel} (h : ρ.Ordered n side ps)
    (hn : ∀ p' ∈ ps, ¬ ρ.AppendsAt n side p'.1 p'.2) (hp : ρ.AppendsAt n side p.1 p.2) :
    ρ.Ordered (n + 1) side (ps ++ [p]) := by
  have now : ρ.Appended (n + 1) side p.1 p.2 n := appended_succ.mpr (Or.inl ⟨rfl, hp⟩)
  have hs := h.succ hn
  constructor
  · intro p' hp'
    rcases List.mem_append.mp hp' with hp' | hp'
    · exact hs.appended p' hp'
    · rw [List.mem_singleton.mp hp']
      exact ⟨n, now⟩
  · rw [List.pairwise_append]
    refine ⟨hs.ordered, List.pairwise_singleton _ _, ?_⟩
    intro p' hp' _ hlast a a' ha ha'
    rw [List.mem_singleton.mp hlast] at ha'
    rw [ha'.unique now]
    rcases appended_succ.mp ha with ⟨-, happ⟩ | ⟨ha, -⟩
    · exact absurd happ (hn p' hp')
    · exact ha.earlier

variable (aligned : ∀ k side v l, op k = .refill side v l → l.isAligned = true)

include aligned

theorem refillsAt_iff {k : Nat} {r : Refill} : ρ.RefillsAt k side vpn l r ↔
    ∃ v, op k = .refill side v l ∧ v.pageNumber l.level = vpn ∧ ((ρ.held k side).refill v l).1 = r := by
  constructor
  · rintro ⟨v, e, hop, hpage, he, rfl⟩
    obtain ⟨e', he', ha, -⟩ := (ρ.state k).refill_of_isAligned side v (aligned k side v l hop)
    cases he.symm.trans he'
    exact ⟨v, hop, hpage, ha.symm⟩
  · rintro ⟨v, hop, hpage, rfl⟩
    obtain ⟨e, he, ha, -⟩ := (ρ.state k).refill_of_isAligned side v (aligned k side v l hop)
    exact ⟨v, e, hop, hpage, he, ha⟩

variable {v : VirtAddr} (hop : op n = .refill side v l)

include hop

theorem refillsAt_refill {l' : Leaf} {r : Refill} : ρ.RefillsAt n side vpn l' r ↔
    l' = l ∧ v.pageNumber l.level = vpn ∧ ((ρ.held n side).refill v l).1 = r := by
  rw [refillsAt_iff aligned, hop]
  constructor
  · rintro ⟨_, ⟨rfl⟩, hpage, hr⟩
    exact ⟨rfl, hpage, hr⟩
  · rintro ⟨rfl, hpage, hr⟩
    exact ⟨v, rfl, hpage, hr⟩

theorem appendsAt_refill : ρ.AppendsAt n side vpn level ↔
    v.pageNumber l.level = vpn ∧ l.level = level ∧ ((ρ.held n side).refill v l).1 ≠ .replaced := by
  simp only [AppendsAt, refillsAt_refill aligned hop]
  constructor
  · rintro ⟨_, _, ⟨rfl, hpage, rfl⟩, hl, hr⟩
    exact ⟨hpage, hl, hr⟩
  · rintro ⟨hpage, hl, hr⟩
    exact ⟨l, _, ⟨rfl, hpage, rfl⟩, hl, hr⟩

theorem spares_refill {e : Entry} (hv : e.valid = true) : ρ.Spares n side e.vpn e.leaf.level ↔
    ¬ Fifo.Maps (v.pageNumber l.level) l.level e ∧
      ∀ old, ((ρ.held n side).refill v l).1 = .evicted old → ¬ Fifo.Maps e.vpn e.leaf.level old := by
  constructor
  · rintro ⟨hr, -, he⟩
    refine ⟨?_, ?_⟩
    · rintro ⟨-, hl, hp⟩
      exact hr l _ ((refillsAt_refill aligned hop).mpr ⟨rfl, hp.symm, rfl⟩) hl.symm
    · intro old hold
      exact he old ⟨_, l, (refillsAt_refill aligned hop).mpr ⟨rfl, rfl, hold⟩⟩
  · rintro ⟨hn, he⟩
    constructor
    · intro l' r hr hl
      obtain ⟨rfl, hp, -⟩ := (refillsAt_refill aligned hop).mp hr
      exact hn ⟨hv, hl.symm, hp.symm⟩
    · intro f hf
      rw [hop] at hf
      cases hf
    · rintro old ⟨_, _, hr⟩
      exact he old ((refillsAt_refill aligned hop).mp hr).2.2

theorem held_refill : ρ.held (n + 1) side = ((ρ.held n side).refill v l).2 := by
  obtain ⟨e, he, -, hheld⟩ := (ρ.state n).refill_of_isAligned side v (aligned n side v l hop)
  obtain ⟨events, hnext⟩ := ρ.next n
  simp only [hop, step, he, bind, Except.bind, pure, Except.pure, Except.ok.injEq,
    Effect.mk.injEq] at hnext
  have h := hheld side
  rw [if_pos rfl, hnext.2.1] at h
  exact h

theorem Traced.refill (h : ρ.Traced n side) : ρ.Traced (n + 1) side := by
  have hheld : ρ.held (n + 1) side = ((ρ.held n side).refill v l).2 := held_refill aligned hop
  have hcapacity : 0 < (ρ.held n side).capacity :=
    ((ρ.state n).bank side).cache.ring.capacity_pos
  constructor
  · rw [hheld]
    exact Fifo.refill_invariant hcapacity h.sound v l
  · intro e hv
    have hnew : (∃ r, ρ.RefillsAt n side e.vpn e.leaf r) ↔ e = ⟨v.pageNumber l.level, l, true⟩ := by
      simp only [refillsAt_refill aligned hop]
      constructor
      · rintro ⟨_, hl, hp, -⟩
        obtain ⟨vpn, leaf, valid⟩ := e
        simp only at hl hp hv
        rw [hl, hp, hv]
      · rintro rfl
        exact ⟨_, rfl, rfl, rfl⟩
    -- a refill does to the entries what it does to the live pages
    rw [hheld, Fifo.mem_refill_iff h.sound.distinct hv, h.mem e hv]
    simp only [live_succ, exists_or, exists_eq_left, exists_and_right, hnew,
      spares_refill aligned hop hv]
  · rw [hheld]
    rcases (ρ.held n side).pages_refill v l with ⟨hr, hp⟩ | ⟨hr, habsent, kept, hk, hp⟩
    · rw [hp]
      apply h.order.succ
      intro p _ happ
      exact ((appendsAt_refill aligned hop).mp happ).2.2 hr
    · rw [hp]
      apply (h.order.sublist hk).snoc
      · intro p hmem happ
        obtain ⟨hpage, hl, -⟩ := (appendsAt_refill aligned hop).mp happ
        apply habsent
        rw [hpage, hl]
        exact hk.subset hmem
      · exact (appendsAt_refill aligned hop).mpr ⟨rfl, rfl, hr⟩

omit hop

omit aligned in
theorem held_flush {f : Fence} (hop : op n = .flush f) :
    ρ.held (n + 1) side = (ρ.held n side).flush := by
  obtain ⟨events, hnext⟩ := ρ.next n
  simp only [hop, step, Except.ok.injEq, Effect.mk.injEq] at hnext
  rw [held, ← hnext.2.1, (ρ.state n).cache_flush f side, Cache.flush_fifo]
  rfl

omit aligned in
theorem Traced.flush (h : ρ.Traced n side) {f : Fence} (hop : op n = .flush f) :
    ρ.Traced (n + 1) side := by
  have hheld : ρ.held (n + 1) side = (ρ.held n side).flush := held_flush hop
  constructor
  · rw [hheld]
    exact Fifo.flush_invariant h.sound
  · intro e hv
    rw [hheld]
    constructor
    · intro he
      rw [Fifo.mem_flush he] at hv
      cases hv
    · rintro ⟨j, hl⟩
      rcases live_succ.mp hl with ⟨-, _, v, _, hr, -⟩ | ⟨-, hs⟩
      · rw [hop] at hr
        cases hr
      · exact absurd hop (hs.flush f)
  · rw [hheld, Fifo.pages_flush]
    exact ⟨nofun, .nil⟩

theorem held_other (hr : ∀ v l, op n ≠ .refill side v l) (hf : ∀ f, op n ≠ .flush f) :
    ρ.held (n + 1) side = ρ.held n side := by
  obtain ⟨events, hnext⟩ := ρ.next n
  have hcache : ∀ t : Tlb, (t.bank side).cache = ((ρ.state n).bank side).cache → t = ρ.state (n + 1) →
      ρ.held (n + 1) side = ρ.held n side := by
    rintro t hc rfl
    rw [held, hc]
    rfl
  cases hop : op n with
  | lookup other q =>
    simp only [hop, step, Except.ok.injEq, Effect.mk.injEq] at hnext
    exact hcache _ ((ρ.state n).cache_lookup other side q) hnext.2.1
  | refill other v l =>
    obtain ⟨e, he, -, hheld⟩ := (ρ.state n).refill_of_isAligned other v (aligned n other v l hop)
    simp only [hop, step, he, bind, Except.bind, pure, Except.pure, Except.ok.injEq,
      Effect.mk.injEq] at hnext
    have hne : side ≠ other := by
      rintro rfl
      exact hr v l hop
    have h := hheld side
    rw [if_neg hne, hnext.2.1] at h
    exact h
  | flush f => exact absurd hop (hf f)
  | peek | counters =>
    simp only [hop, step, Except.ok.injEq, Effect.mk.injEq] at hnext
    exact hcache _ rfl hnext.2.1
  | resetCounters =>
    simp only [hop, step, Except.ok.injEq, Effect.mk.injEq] at hnext
    refine hcache _ ?_ hnext.2.1
    cases side <;> rfl

theorem Traced.other (h : ρ.Traced n side) (hr : ∀ v l, op n ≠ .refill side v l)
    (hf : ∀ f, op n ≠ .flush f) : ρ.Traced (n + 1) side := by
  have none : ∀ {vpn l r}, ¬ ρ.RefillsAt n side vpn l r := by
    rintro vpn l r ⟨v, e, hop, -⟩
    exact hr v l hop
  have spared : ∀ vpn level, ρ.Spares n side vpn level := by
    intro vpn level
    exact ⟨fun _ _ h => absurd h none, hf, fun _ ⟨_, _, h⟩ => absurd h none⟩
  have hheld : ρ.held (n + 1) side = ρ.held n side := held_other aligned hr hf
  constructor
  · rw [hheld]
    exact h.sound
  · intro e hv
    rw [hheld, h.mem e hv]
    simp only [live_succ, none, spared, exists_false, and_false, false_or, and_true]
  · rw [hheld]
    apply h.order.succ
    rintro p - ⟨_, _, h, -⟩
    exact none h

theorem traced (hi : 0 < instruction) (hd : 0 < data) (ρ : History instruction data op) (n : Nat)
    (side : Side) : ρ.Traced n side := by
  induction n with
  | zero =>
    obtain ⟨t, ht, hnew⟩ := Tlb.new_fifo hi hd
    cases ht.symm.trans ρ.start
    obtain ⟨capacity, hheld⟩ := hnew side
    have hheld : ρ.held 0 side = .initial capacity := hheld
    refine ⟨?_, ?_, ?_⟩
    · rw [hheld]
      exact Fifo.initial_invariant capacity
    · intro e _
      rw [hheld]
      exact ⟨nofun, fun ⟨j, h⟩ => absurd h.earlier (Nat.not_lt_zero j)⟩
    · rw [hheld]
      exact ⟨nofun, .nil⟩
  | succ n ih =>
    by_cases hr : ∃ v l, op n = .refill side v l
    · obtain ⟨v, l, hop⟩ := hr
      exact ih.refill aligned hop
    · by_cases hf : ∃ f, op n = .flush f
      · obtain ⟨f, hop⟩ := hf
        exact ih.flush hop
      · exact ih.other aligned (fun v l h => hr ⟨v, l, h⟩) fun f h => hf ⟨f, h⟩

omit aligned

theorem Serves.entry {q : Request} {j : Nat} (h : ρ.Serves n side q l j) (ht : ρ.Traced n side) :
    ⟨q.vaddr.pageNumber l.level, l, true⟩ ∈ (ρ.held n side).entries ∧
      (Entry.mk (q.vaddr.pageNumber l.level) l true).serves q = true := by
  refine ⟨(ht.mem _ rfl).mpr ⟨j, h.live⟩, (Entry.serves_iff _ q).mpr ⟨rfl, rfl, h.right, ?_⟩⟩
  rw [Bool.eq_iff_iff, h.user, beq_iff_eq]

theorem Traced.serves (ht : ρ.Traced n side) {q : Request} {e : Entry}
    (he : e ∈ (ρ.held n side).entries) (hs : e.serves q = true) :
    e = ⟨q.vaddr.pageNumber e.leaf.level, e.leaf, true⟩ ∧ ∃ j, ρ.Serves n side q e.leaf j := by
  obtain ⟨hv, hp, hr, hu⟩ := (e.serves_iff q).mp hs
  obtain ⟨j, hl⟩ := (ht.mem e hv).mp he
  rw [hp] at hl
  refine ⟨?_, j, hl, hr, ?_⟩
  · rw [← hp, ← hv]
  · rw [hu, beq_iff_eq]

theorem Traced.first (ht : ρ.Traced n side) {q : Request} {e : Entry}
    (hf : (ρ.held n side).entries.find? (·.serves q) = some e) :
    ∃ j a, ρ.Serves n side q e.leaf j ∧
      ρ.Appended n side (q.vaddr.pageNumber e.leaf.level) e.leaf.level a ∧
      ∀ l j' a', ρ.Serves n side q l j' →
        ρ.Appended n side (q.vaddr.pageNumber l.level) l.level a' → l = e.leaf ∨ a < a' := by
  obtain ⟨hs, before, after, hsplit, hnone⟩ := List.find?_eq_some_iff_append.mp hf
  have he := List.mem_of_find?_eq_some hf
  obtain ⟨heq, j, hserves⟩ := ht.serves he hs
  have hv := ((e.serves_iff q).mp hs).1
  have horder := ht.order
  rw [hsplit, Fifo.pages_append, Fifo.pages_cons, if_pos hv] at horder
  obtain ⟨a, ha⟩ := horder.appended (e.vpn, e.leaf.level) (by simp)
  rw [heq] at ha
  refine ⟨j, a, hserves, ha, ?_⟩
  intro l j' a' hserves' ha'
  obtain ⟨he', hs'⟩ := hserves'.entry ht
  rw [hsplit, List.mem_append, List.mem_cons] at he'
  -- nothing before `e` serves, and the pages after it were appended later
  rcases he' with he' | he' | he'
  · have := hnone _ he'
    rw [hs'] at this
    cases this
  · exact Or.inl (congrArg Entry.leaf he')
  · right
    have hpages : (q.vaddr.pageNumber l.level, l.level) ∈ Fifo.pages after :=
      Fifo.mem_pages.mpr ⟨_, he', rfl, rfl, rfl⟩
    have hlater := (List.pairwise_cons.mp (List.pairwise_append.mp horder.ordered).2.1).1 _ hpages
    rw [heq] at hlater
    exact hlater a a' ha ha'

theorem peek_eq (ρ : History instruction data op) (n : Nat) (side : Side) (q : Request) :
    (ρ.state n).peek side q =
      ((ρ.held n side).entries.find? (·.serves q)).map (·.translate q.vaddr) := rfl

theorem Traced.peek_eq_none (ht : ρ.Traced n side) (q : Request) :
    (ρ.state n).peek side q = none ↔ ∀ l j, ¬ ρ.Serves n side q l j := by
  rw [peek_eq, Option.map_eq_none_iff, List.find?_eq_none]
  constructor
  · intro h l j hserves
    obtain ⟨he, hs⟩ := hserves.entry ht
    exact h _ he hs
  · intro h e he hs
    obtain ⟨-, j, hserves⟩ := ht.serves he hs
    exact h e.leaf j hserves

theorem Traced.peek_eq_some (ht : ρ.Traced n side) (q : Request) (x : PhysAddr) :
    (ρ.state n).peek side q = some x ↔
      ∃ l j a, ρ.Serves n side q l j ∧
        ρ.Appended n side (q.vaddr.pageNumber l.level) l.level a ∧
        (∀ l' j' a', ρ.Serves n side q l' j' →
          ρ.Appended n side (q.vaddr.pageNumber l'.level) l'.level a' → a ≤ a') ∧
        x.val = l.ppn.val ||| q.vaddr.pageOffset l.level := by
  rw [peek_eq, Option.map_eq_some_iff]
  constructor
  · rintro ⟨e, hf, rfl⟩
    obtain ⟨j, a, hserves, ha, hfirst⟩ := ht.first hf
    refine ⟨e.leaf, j, a, hserves, ha, ?_, rfl⟩
    intro l' j' a' hserves' ha'
    rcases hfirst l' j' a' hserves' ha' with rfl | hlt
    · exact Nat.le_of_eq (ha.unique ha')
    · exact Nat.le_of_lt hlt
  · rintro ⟨l, j, a, hserves, ha, hleast, hx⟩
    obtain ⟨he, hs⟩ := hserves.entry ht
    have hsome : ((ρ.held n side).entries.find? (·.serves q)).isSome := List.find?_isSome.mpr ⟨_, he, hs⟩
    obtain ⟨e, hf⟩ := Option.isSome_iff_exists.mp hsome
    obtain ⟨j', a', hserves', ha', hfirst⟩ := ht.first hf
    refine ⟨e, hf, ?_⟩
    rcases hfirst l j a hserves ha with rfl | hlt
    · cases x
      exact congrArg PhysAddr.mk hx.symm
    · have := hleast _ _ _ hserves' ha'
      omega

theorem state_congr {op' : Nat → Op} (ρ : History instruction data op)
    (ρ' : History instruction data op') (h : ∀ k, (op' k).bare = (op k).bare) (n : Nat) :
    ρ'.state n = ρ.state n := by
  induction n with
  | zero => exact Except.ok.inj (ρ'.start.symm.trans ρ.start)
  | succ n ih =>
    obtain ⟨events, hnext⟩ := ρ.next n
    obtain ⟨events', hnext'⟩ := ρ'.next n
    have hs := (ρ.state n).step_bare (op n)
    have hs' := (ρ.state n).step_bare (op' n)
    rw [hnext, ← h n] at hs
    rw [ih] at hnext'
    rw [hnext', ← hs] at hs'
    exact (Prod.mk.inj (Except.ok.inj hs')).2

end History

end Tlb

/-- On a new buffer under any operations: a request hits exactly where a live refill of its side contains
its address and permits it, and the one whose entry was appended first answers. The operands of flushes make
no difference. -/
theorem hits_are_live_refills (instruction data : Nat) (hi : 0 < instruction) (hd : 0 < data)
    (op : Nat → Tlb.Op) (aligned : ∀ k side v l, op k = .refill side v l → l.isAligned = true) :
    Nonempty (Tlb.History instruction data op) ∧
      ∀ (ρ : Tlb.History instruction data op) (n : Nat) (side : Side) (q : Request),
        ((ρ.state n).lookup side q).1 = (ρ.state n).peek side q ∧
        ((ρ.state n).peek side q = none ↔ ∀ l j, ¬ ρ.Serves n side q l j) ∧
        (∀ x, (ρ.state n).peek side q = some x ↔
          ∃ l j a, ρ.Serves n side q l j ∧
            ρ.Appended n side (q.vaddr.pageNumber l.level) l.level a ∧
            (∀ l' j' a', ρ.Serves n side q l' j' →
              ρ.Appended n side (q.vaddr.pageNumber l'.level) l'.level a' → a ≤ a') ∧
            x.val = l.ppn.val ||| q.vaddr.pageOffset l.level) ∧
        ∀ op' (ρ' : Tlb.History instruction data op'), (∀ k, (op' k).bare = (op k).bare) →
          ρ'.state n = ρ.state n := by
  refine ⟨Tlb.History.nonempty_of_aligned hi hd aligned, ?_⟩
  intro ρ n side q
  have ht := Tlb.History.traced aligned hi hd ρ n side
  exact ⟨rfl, ht.peek_eq_none q, ht.peek_eq_some q, fun op' ρ' h => ρ.state_congr ρ' h n⟩

theorem hits_are_live_refills_where_pages_overlap :
    let ops : List Tlb.Op :=
      [.refill .data ⟨0x00401000⟩ ⟨⟨0xa000⟩, ⟨true, false, false, false⟩, .base⟩,
        .refill .data ⟨0x00400000⟩ ⟨⟨0x800000⟩, ⟨true, true, false, false⟩, .super⟩,
        .refill .data ⟨0x00401abc⟩ ⟨⟨0xb000⟩, ⟨true, false, false, false⟩, .base⟩]
    let op (k : Nat) : Tlb.Op := ops.getD k (.flush .all)
    let q : Request := ⟨⟨0x00401004⟩, .read, .supervisor⟩
    (∀ k side v l, op k = .refill side v l → l.isAligned = true) ∧
      ∃ ρ : Tlb.History 2 2 op, (ρ.state 3).peek .data q = some ⟨0xb004⟩ ∧
        ∃ l j a, ρ.Serves 3 .data q l j ∧
          ρ.Appended 3 .data (q.vaddr.pageNumber l.level) l.level a := by
  intro ops op q
  have aligned : ∀ k side v l, op k = .refill side v l → l.isAligned = true := by
    intro k side v l h
    match k with
    | 0 | 1 | 2 =>
      cases h
      decide
    | k + 3 => cases h
  obtain ⟨⟨ρ⟩, h⟩ := hits_are_live_refills 2 2 (by decide) (by decide) op aligned
  have hrun : ((Tlb.new 2 2).bind fun t =>
      Effect.run Tlb.step t ((List.range 3).map op)).toOption.map (fun e => e.state.peek .data q) =
      some (some ⟨0xb004⟩) := by
    decide +kernel
  obtain ⟨events, hr⟩ := Effect.run_range ρ.next 3
  simp only [ρ.start, Except.bind, hr, Except.toOption, Option.map_some, Option.some.injEq] at hrun
  obtain ⟨-, -, hsome, -⟩ := h ρ 3 .data q
  obtain ⟨l, j, a, hserves, ha, -⟩ := (hsome _).mp hrun
  exact ⟨aligned, ρ, hrun, l, j, a, hserves, ha⟩

end Sv32
