import Sv32.Proofs.Fifo
import Sv32.Proofs.LeafRule

/-! # What a refill leaves to its caller

Two things are for the caller of a cache to see to. Pages of different sizes may overlap, and the older
entry answers; and only new entries are checked for alignment, so an update takes any page. -/
namespace Sv32

/-- After a refill every request that its page and rights permit is answered: by the leaf of the refill,
unless older entries of the other size serve it; then by the oldest of these. -/
theorem refilled_page_answers (c : Cache) (v : VirtAddr) (l : Leaf) (aligned : l.isAligned = true) :
    ∃ r d before after, c.refill v l = .ok (r, d) ∧
      d.entries = before ++ ⟨v.pageNumber l.level, l, true⟩ :: after ∧ before.Sublist c.entries ∧
      ∀ q : Request, q.vaddr.pageNumber l.level = v.pageNumber l.level →
        l.rights.permits q.access = true → l.rights.user = (q.privilege == .user) →
        ((∀ e ∈ before, e.leaf.level ≠ l.level → e.serves q = false) →
          d.lookup q = some ⟨l.ppn.val ||| q.vaddr.pageOffset l.level⟩) ∧
        ∀ e, before.find? (·.serves q) = some e →
          e.leaf.level ≠ l.level ∧ d.lookup q = some (e.translate q.vaddr) := by
  obtain ⟨d, hd, hfifo⟩ := c.refill_fifo (v := v) (Or.inl aligned)
  obtain ⟨before, after, hsplit, kept, first⟩ := c.fifo.refill_split v l
  have entries : d.entries = before ++ ⟨v.pageNumber l.level, l, true⟩ :: after :=
    (congrArg Fifo.entries hfifo).trans hsplit
  refine ⟨_, d, before, after, hd, entries, (List.sublist_append_left before after).trans kept, ?_⟩
  intro q page right user
  have own : (⟨v.pageNumber l.level, l, true⟩ : Entry).serves q = true :=
    (Entry.serves_iff _ q).mpr ⟨rfl, page.symm, right, user⟩
  -- an older entry of the same size would be the one that was updated
  have other : ∀ e ∈ before, e.serves q = true → e.leaf.level ≠ l.level := by
    intro e he hs hl
    obtain ⟨hv, hp, -⟩ := (e.serves_iff q).mp hs
    rw [hl, page] at hp
    exact first e he ⟨hv, hl, hp⟩
  have lookup : d.lookup q = ((before.find? (·.serves q)).or
      (some ⟨v.pageNumber l.level, l, true⟩)).map (·.translate q.vaddr) := by
    simp only [Cache.lookup, entries, List.find?_append, List.find?_cons, own]
  refine ⟨?_, ?_⟩
  · intro none
    have unserved : before.find? (·.serves q) = .none := by
      rw [List.find?_eq_none]
      intro e he hs
      rw [none e he (other e he hs)] at hs
      cases hs
    rw [lookup, unserved]
    rfl
  · intro e he
    have serves := List.find?_some he
    refine ⟨other e (List.mem_of_find?_eq_some he) serves, ?_⟩
    rw [lookup, he]
    rfl

theorem refilled_page_answers_past_a_superpage :
    let executable : Leaf := ⟨⟨0x800000⟩, ⟨false, false, true, false⟩, .super⟩
    let old : Leaf := ⟨⟨0x9000⟩, ⟨true, true, false, false⟩, .base⟩
    let l : Leaf := ⟨⟨0xa000⟩, ⟨true, true, true, false⟩, .base⟩
    ∃ c e d, Cache.new 2 = .ok c ∧
      Effect.run Cache.step c [.refill ⟨0x1000⟩ old, .flush .all, .refill ⟨0⟩ executable] = .ok e ∧
      l.isAligned = true ∧ e.state.refill ⟨0x1000⟩ l = .ok (.evicted ⟨0x1000, old, false⟩, d) ∧
      d.lookup ⟨⟨0x1234⟩, .read, .supervisor⟩ = some ⟨0xa234⟩ ∧
      d.lookup ⟨⟨0x1234⟩, .fetch, .supervisor⟩ = some ⟨0x801234⟩ := by
  intro executable old l
  have hrun : ((do
      let c ← Cache.new 2
      let e ← Effect.run Cache.step c [.refill ⟨0x1000⟩ old, .flush .all, .refill ⟨0⟩ executable]
      e.state.refill ⟨0x1000⟩ l : Except Violation (Refill × Cache)).map
        fun s => (s.1, s.2.entries)).toOption =
      some (.evicted ⟨0x1000, old, false⟩, [⟨0, executable, true⟩, ⟨0x1000, l, true⟩]) := by
    decide +kernel
  obtain ⟨⟨_, d⟩, hbind, hview⟩ := eq_ok_of_toOption hrun
  obtain ⟨c, hc, hbind⟩ := bind_eq_ok.mp hbind
  obtain ⟨e, he, hd⟩ := bind_eq_ok.mp hbind
  obtain ⟨rfl, hentries⟩ := Prod.mk.inj hview
  have aligned : l.isAligned = true := by decide
  obtain ⟨_, _, before, after, hd', entries, -, answers⟩ :=
    refilled_page_answers e.state ⟨0x1000⟩ l aligned
  obtain ⟨rfl, rfl⟩ := Prod.mk.inj (Except.ok.inj (hd'.symm.trans hd))
  have hbefore : before = [⟨0, executable, true⟩] := by
    rw [hentries] at entries
    match before with
    | [] => exact absurd (List.cons.inj entries).1 (by decide)
    | [_] => rw [(List.cons.inj entries).1]
    | _ :: _ :: _ => simp at entries
  subst hbefore
  have own := (answers ⟨⟨0x1234⟩, .read, .supervisor⟩ (by decide) (by decide) (by decide)).1 (by decide)
  have older := (answers ⟨⟨0x1234⟩, .fetch, .supervisor⟩ (by decide) (by decide) (by decide)).2
    ⟨0, executable, true⟩ (by decide)
  exact ⟨c, e, _, hc, he, aligned, hd, own.trans (by decide), older.2.trans (by decide)⟩

/-- The page that was refilled last does not answer, though it is aligned and grants the request: the
superpage around it is older. -/
theorem older_superpage_answers_for_newer_page :
    let rights : Rights := ⟨true, true, false, false⟩
    let l : Leaf := ⟨⟨0xa000⟩, rights, .base⟩
    let q : Request := ⟨⟨0x1234⟩, .read, .supervisor⟩
    ∃ c e d, Cache.new 4 = .ok c ∧
      Effect.run Cache.step c [.refill ⟨0⟩ ⟨⟨0x400000⟩, rights, .super⟩] = .ok e ∧
      l.isAligned = true ∧ e.state.refill ⟨0x1000⟩ l = .ok (.inserted, d) ∧
      q.vaddr.pageNumber l.level = VirtAddr.pageNumber ⟨0x1000⟩ l.level ∧
      l.rights.permits q.access = true ∧ l.rights.user = (q.privilege == .user) ∧
      d.lookup q = some ⟨0x401234⟩ ∧ l.ppn.val ||| q.vaddr.pageOffset l.level = 0xa234 := by
  intro rights l q
  have hrun : ((do
      let c ← Cache.new 4
      let e ← Effect.run Cache.step c [.refill ⟨0⟩ ⟨⟨0x400000⟩, rights, .super⟩]
      e.state.refill ⟨0x1000⟩ l : Except Violation (Refill × Cache)).map
        fun s => (s.1, s.2.lookup q)).toOption =
      some (.inserted, some ⟨0x401234⟩) := by
    decide +kernel
  obtain ⟨⟨_, d⟩, hbind, hview⟩ := eq_ok_of_toOption hrun
  obtain ⟨c, hc, hbind⟩ := bind_eq_ok.mp hbind
  obtain ⟨e, he, hd⟩ := bind_eq_ok.mp hbind
  obtain ⟨rfl, hlookup⟩ := Prod.mk.inj hview
  exact ⟨c, e, d, hc, he, by decide, hd, by decide, rfl, rfl, hlookup, by decide⟩

/-- This operation refilled the page of the entry with its leaf, and that came to `r`. -/
def Entry.FilledBy (e : Entry) (op : Cache.Op) (a : Cache.Answer) (r : Refill) : Prop :=
  ∃ v : VirtAddr, op = .refill v e.leaf ∧ v.pageNumber e.leaf.level = e.vpn ∧ a = .refilled r

namespace Cache

variable {c : Cache} {entry : Entry}

theorem step_leaf {op : Op} {e : Effect Cache Answer} (h : c.step op = .ok e)
    (he : entry ∈ e.state.entries) :
    (∃ old ∈ c.entries, entry.vpn = old.vpn ∧ entry.leaf = old.leaf) ∨
      ∃ r, entry.FilledBy op e.answer r ∧ (entry.leaf.isAligned = true ∨ r = .replaced) := by
  have hs := fifo_of_step h
  replace he : entry ∈ e.state.fifo.entries := he
  generalize e.state.fifo = g, e.answer = a at hs he ⊢
  cases op with
  | refill v l =>
    simp only [Fifo.step] at hs
    split at hs
    · cases hs
    · rename_i accepted
      cases hs
      rcases Fifo.mem_refill he with rfl | ⟨he, -⟩
      · refine Or.inr ⟨_, ⟨v, rfl, rfl, rfl⟩, ?_⟩
        rcases c.accepted_of_not_refused accepted with aligned | ⟨old, hold, hm⟩
        · exact Or.inl aligned
        · exact Or.inr (Fifo.refill_eq_replaced hold hm)
      · exact Or.inl ⟨entry, he, rfl, rfl⟩
  | lookup q =>
    cases hs
    exact Or.inl ⟨entry, he, rfl, rfl⟩
  | evict =>
    simp only [Fifo.step] at hs
    split at hs
    · cases hs
    · rename_i oldest rest hf
      cases hs
      have hmem : entry ∈ c.fifo.entries := hf ▸ List.mem_cons_of_mem oldest he
      exact Or.inl ⟨entry, hmem, rfl, rfl⟩
  | flush f =>
    cases hs
    obtain ⟨old, hold, rfl⟩ := List.mem_map.mp he
    exact Or.inl ⟨old, hold, rfl, rfl⟩
  | clear =>
    cases hs
    cases he

theorem run_leaf {ops : List Op} {e : Effect Cache (List Answer)} (h : Effect.run step c ops = .ok e)
    (he : entry ∈ e.state.entries) :
    (∃ old ∈ c.entries, entry.vpn = old.vpn ∧ entry.leaf = old.leaf) ∨
      ∃ (i : Nat) (op : Op) (a : Answer) (r : Refill), ops[i]? = some op ∧ e.answer[i]? = some a ∧
        entry.FilledBy op a r ∧ (entry.leaf.isAligned = true ∨ r = .replaced) := by
  induction ops generalizing c e with
  | nil =>
    cases h
    exact Or.inl ⟨entry, he, rfl, rfl⟩
  | cons op ops ih =>
    obtain ⟨first, rest, hfirst, hrest, rfl⟩ := Effect.run_cons_eq_ok.mp h
    -- the leaf is brought by a later operation, or is there after the first one
    rcases ih hrest he with ⟨old, hold, hvpn, hleaf⟩ | ⟨i, op', a, r, hop, ha, filled⟩
    · rcases step_leaf hfirst hold with ⟨older, holder, hvpn', hleaf'⟩ | ⟨r, filled, aligned⟩
      · exact Or.inl ⟨older, holder, hvpn.trans hvpn', hleaf.trans hleaf'⟩
      · unfold Entry.FilledBy at filled
        rw [← hvpn, ← hleaf] at filled
        rw [← hleaf] at aligned
        exact Or.inr ⟨0, op, first.answer, r, rfl, rfl, filled, aligned⟩
    · exact Or.inr ⟨i + 1, op', a, r, hop, ha, filled⟩

end Cache

/-- On a new cache, under any operations that meet no violation: an entry whose page is not aligned has it
from an update. So where all updates are aligned, a lookup gives out an address in the page of an entry that
serves the request, at the offset that was asked for. -/
theorem only_updates_misalign (capacity : Nat) (h : 0 < capacity) :
    ∃ c, Cache.new capacity = .ok c ∧ ∀ ops e, Effect.run Cache.step c ops = .ok e →
      (∀ entry ∈ e.state.entries, entry.leaf.isAligned = false →
        ∃ (i : Nat) (op : Cache.Op) (a : Cache.Answer), ops[i]? = some op ∧ e.answer[i]? = some a ∧
          entry.FilledBy op a .replaced) ∧
      ((∀ (i : Nat) v l, ops[i]? = some (.refill v l) → e.answer[i]? = some (.refilled .replaced) →
          l.isAligned = true) →
        (∀ entry ∈ e.state.entries, entry.leaf.isAligned = true) ∧
        ∀ q x, e.state.lookup q = some x → ∃ entry ∈ e.state.entries, entry.serves q = true ∧
          x.val &&& ~~~entry.leaf.level.offsetMask = entry.leaf.ppn.val ∧
          x.val &&& entry.leaf.level.offsetMask = q.vaddr.pageOffset entry.leaf.level) := by
  obtain ⟨c, hnew, hc⟩ := Cache.new_fifo h
  refine ⟨c, hnew, ?_⟩
  intro ops e hrun
  have updated : ∀ entry ∈ e.state.entries, entry.leaf.isAligned = false →
      ∃ (i : Nat) (op : Cache.Op) (a : Cache.Answer), ops[i]? = some op ∧ e.answer[i]? = some a ∧
        entry.FilledBy op a .replaced := by
    intro entry he misaligned
    rcases Cache.run_leaf hrun he with ⟨old, hold, -⟩ | ⟨i, op, a, r, hop, ha, filled, aligned | rfl⟩
    · have empty : c.entries = [] := congrArg Fifo.entries hc
      rw [empty] at hold
      cases hold
    · rw [misaligned] at aligned
      cases aligned
    · exact ⟨i, op, a, hop, ha, filled⟩
  refine ⟨updated, ?_⟩
  intro updates
  have aligned : ∀ entry ∈ e.state.entries, entry.leaf.isAligned = true := by
    intro entry he
    cases misaligned : entry.leaf.isAligned with
    | true => rfl
    | false =>
      obtain ⟨i, op, a, hop, ha, v, rfl, -, rfl⟩ := updated entry he misaligned
      exact misaligned.symm.trans (updates i v entry.leaf hop ha)
  refine ⟨aligned, ?_⟩
  intro q x hlookup
  obtain ⟨entry, hfind, rfl⟩ := Option.map_eq_some_iff.mp hlookup
  have he := List.mem_of_find?_eq_some hfind
  have serves := List.find?_some hfind
  exact ⟨entry, he, serves, PhysAddr.splice_parts (aligned entry he) q.vaddr⟩

theorem only_updates_misalign_past_an_eviction :
    let rights : Rights := ⟨true, true, false, false⟩
    let ops : List Cache.Op :=
      [.refill ⟨0⟩ ⟨⟨0x400000⟩, rights, .super⟩, .refill ⟨0x1000⟩ ⟨⟨0xa000⟩, rights, .base⟩,
        .refill ⟨0x1abc⟩ ⟨⟨0xb000⟩, rights, .base⟩, .refill ⟨0x5000⟩ ⟨⟨0xc000⟩, rights, .base⟩]
    let q : Request := ⟨⟨0x1004⟩, .read, .supervisor⟩
    ∃ c e, Cache.new 2 = .ok c ∧ Effect.run Cache.step c ops = .ok e ∧
      (∀ entry ∈ e.state.entries, entry.leaf.isAligned = true) ∧ e.state.lookup q = some ⟨0xb004⟩ ∧
      ∃ entry ∈ e.state.entries, entry.serves q = true ∧
        (0xb004 : Word) &&& ~~~entry.leaf.level.offsetMask = entry.leaf.ppn.val := by
  intro rights ops q
  obtain ⟨c, hc, h⟩ := only_updates_misalign 2 (by decide)
  have hrun : ((Cache.new 2 >>= fun c => Effect.run Cache.step c ops).map fun e =>
      e.state.lookup q).toOption = some (some ⟨0xb004⟩) := by
    decide +kernel
  obtain ⟨e, hbind, hlookup⟩ := eq_ok_of_toOption hrun
  obtain ⟨_, hc', he⟩ := bind_eq_ok.mp hbind
  obtain rfl := Except.ok.inj (hc'.symm.trans hc)
  have updates : ∀ (i : Nat) v l, ops[i]? = some (.refill v l) →
      e.answer[i]? = some (.refilled .replaced) → l.isAligned = true := by
    intro i v l hop _
    match i with
    | 0 | 1 | 2 | 3 =>
      cases hop
      decide
    | i + 4 => cases hop
  obtain ⟨aligned, lookups⟩ := (h ops e he).2 updates
  obtain ⟨entry, hmem, serves, page, -⟩ := lookups q _ hlookup
  exact ⟨_, e, hc, he, aligned, hlookup, entry, hmem, serves, page⟩

/-- The same leaf is refused to a new entry and taken by an update. The address that the page then gives
out has lost the offset that was asked for. -/
theorem update_takes_what_new_refuses :
    let rights : Rights := ⟨true, true, false, false⟩
    let l : Leaf := ⟨⟨0xa123⟩, rights, .base⟩
    let ops : List Cache.Op := [.refill ⟨0x1000⟩ ⟨⟨0xa000⟩, rights, .base⟩, .refill ⟨0x1000⟩ l]
    l.isAligned = false ∧ Entry.new ⟨0x1000⟩ l = .error (.unalignedPage l.ppn l.level) ∧
      ∃ c e, Cache.new 1 = .ok c ∧ Effect.run Cache.step c ops = .ok e ∧
        e.answer = [.refilled .inserted, .refilled .replaced] ∧
        e.state.entries = [⟨0x1000, l, true⟩] ∧
        e.state.lookup ⟨⟨0x1004⟩, .read, .supervisor⟩ = some ⟨0xa127⟩ := by
  intro rights l ops
  have hrun : ((Cache.new 1 >>= fun c => Effect.run Cache.step c ops).map fun e =>
      (e.answer, e.state.entries, e.state.lookup ⟨⟨0x1004⟩, .read, .supervisor⟩)).toOption =
      some ([.refilled .inserted, .refilled .replaced], [⟨0x1000, l, true⟩], some ⟨0xa127⟩) := by
    decide +kernel
  obtain ⟨e, hbind, hview⟩ := eq_ok_of_toOption hrun
  obtain ⟨c, hc, he⟩ := bind_eq_ok.mp hbind
  obtain ⟨answers, hview⟩ := Prod.mk.inj hview
  obtain ⟨entries, lookup⟩ := Prod.mk.inj hview
  exact ⟨by decide, if_neg (by decide), c, e, hc, he, answers, entries, lookup⟩

end Sv32
