import Sv32.Proofs.Fifo

/-! # Who makes room

A flush reaches all entries that are there, an update leaves its entry valid, and new ones come in behind.
So the dead stand in front of the living, and the oldest entry, which makes room, is dead as long as any is.
-/
namespace Sv32

namespace Fifo

/-- No entry that is valid stands before one that is not. -/
def DeadFirst (es : List Entry) : Prop :=
  es.Pairwise fun older newer => older.valid = true → newer.valid = true

/-- The dead stand before the living, and every entry is filed under the first address of its page. -/
structure Aged (f : Fifo) : Prop where
  order : DeadFirst f.entries
  tags : ∀ e ∈ f.entries, e.vpn &&& e.leaf.level.offsetMask = 0

variable {f g : Fifo} {es before after : List Entry} {old new : Entry}

theorem DeadFirst.snoc (h : DeadFirst es) (hnew : new.valid = true) : DeadFirst (es ++ [new]) := by
  refine List.pairwise_append.mpr ⟨h, List.pairwise_singleton _ _, ?_⟩
  intro older _ newer hnewer _
  rw [List.mem_singleton.mp hnewer]
  exact hnew

theorem DeadFirst.update (h : DeadFirst (before ++ old :: after)) (hold : old.valid = true)
    (hnew : new.valid = true) : DeadFirst (before ++ new :: after) := by
  obtain ⟨hbefore, hrest, across⟩ := List.pairwise_append.mp h
  obtain ⟨behind, hafter⟩ := List.pairwise_cons.mp hrest
  refine List.pairwise_append.mpr ⟨hbefore, List.pairwise_cons.mpr ⟨?_, hafter⟩, ?_⟩
  · intro newer hn _
    exact behind newer hn hold
  · intro older ho newer hn hv
    rcases List.mem_cons.mp hn with rfl | hn
    · exact hnew
    · exact across older ho newer (List.mem_cons_of_mem old hn) hv

theorem DeadFirst.split (h : DeadFirst es) :
    ∃ dead live, es = dead ++ live ∧ (∀ e ∈ dead, e.valid = false) ∧ ∀ e ∈ live, e.valid = true := by
  induction es with
  | nil => exact ⟨[], [], rfl, nofun, nofun⟩
  | cons e es ih =>
    obtain ⟨behind, hes⟩ := List.pairwise_cons.mp h
    by_cases hv : e.valid = true
    · exact ⟨[], e :: es, rfl, nofun, List.forall_mem_cons.mpr ⟨hv, fun e' he => behind e' he hv⟩⟩
    · obtain ⟨dead, live, rfl, hdead, hlive⟩ := ih hes
      exact ⟨e :: dead, live, rfl, List.forall_mem_cons.mpr ⟨Bool.of_not_eq_true hv, hdead⟩, hlive⟩

theorem initial_aged (capacity : Nat) : (initial capacity).Aged :=
  ⟨.nil, nofun⟩

theorem refill_aged (h : f.Aged) (v : VirtAddr) (l : Leaf) : (f.refill v l).2.Aged := by
  constructor
  · have hr := f.refill_cases v l
    have order := h.order
    generalize (f.refill v l).1 = r, (f.refill v l).2.entries = es at hr ⊢
    cases hr with
    | replaced split maps =>
      rw [split] at order
      exact order.update maps.1 rfl
    | inserted absent room => exact order.snoc rfl
    | evicted split absent =>
      rw [split] at order
      have rest := (List.pairwise_cons.mp order).2
      exact DeadFirst.snoc rest rfl
  · intro e he
    rcases mem_refill he with rfl | ⟨he, -⟩
    · exact v.pageNumber_and_offsetMask l.level
    · exact h.tags e he

theorem flush_aged (h : f.Aged) : f.flush.Aged := by
  constructor
  · refine List.pairwise_map.mpr (List.pairwise_of_forall ?_)
    intro older newer hv
    cases hv
  · intro e he
    obtain ⟨old, hold, rfl⟩ := List.mem_map.mp he
    exact h.tags old hold

theorem step_aged {op : Cache.Op} {a : Cache.Answer} (h : f.Aged) (hs : f.step op = .ok (a, g)) :
    g.Aged := by
  cases op with
  | refill v l =>
    simp only [step] at hs
    split at hs
    · cases hs
    · cases hs
      exact refill_aged h v l
  | lookup q =>
    cases hs
    exact h
  | evict =>
    simp only [step] at hs
    split at hs
    · cases hs
    · rename_i old rest hf
      cases hs
      have order := h.order
      rw [hf] at order
      refine ⟨(List.pairwise_cons.mp order).2, ?_⟩
      intro e he
      exact h.tags e (hf ▸ List.mem_cons_of_mem old he)
  | flush fence =>
    cases hs
    exact flush_aged h
  | clear =>
    cases hs
    exact initial_aged f.capacity

theorem Aged.victim (h : f.Aged) {v : VirtAddr} {l : Leaf} (he : (f.refill v l).1 = .evicted old)
    (hv : old.valid = true) : ∀ e ∈ f.entries, e.valid = true := by
  have hr := f.refill_cases v l
  have order := h.order
  rw [he] at hr
  generalize (f.refill v l).2.entries = es at hr
  cases hr with
  | evicted split absent =>
    rw [split] at order ⊢
    refine List.forall_mem_cons.mpr ⟨hv, ?_⟩
    intro e he
    exact (List.pairwise_cons.mp order).1 e he hv

/-- Entries that cover an address at one level would all map the same page. -/
theorem countP_covers_le_one {es : List Entry} {v : VirtAddr} {level : PageLevel}
    (hd : (pages es).Nodup) (hl : ∀ e ∈ es, e.covers v = true → e.leaf.level = level) :
    es.countP (·.covers v) ≤ 1 := by
  have hvalid : es.filter (·.covers v) = (es.filter (·.valid)).filter (·.covers v) := by
    rw [List.filter_filter]
    refine List.filter_congr ?_
    intro e _
    simp only [Entry.covers]
    cases e.valid <;> simp
  have hs := (List.filter_sublist (p := (·.covers v)) (l := es.filter (·.valid))).map
    fun e => (e.vpn, e.leaf.level)
  rw [← hvalid] at hs
  have hsame : (es.filter (·.covers v)).map (fun e => (e.vpn, e.leaf.level)) =
      List.replicate (es.countP (·.covers v)) (v.pageNumber level, level) := by
    rw [List.eq_replicate_iff, List.length_map, List.countP_eq_length_filter]
    refine ⟨rfl, ?_⟩
    intro page hpage
    obtain ⟨e, he, rfl⟩ := List.mem_map.mp hpage
    obtain ⟨he, hc⟩ := List.mem_filter.mp he
    rw [← hl e he hc, ((e.covers_iff v).mp hc).2]
  rw [hsame] at hs
  exact List.nodup_replicate.mp (hd.sublist hs)

theorem countP_covers_level (hd : (pages es).Nodup) (v : VirtAddr) (level : PageLevel) :
    es.countP (fun e => e.covers v && e.leaf.level == level) ≤ 1 := by
  rw [← List.countP_filter]
  refine @countP_covers_le_one _ v level ?_ ?_
  · exact hd.sublist ((List.filter_sublist.filter _).map _)
  · intro e he _
    exact beq_iff_eq.mp (List.mem_filter.mp he).2

theorem pages_of_split {dead live : List Entry} (hdead : ∀ e ∈ dead, e.valid = false)
    (hlive : ∀ e ∈ live, e.valid = true) :
    pages (dead ++ live) = live.map fun e => (e.vpn, e.leaf.level) := by
  have none : dead.filter (·.valid) = [] := by
    apply List.filter_eq_nil_iff.mpr
    intro e he
    simp [hdead e he]
  rw [pages, List.filter_append, none, List.filter_eq_self.mpr hlive, List.nil_append]

theorem Maps.serves_eq_false {vpn : Word} {level : PageLevel} {e : Entry} {q : Request}
    (h : Maps vpn level e) (outside : q.vaddr.pageNumber level ≠ vpn) : e.serves q = false := by
  obtain ⟨-, rfl, rfl⟩ := h
  apply Bool.of_not_eq_true
  intro hs
  exact outside ((e.serves_iff q).mp hs).2.1.symm

theorem Refilled.find? {vpn : Word} {l : Leaf} {r : Refill} {es : List Entry} {q : Request}
    (h : Refilled f vpn l r es) (outside : q.vaddr.pageNumber l.level ≠ vpn) :
    ((∀ old, r ≠ .evicted old) → es.find? (·.serves q) = f.entries.find? (·.serves q)) ∧
      ∀ old, r = .evicted old →
        ∃ others, f.entries = old :: others ∧ es.find? (·.serves q) = others.find? (·.serves q) := by
  have maps : Maps vpn l.level ⟨vpn, l, true⟩ := ⟨rfl, rfl, rfl⟩
  have own := maps.serves_eq_false outside
  have appended (es : List Entry) :
      List.find? (·.serves q) (es ++ [⟨vpn, l, true⟩]) = es.find? (·.serves q) := by
    rw [List.find?_append, List.find?_cons, own]
    exact Option.or_none
  cases h with
  | replaced split maps =>
    refine ⟨?_, nofun⟩
    intro _
    rw [split, List.find?_append, List.find?_append, List.find?_cons, List.find?_cons, own,
      maps.serves_eq_false outside]
  | inserted absent room => exact ⟨fun _ => appended f.entries, nofun⟩
  | @evicted old rest split absent =>
    refine ⟨fun hr => absurd rfl (hr old), ?_⟩
    rintro _ ⟨rfl⟩
    exact ⟨rest, split, appended rest⟩

end Fifo

theorem Cache.run_aged {c : Cache} {ops : List Op} {e : Effect Cache (List Answer)}
    (h : c.fifo.Invariant ∧ c.fifo.Aged) (hrun : Effect.run step c ops = .ok e) :
    e.state.fifo.Invariant ∧ e.state.fifo.Aged := by
  refine Effect.run_invariant (P := fun c => c.fifo.Invariant ∧ c.fifo.Aged) ?_ h hrun
  rintro c op e ⟨hinv, haged⟩ hstep
  have hs := fifo_of_step hstep
  exact ⟨(Fifo.step_preserves c.ring.capacity_pos hinv hs).2, Fifo.step_aged haged hs⟩

/-- On a new cache, under any operations that meet no violation: dead entries come first and live ones, of
different pages, behind them. So a refill pushes out a live entry only where all are alive. -/
theorem dead_entries_make_room_first (capacity : Nat) (h : 0 < capacity) :
    ∃ c, Cache.new capacity = .ok c ∧ ∀ ops e, Effect.run Cache.step c ops = .ok e →
      (∃ dead live, e.state.entries = dead ++ live ∧ (∀ entry ∈ dead, entry.valid = false) ∧
        (∀ entry ∈ live, entry.valid = true) ∧
        (live.map fun entry => (entry.vpn, entry.leaf.level)).Nodup ∧
        ∀ entry ∈ live, entry.vpn &&& entry.leaf.level.offsetMask = 0) ∧
      (∀ v l victim d, e.state.refill v l = .ok (.evicted victim, d) → victim.valid = true →
        ∀ entry ∈ e.state.entries, entry.valid = true) ∧
      ∀ v level, e.state.entries.countP (fun entry => entry.covers v && entry.leaf.level == level) ≤ 1 := by
  obtain ⟨c, hnew, hc⟩ := Cache.new_fifo h
  refine ⟨c, hnew, ?_⟩
  intro ops e hrun
  have start : c.fifo.Invariant ∧ c.fifo.Aged := by
    rw [hc]
    exact ⟨Fifo.initial_invariant capacity, Fifo.initial_aged capacity⟩
  obtain ⟨hinv, haged⟩ := Cache.run_aged start hrun
  refine ⟨?_, ?_, Fifo.countP_covers_level hinv.distinct⟩
  · obtain ⟨dead, live, split, hdead, hlive⟩ := haged.order.split
    have distinct := hinv.distinct
    rw [split, Fifo.pages_of_split hdead hlive] at distinct
    refine ⟨dead, live, split, hdead, hlive, distinct, ?_⟩
    intro entry he
    apply haged.tags
    rw [split]
    exact List.mem_append_right dead he
  · intro v l victim d hrefill
    exact haged.victim (congrArg Prod.fst (Cache.fifo_of_refill hrefill))

theorem dead_entries_make_room_first_around_three_slots :
    let leaf (ppn : Word) (level : PageLevel) : Leaf := ⟨⟨ppn⟩, ⟨true, false, false, false⟩, level⟩
    let ops : List Cache.Op :=
      [.refill ⟨0x1000⟩ (leaf 0xa000 .base), .refill ⟨0x2000⟩ (leaf 0xb000 .base), .flush .all,
        .refill ⟨0x1abc⟩ (leaf 0xc000 .base), .refill ⟨0x1abc⟩ (leaf 0x400000 .super)]
    ∃ c e f victim d, Cache.new 3 = .ok c ∧ Effect.run Cache.step c ops = .ok e ∧
      e.state.entries.map (·.valid) = [false, true, true] ∧
      (∃ dead live, e.state.entries = dead ++ live ∧ (∀ entry ∈ dead, entry.valid = false) ∧
        ∀ entry ∈ live, entry.valid = true) ∧
      e.state.entries.countP (·.covers ⟨0x1234⟩) = 2 ∧
      e.state.entries.countP (fun entry => entry.covers ⟨0x1234⟩ && entry.leaf.level == .base) ≤ 1 ∧
      Effect.run Cache.step c (ops ++ [.refill ⟨0x3000⟩ (leaf 0xd000 .base)]) = .ok f ∧
      f.state.refill ⟨0x4000⟩ (leaf 0xe000 .base) = .ok (.evicted victim, d) ∧ victim.valid = true ∧
      ∀ entry ∈ f.state.entries, entry.valid = true := by
  intro leaf ops
  have hrun : ((do
      let c ← Cache.new 3
      let e ← Effect.run Cache.step c ops
      let f ← Effect.run Cache.step c (ops ++ [.refill ⟨0x3000⟩ (leaf 0xd000 .base)])
      let r ← f.state.refill ⟨0x4000⟩ (leaf 0xe000 .base)
      return (c, e, f, r) : Except Violation _).map fun s => (s.2.1.state.entries.map (·.valid),
        s.2.1.state.entries.countP (·.covers ⟨0x1234⟩), s.2.2.2.1)).toOption =
      some ([false, true, true], 2, .evicted ⟨0x1000, leaf 0xc000 .base, true⟩) := by
    decide +kernel
  obtain ⟨⟨c, e, f, r, d⟩, hbind, hview⟩ := eq_ok_of_toOption hrun
  obtain ⟨c, hc, hbind⟩ := bind_eq_ok.mp hbind
  obtain ⟨e, he, hbind⟩ := bind_eq_ok.mp hbind
  obtain ⟨f, hf, hbind⟩ := bind_eq_ok.mp hbind
  obtain ⟨⟨r, d⟩, hd, hbind⟩ := bind_eq_ok.mp hbind
  cases hbind
  obtain ⟨hvalid, hview⟩ := Prod.mk.inj hview
  obtain ⟨hcount, rfl⟩ := Prod.mk.inj hview
  obtain ⟨c', hc', h⟩ := dead_entries_make_room_first 3 (by decide)
  obtain rfl := Except.ok.inj (hc.symm.trans hc')
  obtain ⟨⟨dead, live, split, hdead, hlive, -⟩, -, one⟩ := h ops e he
  obtain ⟨-, alive, -⟩ := h _ f hf
  exact ⟨c, e, f, _, d, hc, he, hvalid, ⟨dead, live, split, hdead, hlive⟩, hcount, one _ _, hf, hd, rfl,
    alive _ _ _ _ hd rfl⟩

/-- A refill leaves every request for an address of another page as it was, unless it has pushed out the
entry that served it. That was the oldest one, and the next that serves the request answers from now on. -/
theorem refill_disturbs_no_other_page (c : Cache) (v : VirtAddr) (l : Leaf) (aligned : l.isAligned = true) :
    ∃ r d, c.refill v l = .ok (r, d) ∧
      ∀ q : Request, q.vaddr.pageNumber l.level ≠ v.pageNumber l.level →
        ((∀ victim, r = .evicted victim → victim.serves q = false) → d.lookup q = c.lookup q) ∧
        ∀ victim, r = .evicted victim → victim.serves q = true →
          c.lookup q = some (victim.translate q.vaddr) ∧
          ∃ others, c.entries = victim :: others ∧
            d.lookup q = (others.find? (·.serves q)).map (·.translate q.vaddr) := by
  obtain ⟨d, hd, hfifo⟩ := c.refill_fifo (v := v) (Or.inl aligned)
  refine ⟨_, d, hd, ?_⟩
  intro q outside
  have hcases := c.fifo.refill_cases v l
  rw [← hfifo] at hcases
  obtain ⟨kept, pushed⟩ := hcases.find? outside
  generalize (c.fifo.refill v l).1 = r at kept pushed
  have shifted : ∀ victim, r = .evicted victim → ∃ others, c.entries = victim :: others ∧
      d.lookup q = (others.find? (·.serves q)).map (·.translate q.vaddr) := by
    intro victim hr
    obtain ⟨others, split, hfind⟩ := pushed victim hr
    exact ⟨others, split, congrArg (Option.map _) hfind⟩
  refine ⟨?_, ?_⟩
  · intro useless
    by_cases hr : ∃ victim, r = .evicted victim
    · obtain ⟨victim, hr⟩ := hr
      obtain ⟨others, split, hlookup⟩ := shifted victim hr
      rw [hlookup, Cache.lookup, split, List.find?_cons, useless victim hr]
    · exact congrArg (Option.map _) (kept fun victim h => hr ⟨victim, h⟩)
  · intro victim hr serves
    obtain ⟨others, split, hlookup⟩ := shifted victim hr
    refine ⟨?_, others, split, hlookup⟩
    rw [Cache.lookup, split, List.find?_cons, serves]
    rfl

theorem refill_disturbs_no_other_page_but_the_oldest :
    let rights : Rights := ⟨true, false, false, false⟩
    let superpage : Entry := ⟨0, ⟨⟨0x400000⟩, rights, .super⟩, true⟩
    let base : Entry := ⟨0x1000, ⟨⟨0xa000⟩, rights, .base⟩, true⟩
    let l : Leaf := ⟨⟨0xb000⟩, rights, .base⟩
    let q : Request := ⟨⟨0x1234⟩, .read, .supervisor⟩
    ∃ c e d, Cache.new 2 = .ok c ∧
      Effect.run Cache.step c [.refill ⟨0⟩ superpage.leaf, .refill ⟨0x1000⟩ base.leaf] = .ok e ∧
      l.isAligned = true ∧ e.state.refill ⟨0x5000⟩ l = .ok (.evicted superpage, d) ∧
      q.vaddr.pageNumber l.level ≠ VirtAddr.pageNumber ⟨0x5000⟩ l.level ∧
      e.state.lookup q = some ⟨0x401234⟩ ∧ d.lookup q = some ⟨0xa234⟩ ∧
      d.lookup { q with access := .write } = e.state.lookup { q with access := .write } := by
  intro rights superpage base l q
  have hrun : ((do
      let c ← Cache.new 2
      let e ← Effect.run Cache.step c [.refill ⟨0⟩ superpage.leaf, .refill ⟨0x1000⟩ base.leaf]
      let r ← e.state.refill ⟨0x5000⟩ l
      return (c, e, r) : Except Violation _).map fun s => (s.2.1.state.entries, s.2.2.1)).toOption =
      some ([superpage, base], .evicted superpage) := by
    decide +kernel
  obtain ⟨⟨c, e, r, d⟩, hbind, hview⟩ := eq_ok_of_toOption hrun
  obtain ⟨c, hc, hbind⟩ := bind_eq_ok.mp hbind
  obtain ⟨e, he, hbind⟩ := bind_eq_ok.mp hbind
  obtain ⟨⟨r, d⟩, hd, hbind⟩ := bind_eq_ok.mp hbind
  cases hbind
  obtain ⟨hentries, rfl⟩ := Prod.mk.inj hview
  have aligned : l.isAligned = true := by decide
  obtain ⟨_, _, hd', h⟩ := refill_disturbs_no_other_page e.state ⟨0x5000⟩ l aligned
  obtain ⟨rfl, rfl⟩ := Prod.mk.inj (Except.ok.inj (hd'.symm.trans hd))
  obtain ⟨-, pushed⟩ := h q (by decide)
  obtain ⟨hbefore, others, split, hafter⟩ := pushed superpage rfl (by decide)
  obtain ⟨kept, -⟩ := h { q with access := .write } (by decide)
  obtain rfl : others = [base] := (List.cons.inj (split.symm.trans hentries)).2
  refine ⟨c, e, _, hc, he, aligned, hd, by decide, hbefore.trans (by decide), hafter.trans (by decide), ?_⟩
  apply kept
  rintro _ ⟨rfl⟩
  decide

end Sv32
