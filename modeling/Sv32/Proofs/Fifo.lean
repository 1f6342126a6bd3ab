import Sv32.Tlb.Cache

/-! # Caches as bounded lists

A cache is specified by the list of its resident entries, oldest first, and a bound on their number. The
ring is never seen: where its head stands and what its free slots hold changes no answer. -/
namespace Sv32

/-- What a caller sees of a cache between two operations. -/
structure View where
  entries : List Entry
  size : Nat
  validSize : Nat
  isEmpty : Bool
  isFull : Bool
  deriving DecidableEq, Repr

def Cache.view (c : Cache) : View := ⟨c.entries, c.size, c.validSize, c.isEmpty, c.isFull⟩

def Cache.watch (c : Cache) (op : Cache.Op) : Except Violation (Effect Cache (Cache.Answer × View)) :=
  (c.step op).map fun e => ⟨(e.answer, e.state.view), e.state, e.events⟩

structure Fifo where
  capacity : Nat
  entries : List Entry
  deriving DecidableEq, Repr

def Cache.fifo (c : Cache) : Fifo := ⟨c.capacity, c.entries⟩

namespace Fifo

def initial (capacity : Nat) : Fifo := ⟨capacity, []⟩

def view (f : Fifo) : View where
  entries := f.entries
  size := f.entries.length
  validSize := (f.entries.filter (·.valid)).length
  isEmpty := f.entries.isEmpty
  isFull := f.entries.length == f.capacity

def Maps (vpn : Word) (level : PageLevel) (e : Entry) : Prop :=
  e.valid = true ∧ e.leaf.level = level ∧ e.vpn = vpn

instance (vpn : Word) (level : PageLevel) (e : Entry) : Decidable (Maps vpn level e) :=
  inferInstanceAs (Decidable (_ ∧ _ ∧ _))

/-- Gives the physical page and the rights of `l` to the entry that maps its page, if there is one. -/
def replace (vpn : Word) (l : Leaf) : List Entry → Option (List Entry)
  | [] => none
  | e :: es =>
    if Maps vpn l.level e then
      some ({ e with leaf := { e.leaf with ppn := l.ppn, rights := l.rights } } :: es)
    else (replace vpn l es).map (e :: ·)

/-- A full list loses its head to a new entry. -/
def append (f : Fifo) (e : Entry) : Refill × Fifo :=
  match f.entries with
  | [] => (.inserted, { f with entries := [e] })
  | old :: rest =>
    if f.entries.length = f.capacity then (.evicted old, { f with entries := rest ++ [e] })
    else (.inserted, { f with entries := old :: rest ++ [e] })

def refill (f : Fifo) (v : VirtAddr) (l : Leaf) : Refill × Fifo :=
  match replace (v.pageNumber l.level) l f.entries with
  | some es => (.replaced, { f with entries := es })
  | none => f.append ⟨v.pageNumber l.level, l, true⟩

def flush (f : Fifo) : Fifo :=
  { f with entries := f.entries.map fun e => { e with valid := false } }

/-- Only the eviction of an empty list and a new entry of a page that is not aligned go wrong. -/
def step (f : Fifo) : Cache.Op → Except Violation (Cache.Answer × Fifo)
  | .refill v l =>
    if l.isAligned = false ∧ ∀ e ∈ f.entries, ¬ Maps (v.pageNumber l.level) l.level e then
      .error (.unalignedPage l.ppn l.level)
    else .ok (.refilled (f.refill v l).1, (f.refill v l).2)
  | .lookup q =>
    let found := f.entries.find? fun e => e.covers q.vaddr && e.permits q.access q.privilege
    .ok (.found (found.map (·.translate q.vaddr)), f)
  | .evict =>
    match f.entries with
    | [] => .error .evictFromEmpty
    | old :: rest => .ok (.evicted old, { f with entries := rest })
  | .flush _ => .ok (.flushed (f.entries.filter (·.valid)).length, f.flush)
  | .clear => .ok (.cleared, { f with entries := [] })

def run (f : Fifo) : List Cache.Op → Except Violation (List (Cache.Answer × View) × Fifo)
  | [] => .ok ([], f)
  | op :: ops => do
    let (a, g) ← f.step op
    let (seen, last) ← g.run ops
    return ((a, g.view) :: seen, last)

def permits (f : Fifo) : Cache.Op → Bool
  | .refill _ l => l.isAligned
  | .evict => !f.entries.isEmpty
  | _ => true

def legal (f : Fifo) : List Cache.Op → Bool
  | [] => true
  | op :: ops => f.permits op && match f.step op with
    | .ok (_, g) => g.legal ops
    | .error _ => false

def pages (es : List Entry) : List (Word × PageLevel) :=
  (es.filter (·.valid)).map fun e => (e.vpn, e.leaf.level)

structure Invariant (f : Fifo) : Prop where
  bounded : f.entries.length ≤ f.capacity
  distinct : (pages f.entries).Nodup

theorem maps_iff_holds (vpn : Word) (level : PageLevel) (e : Entry) :
    Maps vpn level e ↔ e.holds vpn level = true := by
  simp [Maps, Entry.holds, and_assoc]

theorem replace_eq_modify (vpn : Word) (l : Leaf) (es : List Entry) :
    replace vpn l es =
      (es.findIdx? (·.holds vpn l.level)).map fun i => es.modify i (·.update l) := by
  induction es with
  | nil => rfl
  | cons e es ih =>
    rw [replace, List.findIdx?_cons]
    by_cases h : Maps vpn l.level e
    · rw [if_pos h, if_pos ((maps_iff_holds ..).mp h)]
      rfl
    · rw [if_neg h, if_neg (fun k => h ((maps_iff_holds ..).mpr k)), ih]
      cases es.findIdx? (·.holds vpn l.level) <;> rfl

theorem replace_eq_none {vpn : Word} {l : Leaf} {es : List Entry} :
    replace vpn l es = none ↔ ∀ e ∈ es, ¬ Maps vpn l.level e := by
  rw [replace_eq_modify, Option.map_eq_none_iff, List.findIdx?_eq_none_iff]
  simp only [maps_iff_holds, Bool.not_eq_true]

theorem mem_pages {vpn : Word} {level : PageLevel} {es : List Entry} :
    (vpn, level) ∈ pages es ↔ ∃ e ∈ es, Maps vpn level e := by
  simp only [pages, List.mem_map, List.mem_filter, Prod.mk.injEq, Maps]
  constructor
  · rintro ⟨e, ⟨he, hv⟩, hp, hl⟩
    exact ⟨e, he, hv, hl, hp⟩
  · rintro ⟨e, he, hv, hl, hp⟩
    exact ⟨e, ⟨he, hv⟩, hp, hl⟩

theorem pages_append (es fs : List Entry) : pages (es ++ fs) = pages es ++ pages fs := by
  simp [pages]

theorem pages_cons (e : Entry) (es : List Entry) :
    pages (e :: es) = if e.valid then (e.vpn, e.leaf.level) :: pages es else pages es := by
  cases h : e.valid <;> simp [pages, h]

theorem pages_tail_sublist (e : Entry) (es : List Entry) : (pages es).Sublist (pages (e :: es)) :=
  ((List.sublist_cons_self e es).filter _).map _

theorem replace_eq_some_iff {vpn : Word} {l : Leaf} {es fs : List Entry} :
    replace vpn l es = some fs ↔
      ∃ before old after, es = before ++ old :: after ∧ (∀ e ∈ before, ¬ Maps vpn l.level e) ∧
        Maps vpn l.level old ∧ fs = before ++ ⟨vpn, l, true⟩ :: after := by
  constructor
  · intro h
    induction es generalizing fs with
    | nil => cases h
    | cons e es ih =>
      rw [replace] at h
      split at h
      · rename_i hm
        obtain ⟨hv, hl, hp⟩ := hm
        cases h
        refine ⟨[], e, es, rfl, nofun, ⟨hv, hl, hp⟩, ?_⟩
        simp only [hv, hl, hp, List.nil_append]
      · rename_i hn
        obtain ⟨gs, hg, rfl⟩ := Option.map_eq_some_iff.mp h
        obtain ⟨before, old, after, rfl, first, hm, rfl⟩ := ih hg
        exact ⟨e :: before, old, after, rfl, List.forall_mem_cons.mpr ⟨hn, first⟩, hm, rfl⟩
  · rintro ⟨before, old, after, rfl, first, hm, rfl⟩
    induction before with
    | nil =>
      rw [List.nil_append, replace, if_pos hm]
      obtain ⟨hv, hl, hp⟩ := hm
      simp only [hv, hl, hp, List.nil_append]
    | cons e before ih =>
      obtain ⟨hn, first⟩ := List.forall_mem_cons.mp first
      rw [List.cons_append, replace, if_neg hn, ih first]
      rfl

/-- All that a refill can do: update the entry of the page, or, where there is none, append one, which
may push out the oldest. -/
inductive Refilled (f : Fifo) (vpn : Word) (l : Leaf) : Refill → List Entry → Prop where
  | replaced {before after : List Entry} {old : Entry} (split : f.entries = before ++ old :: after)
      (maps : Maps vpn l.level old) : Refilled f vpn l .replaced (before ++ ⟨vpn, l, true⟩ :: after)
  | inserted (absent : ∀ e ∈ f.entries, ¬ Maps vpn l.level e)
      (room : f.entries = [] ∨ f.entries.length ≠ f.capacity) :
      Refilled f vpn l .inserted (f.entries ++ [⟨vpn, l, true⟩])
  | evicted {old : Entry} {rest : List Entry} (split : f.entries = old :: rest)
      (absent : ∀ e ∈ f.entries, ¬ Maps vpn l.level e) :
      Refilled f vpn l (.evicted old) (rest ++ [⟨vpn, l, true⟩])

theorem refill_cases (f : Fifo) (v : VirtAddr) (l : Leaf) :
    Refilled f (v.pageNumber l.level) l (f.refill v l).1 (f.refill v l).2.entries := by
  unfold refill
  split
  · rename_i es hr
    obtain ⟨before, old, after, hes, -, hm, rfl⟩ := replace_eq_some_iff.mp hr
    exact .replaced hes hm
  · rename_i hr
    have absent := replace_eq_none.mp hr
    unfold append
    split
    · rename_i hes
      have h := Refilled.inserted absent (Or.inl hes)
      rw [hes] at h
      exact h
    · rename_i old rest hes
      split
      · exact .evicted hes absent
      · rename_i room
        have h := Refilled.inserted absent (Or.inr room)
        rw [hes] at h
        exact h

theorem refill_eq_replaced {f : Fifo} {v : VirtAddr} {l : Leaf} {e : Entry} (he : e ∈ f.entries)
    (hm : Maps (v.pageNumber l.level) l.level e) : (f.refill v l).1 = .replaced := by
  have h := f.refill_cases v l
  generalize (f.refill v l).1 = r, (f.refill v l).2.entries = es at h ⊢
  cases h with
  | replaced => rfl
  | inserted absent | evicted _ absent => exact absurd hm (absent e he)

/-- Where a refill puts its leaf: behind entries of other pages only, and among entries that were there. -/
theorem refill_split (f : Fifo) (v : VirtAddr) (l : Leaf) :
    ∃ before after, (f.refill v l).2.entries = before ++ ⟨v.pageNumber l.level, l, true⟩ :: after ∧
      (before ++ after).Sublist f.entries ∧
      ∀ e ∈ before, ¬ Maps (v.pageNumber l.level) l.level e := by
  cases hr : replace (v.pageNumber l.level) l f.entries with
  | some es =>
    obtain ⟨before, old, after, hes, first, -, rfl⟩ := replace_eq_some_iff.mp hr
    refine ⟨before, after, by simp only [refill, hr], ?_, first⟩
    rw [hes]
    exact (List.sublist_cons_self old after).append_left before
  | none =>
    have absent := replace_eq_none.mp hr
    have h := f.refill_cases v l
    generalize (f.refill v l).1 = r, (f.refill v l).2.entries = es at h ⊢
    cases h with
    | replaced split maps =>
      rw [split] at absent
      exact absurd maps (absent _ (List.mem_append_right _ List.mem_cons_self))
    | inserted => exact ⟨f.entries, [], rfl, by simp, absent⟩
    | @evicted old rest split =>
      rw [split] at absent ⊢
      refine ⟨rest, [], rfl, ?_, fun e he => absent e (List.mem_cons_of_mem old he)⟩
      rw [List.append_nil]
      exact List.sublist_cons_self old rest

theorem refill_refill (f : Fifo) (v : VirtAddr) (l : Leaf) :
    (f.refill v l).2.refill v l = (.replaced, (f.refill v l).2) := by
  obtain ⟨before, after, hes, -, first⟩ := f.refill_split v l
  have hr : replace (v.pageNumber l.level) l (f.refill v l).2.entries =
      some (f.refill v l).2.entries := by
    rw [hes]
    exact replace_eq_some_iff.mpr ⟨before, _, after, rfl, first, ⟨rfl, rfl, rfl⟩, rfl⟩
  generalize (f.refill v l).2 = g at hr ⊢
  simp only [refill, hr]

theorem find?_refill {f : Fifo} {q : Request} (missed : ∀ e ∈ f.entries, e.serves q = false)
    (v : VirtAddr) (l : Leaf) :
    (f.refill v l).2.entries.find? (·.serves q) =
      if (⟨v.pageNumber l.level, l, true⟩ : Entry).serves q then
        some ⟨v.pageNumber l.level, l, true⟩
      else none := by
  obtain ⟨before, after, hsplit, kept, -⟩ := f.refill_split v l
  have absent : ∀ {es : List Entry}, es ⊆ before ++ after → es.find? (·.serves q) = none := by
    intro es hes
    apply List.find?_eq_none.mpr
    intro e he
    rw [missed e (kept.subset (hes he))]
    exact Bool.false_ne_true
  rw [hsplit, List.find?_append, absent (List.subset_append_left before after), Option.none_or,
    List.find?_cons, absent (List.subset_append_right before after)]
  cases (⟨v.pageNumber l.level, l, true⟩ : Entry).serves q <;> rfl

/-- Where pages are distinct, no other entry maps the page of a valid one. -/
theorem absent_of_nodup {before after : List Entry} {old : Entry} {vpn : Word} {level : PageLevel}
    (hd : (pages (before ++ old :: after)).Nodup) (hm : Maps vpn level old) {e : Entry}
    (he : e ∈ before ∨ e ∈ after) : ¬ Maps vpn level e := by
  obtain ⟨hv, rfl, rfl⟩ := hm
  rw [pages_append, pages_cons, if_pos hv, List.perm_middle.nodup_iff, ← pages_append] at hd
  intro hm
  exact (List.nodup_cons.mp hd).1 (mem_pages.mpr ⟨e, List.mem_append.mpr he, hm⟩)

theorem refill_of_mem {f : Fifo} {v : VirtAddr} {l : Leaf} {e : Entry} (hd : (pages f.entries).Nodup)
    (he : e ∈ f.entries) (hm : Maps (v.pageNumber l.level) l.level e) :
    ∃ before after, f.entries = before ++ e :: after ∧
      f.refill v l =
        (.replaced, { f with entries := before ++ ⟨v.pageNumber l.level, l, true⟩ :: after }) := by
  obtain ⟨before, after, hes⟩ := List.append_of_mem he
  rw [hes] at hd
  have hr : replace (v.pageNumber l.level) l f.entries =
      some (before ++ ⟨v.pageNumber l.level, l, true⟩ :: after) := by
    rw [hes]
    exact replace_eq_some_iff.mpr
      ⟨before, e, after, rfl, fun _ hb => absent_of_nodup hd hm (Or.inl hb), hm, rfl⟩
  exact ⟨before, after, hes, by simp only [refill, hr]⟩

theorem mem_refill {f : Fifo} {v : VirtAddr} {l : Leaf} {e : Entry}
    (he : e ∈ (f.refill v l).2.entries) :
    e = ⟨v.pageNumber l.level, l, true⟩ ∨
      e ∈ f.entries ∧
        ((pages f.entries).Nodup → ¬ Maps (v.pageNumber l.level) l.level e) := by
  have h := f.refill_cases v l
  generalize (f.refill v l).1 = r, (f.refill v l).2.entries = es at h he
  cases h with
  | replaced split maps =>
    rw [split]
    simp only [List.mem_append, List.mem_cons] at he ⊢
    rcases he with he | rfl | he
    · exact Or.inr ⟨Or.inl he, fun hd => absent_of_nodup hd maps (Or.inl he)⟩
    · exact Or.inl rfl
    · exact Or.inr ⟨Or.inr (Or.inr he), fun hd => absent_of_nodup hd maps (Or.inr he)⟩
  | inserted absent _ =>
    rcases List.mem_append.mp he with he | he
    · exact Or.inr ⟨he, fun _ => absent e he⟩
    · exact Or.inl (List.mem_singleton.mp he)
  | evicted split absent =>
    rcases List.mem_append.mp he with he | he
    · have he := split ▸ List.mem_cons_of_mem _ he
      exact Or.inr ⟨he, fun _ => absent e he⟩
    · exact Or.inl (List.mem_singleton.mp he)

/-- Which valid entries a refill leaves: the new one, and those of other pages that it did not push out. -/
theorem mem_refill_iff {f : Fifo} (hd : (pages f.entries).Nodup) {v : VirtAddr} {l : Leaf} {e : Entry}
    (hv : e.valid = true) :
    e ∈ (f.refill v l).2.entries ↔
      e = ⟨v.pageNumber l.level, l, true⟩ ∨
        e ∈ f.entries ∧ ¬ Maps (v.pageNumber l.level) l.level e ∧
          ∀ old, (f.refill v l).1 = .evicted old → ¬ Maps e.vpn e.leaf.level old := by
  have h := f.refill_cases v l
  have hleft := @mem_refill f v l e
  generalize (f.refill v l).1 = r, (f.refill v l).2.entries = es at h hleft ⊢
  cases h with
  | replaced split maps =>
    constructor
    · intro he
      refine (hleft he).imp_right fun ⟨he, hn⟩ => ⟨he, hn hd, nofun⟩
    · rw [split]
      simp only [List.mem_append, List.mem_cons]
      rintro (rfl | ⟨he | rfl | he, hn, -⟩)
      · exact Or.inr (Or.inl rfl)
      · exact Or.inl he
      · exact absurd maps hn
      · exact Or.inr (Or.inr he)
  | inserted absent _ =>
    constructor
    · intro he
      exact (hleft he).imp_right fun ⟨he, hn⟩ => ⟨he, hn hd, nofun⟩
    · rintro (rfl | ⟨he, -⟩)
      · exact List.mem_append_right _ List.mem_cons_self
      · exact List.mem_append_left _ he
  | @evicted old rest split absent =>
    rw [split] at hd absent ⊢
    constructor
    · intro he
      rcases List.mem_append.mp he with he | he
      · refine Or.inr ⟨List.mem_cons_of_mem _ he, absent e (List.mem_cons_of_mem _ he), ?_⟩
        rintro _ ⟨rfl⟩ hm
        have absent := @absent_of_nodup [] rest old _ _ hd hm e (Or.inr he)
        exact absent ⟨hv, rfl, rfl⟩
      · exact Or.inl (List.mem_singleton.mp he)
    · rintro (rfl | ⟨he, -, hn⟩)
      · exact List.mem_append_right _ List.mem_cons_self
      · rcases List.mem_cons.mp he with rfl | he
        · exact absurd ⟨hv, rfl, rfl⟩ (hn e rfl)
        · exact List.mem_append_left _ he

theorem pages_refill (f : Fifo) (v : VirtAddr) (l : Leaf) :
    (f.refill v l).1 = .replaced ∧ pages (f.refill v l).2.entries = pages f.entries ∨
      (f.refill v l).1 ≠ .replaced ∧ (v.pageNumber l.level, l.level) ∉ pages f.entries ∧
        ∃ kept, kept.Sublist (pages f.entries) ∧
          pages (f.refill v l).2.entries = kept ++ [(v.pageNumber l.level, l.level)] := by
  have h := f.refill_cases v l
  generalize (f.refill v l).1 = r, (f.refill v l).2.entries = es at h ⊢
  have new : (∀ e ∈ f.entries, ¬ Maps (v.pageNumber l.level) l.level e) →
      (v.pageNumber l.level, l.level) ∉ pages f.entries := by
    intro absent hm
    obtain ⟨e, he, hm⟩ := mem_pages.mp hm
    exact absent e he hm
  cases h with
  | replaced split maps =>
    obtain ⟨hv, hl, hp⟩ := maps
    refine Or.inl ⟨rfl, ?_⟩
    simp only [split, pages_append, pages_cons, hv, hl, hp]
  | inserted absent _ =>
    exact Or.inr ⟨nofun, new absent, pages f.entries, .refl _, pages_append ..⟩
  | @evicted old rest split absent =>
    exact Or.inr ⟨nofun, new absent, pages rest, split ▸ pages_tail_sublist old rest, pages_append ..⟩

theorem capacity_append (f : Fifo) (e : Entry) : (f.append e).2.capacity = f.capacity := by
  unfold append
  split
  · rfl
  · split <;> rfl

theorem capacity_refill (f : Fifo) (v : VirtAddr) (l : Leaf) :
    (f.refill v l).2.capacity = f.capacity := by
  unfold refill
  split
  · rfl
  · exact capacity_append _ _

theorem refill_invariant {f : Fifo} (hc : 0 < f.capacity) (h : f.Invariant) (v : VirtAddr)
    (l : Leaf) : (f.refill v l).2.Invariant := by
  have hb := h.bounded
  constructor
  · rw [f.capacity_refill v l]
    have hr := f.refill_cases v l
    generalize (f.refill v l).1 = r, (f.refill v l).2.entries = es at hr ⊢
    cases hr with
    | replaced split _ => simpa [split] using hb
    | inserted _ room =>
      rw [List.length_append, List.length_singleton]
      rcases room with he | hn
      · simp only [he, List.length_nil]
        omega
      · omega
    | evicted split _ => simpa [split] using hb
  · rcases f.pages_refill v l with ⟨-, hp⟩ | ⟨-, hn, kept, hk, hp⟩
    · rw [hp]
      exact h.distinct
    · rw [hp, List.nodup_append]
      refine ⟨h.distinct.sublist hk, by simp, ?_⟩
      rintro p hp _ hq rfl
      rw [List.mem_singleton.mp hq] at hp
      exact hn (hk.subset hp)

theorem pages_flush (f : Fifo) : pages f.flush.entries = [] := by
  simp [pages, flush]

theorem flush_invariant {f : Fifo} (h : f.Invariant) : f.flush.Invariant :=
  ⟨by simpa [flush] using h.bounded, by simp [pages_flush]⟩

theorem mem_flush {f : Fifo} {e : Entry} (h : e ∈ f.flush.entries) : e.valid = false := by
  obtain ⟨old, -, rfl⟩ := List.mem_map.mp h
  rfl

theorem step_preserves {f g : Fifo} {op : Cache.Op} {a : Cache.Answer} (hc : 0 < f.capacity)
    (h : f.Invariant) (hs : f.step op = .ok (a, g)) : g.capacity = f.capacity ∧ g.Invariant := by
  cases op with
  | refill v l =>
    simp only [step] at hs
    split at hs
    · cases hs
    · cases hs
      exact ⟨f.capacity_refill v l, refill_invariant hc h v l⟩
  | lookup q => cases hs; exact ⟨rfl, h⟩
  | evict =>
    simp only [step] at hs
    split at hs
    · cases hs
    · rename_i old rest hf
      cases hs
      have hb := h.bounded
      have hd := h.distinct
      rw [hf] at hb hd
      exact ⟨rfl, Nat.le_of_succ_le hb, hd.sublist (pages_tail_sublist old rest)⟩
  | flush fence =>
    cases hs
    exact ⟨rfl, flush_invariant h⟩
  | clear => cases hs; exact ⟨rfl, Nat.zero_le _, List.nodup_nil⟩

theorem run_preserves {f g : Fifo} {ops : List Cache.Op} {seen : List (Cache.Answer × View)}
    (hc : 0 < f.capacity) (h : f.Invariant) (hr : f.run ops = .ok (seen, g)) :
    g.capacity = f.capacity ∧ g.Invariant := by
  induction ops generalizing f seen with
  | nil => cases hr; exact ⟨rfl, h⟩
  | cons op ops ih =>
    obtain ⟨⟨a, m⟩, hs, hr⟩ := bind_eq_ok.mp hr
    obtain ⟨⟨rest, last⟩, hr, he⟩ := bind_eq_ok.mp hr
    cases he
    obtain ⟨hm, hi⟩ := step_preserves hc h hs
    obtain ⟨hg, hj⟩ := ih (hm ▸ hc) hi hr
    exact ⟨hg.trans hm, hj⟩

theorem initial_invariant (capacity : Nat) : (initial capacity).Invariant :=
  ⟨Nat.zero_le _, List.nodup_nil⟩

theorem run_of_legal {f : Fifo} {ops : List Cache.Op} (h : f.legal ops = true) :
    ∃ seen g, f.run ops = .ok (seen, g) := by
  induction ops generalizing f with
  | nil => exact ⟨_, _, rfl⟩
  | cons op ops ih =>
    have hl := (Bool.and_eq_true_iff.mp h).2
    cases hs : f.step op with
    | error => rw [hs] at hl; cases hl
    | ok first =>
      obtain ⟨a, m⟩ := first
      rw [hs] at hl
      obtain ⟨seen, g, hr⟩ := ih hl
      exact ⟨(a, m.view) :: seen, g, by simp [run, hs, hr, bind, Except.bind, pure, Except.pure]⟩

end Fifo

namespace Cache

variable (c : Cache)

theorem view_fifo : c.view = c.fifo.view := by
  have hs : c.size = c.entries.length := (c.ring.length_toList).symm
  have he : (c.entries.length == 0) = c.entries.isEmpty := by
    cases c.entries <;> rfl
  simp [view, Fifo.view, fifo, validSize, isEmpty, isFull, hs, he, List.countP_eq_length_filter]

theorem append_fifo (e : Entry) :
    (c.append e).1 = (c.fifo.append e).1 ∧ (c.append e).2.fifo = (c.fifo.append e).2 := by
  have hs : c.entries.length = c.size := c.ring.length_toList
  by_cases h : c.size < c.capacity
  · obtain ⟨hr, he⟩ := c.append_of_room e h
    cases hc : c.entries with
    | nil => simp [Fifo.append, fifo, hr, he, hc]
    | cons old rest =>
      have hn : (old :: rest).length ≠ c.capacity := by rw [← hc]; omega
      simp only [List.length_cons] at hn
      simp [Fifo.append, fifo, hr, he, hc, hn]
  · obtain ⟨victim, hr, he⟩ := c.append_of_full e h
    have hp := c.ring.capacity_pos
    have hl := c.ring.size_le
    change 0 < c.capacity at hp
    change c.size ≤ c.capacity at hl
    cases hc : c.entries with
    | nil => rw [hc] at hs; simp only [List.length_nil] at hs; omega
    | cons old rest =>
      have hn : (old :: rest).length = c.capacity := by rw [← hc]; omega
      rw [hc, List.cons_append] at he
      obtain ⟨rfl, ht⟩ := List.cons.inj he
      simp only [List.length_cons] at hn
      simp [Fifo.append, fifo, hr, ht, hc, hn]

theorem accepted_of_not_refused {v : VirtAddr} {l : Leaf}
    (h : ¬ (l.isAligned = false ∧
      ∀ e ∈ c.entries, ¬ Fifo.Maps (v.pageNumber l.level) l.level e)) :
    l.isAligned = true ∨ ∃ e ∈ c.entries, Fifo.Maps (v.pageNumber l.level) l.level e := by
  by_cases ha : l.isAligned = true
  · exact Or.inl ha
  · refine Or.inr (Classical.byContradiction fun hn => h ⟨by simpa using ha, ?_⟩)
    exact fun e he hm => hn ⟨e, he, hm⟩

theorem refill_fifo {v : VirtAddr} {l : Leaf}
    (h : l.isAligned = true ∨ ∃ e ∈ c.entries, Fifo.Maps (v.pageNumber l.level) l.level e) :
    ∃ d, c.refill v l = .ok ((c.fifo.refill v l).1, d) ∧ d.fifo = (c.fifo.refill v l).2 := by
  cases hf : c.find? v l.level with
  | some i =>
    have hr : Fifo.replace (v.pageNumber l.level) l c.entries =
        some (c.entries.modify i (·.update l)) := by
      rw [Fifo.replace_eq_modify]
      exact congrArg (Option.map _) hf
    refine ⟨c.update i l, ?_, ?_⟩
    · rw [c.refill_of_find hf, Fifo.refill]
      simp only [fifo, hr]
    · simp only [Fifo.refill, fifo, hr, c.entries_update (c.find?_lt hf), capacity_update]
  | none =>
    have hr : Fifo.replace (v.pageNumber l.level) l c.entries = none := by
      rw [Fifo.replace_eq_modify]
      exact congrArg (Option.map _) hf
    have ha : l.isAligned = true := by
      rcases h with h | ⟨e, he, hm⟩
      · exact h
      · exact absurd hm (Fifo.replace_eq_none.mp hr e he)
    obtain ⟨ho, hd⟩ := c.append_fifo (.ofLeaf v l)
    refine ⟨(c.append (.ofLeaf v l)).2, ?_, ?_⟩
    · rw [c.refill_of_aligned hf ha, Fifo.refill]
      simp only [fifo, hr] at ho ⊢
      exact congrArg (fun r => Except.ok (r, _)) ho
    · simp only [Fifo.refill, fifo, hr] at hd ⊢
      exact hd

theorem refill_refused {v : VirtAddr} {l : Leaf} (ha : l.isAligned = false)
    (hn : ∀ e ∈ c.entries, ¬ Fifo.Maps (v.pageNumber l.level) l.level e) :
    c.refill v l = .error (.unalignedPage l.ppn l.level) := by
  have hf : c.find? v l.level = none := by
    have hr := Fifo.replace_eq_none.mpr hn
    rw [Fifo.replace_eq_modify, Option.map_eq_none_iff] at hr
    exact hr
  simp [refill, hf, Entry.new, ha, bind, Except.bind]

theorem flush_fifo : c.flush.2.fifo = c.fifo.flush := by
  simp only [fifo, capacity_flush, entries_flush]
  rfl

theorem evict_fifo :
    (c.evict).map (fun r => (Answer.evicted r.1, r.2.fifo)) = c.fifo.step .evict := by
  have hs : c.entries.length = c.size := c.ring.length_toList
  by_cases h : 0 < c.ring.size
  · have he : c.entries = (c.ring.pop h).1 :: (c.ring.pop h).2.toList := c.ring.toList_pop h
    simp only [evict, h, ↓reduceDIte, Fifo.step, fifo, he]
    rfl
  · have he : c.entries = [] := List.length_eq_zero_iff.mp (by rw [hs]; unfold size; omega)
    simp only [evict, h, ↓reduceDIte, Fifo.step, fifo, he]
    rfl

/-- One operation on a cache is the same operation on its list. -/
theorem step_fifo (op : Op) :
    (c.step op).map (fun e => (e.answer, e.state.fifo)) = c.fifo.step op := by
  cases op with
  | refill v l =>
    simp only [step, Fifo.step]
    split
    · rename_i h
      rw [c.refill_refused h.1 h.2]
      rfl
    · rename_i h
      obtain ⟨d, hd, hf⟩ := c.refill_fifo (c.accepted_of_not_refused h)
      rw [hd]
      exact congrArg (fun g => Except.ok (_, g)) hf
  | lookup q => rfl
  | evict =>
    rw [← c.evict_fifo]
    unfold step
    cases c.evict <;> rfl
  | flush f =>
    have hn : c.flush.1 = (c.entries.filter (·.valid)).length := List.countP_eq_length_filter
    exact congrArg Except.ok (Prod.ext (congrArg Answer.flushed hn) c.flush_fifo)
  | clear =>
    have hd : c.clear.fifo = ⟨c.capacity, []⟩ := by
      simp only [fifo, capacity_clear, entries_clear]
    exact congrArg Except.ok (Prod.ext rfl hd)

variable {c} in
theorem fifo_of_step {op : Op} {e : Effect Cache Answer} (h : c.step op = .ok e) :
    c.fifo.step op = .ok (e.answer, e.state.fifo) := by
  have hs := c.step_fifo op
  rw [h] at hs
  exact hs.symm

variable {c} in
theorem fifo_of_refill {d : Cache} {v : VirtAddr} {l : Leaf} {r : Refill} (h : c.refill v l = .ok (r, d)) :
    c.fifo.refill v l = (r, d.fifo) := by
  have hstep : c.step (.refill v l) = .ok ⟨.refilled r, d, []⟩ := by
    simp only [step, h]
    rfl
  have hs := fifo_of_step hstep
  rw [Fifo.step] at hs
  split at hs
  · cases hs
  · obtain ⟨hr, hd⟩ := Prod.mk.inj (Except.ok.inj hs)
    exact Prod.ext (Answer.refilled.inj hr) hd

theorem run_fifo (ops : List Op) :
    (Effect.run watch c ops).map (fun e => (e.answer, e.state.fifo)) = c.fifo.run ops := by
  induction ops generalizing c with
  | nil => rfl
  | cons op ops ih =>
    have hs := c.step_fifo op
    simp only [Effect.run, Fifo.run, watch, ← hs]
    cases c.step op with
    | error => rfl
    | ok e =>
      have hr := ih e.state
      simp only [Except.map, bind, Except.bind, ← hr, ← view_fifo]
      cases Effect.run watch e.state ops <;> rfl

/-- Caches that hold the same entries cannot be told apart. -/
theorem run_answers_congr {c d : Cache} (h : d.fifo = c.fifo) (ops : List Op) :
    (Effect.run watch d ops).map (·.answer) = (Effect.run watch c ops).map (·.answer) := by
  have hr := d.run_fifo ops
  rw [h, ← c.run_fifo ops] at hr
  have ha := congrArg (Except.map (·.1)) hr
  cases h₁ : Effect.run watch d ops <;> cases h₂ : Effect.run watch c ops <;>
    simp_all [Except.map]

theorem new_fifo {capacity : Nat} (h : 0 < capacity) :
    ∃ c, new capacity = .ok c ∧ c.fifo = Fifo.initial capacity := by
  refine ⟨⟨Ring.empty default capacity h⟩, by simp [new, h], ?_⟩
  simp only [fifo, Cache.capacity, entries, Ring.toList_empty, Fifo.initial]
  exact congrArg (Fifo.mk · []) Array.size_replicate

end Cache

/-- A new cache and an empty list of the same capacity show the same after every operation and stop at the
same violation. Legal operations meet none, and the rest of a run depends on the entries only. -/
theorem cache_is_bounded_list (capacity : Nat) (h : 0 < capacity) :
    ∃ c, Cache.new capacity = .ok c ∧ ∀ ops,
      (Effect.run Cache.watch c ops).map (fun e => (e.answer, e.state.fifo)) =
        (Fifo.initial capacity).run ops ∧
      ((Fifo.initial capacity).legal ops = true →
        ∃ e, Effect.run Cache.watch c ops = .ok e ∧
          e.state.entries.length ≤ capacity ∧ (Fifo.pages e.state.entries).Nodup ∧
          (∀ i ≤ capacity, e.state.ring.slot i < e.state.ring.slots.size) ∧
          ∀ d : Cache, d.capacity = capacity → d.entries = e.state.entries → ∀ more,
            (Effect.run Cache.watch d more).map (·.answer) =
              (Effect.run Cache.watch e.state more).map (·.answer)) := by
  obtain ⟨c, hnew, hc⟩ := Cache.new_fifo h
  refine ⟨c, hnew, ?_⟩
  intro ops
  have hr := c.run_fifo ops
  rw [hc] at hr
  refine ⟨hr, ?_⟩
  intro hl
  obtain ⟨seen, f, hf⟩ := Fifo.run_of_legal hl
  obtain ⟨hcap, hinv⟩ := Fifo.run_preserves h (Fifo.initial_invariant capacity) hf
  rw [hf] at hr
  cases he : Effect.run Cache.watch c ops with
  | error => rw [he] at hr; cases hr
  | ok e =>
    rw [he] at hr
    obtain ⟨rfl, rfl⟩ := Prod.mk.inj (Except.ok.inj hr)
    have hslots : e.state.ring.slots.size = capacity := hcap
    refine ⟨e, rfl, hslots ▸ hinv.bounded, hinv.distinct, ?_, ?_⟩
    · intro i hi
      exact e.state.ring.slot_lt (hslots.symm ▸ hi)
    · intro d hdc hde more
      have hd : d.fifo = e.state.fifo := by
        simp only [Cache.fifo, hdc, hde]
        exact congrArg (Fifo.mk · e.state.entries) hslots.symm
      exact Cache.run_answers_congr hd more

theorem cache_is_bounded_list_around_two_slots :
    let r : Rights := ⟨true, false, false, false⟩
    let ops : List Cache.Op :=
      [.refill ⟨0x1000⟩ ⟨⟨0xa000⟩, r, .base⟩, .refill ⟨0x2000⟩ ⟨⟨0xb000⟩, r, .base⟩,
        .refill ⟨0x3000⟩ ⟨⟨0xc000⟩, r, .base⟩, .refill ⟨0x2abc⟩ ⟨⟨0xd000⟩, r, .base⟩, .evict,
        .lookup ⟨⟨0x3004⟩, .read, .supervisor⟩, .flush .all]
    let answers : List Cache.Answer :=
      [.refilled .inserted, .refilled .inserted,
        .refilled (.evicted ⟨0x1000, ⟨⟨0xa000⟩, r, .base⟩, true⟩), .refilled .replaced,
        .evicted ⟨0x2000, ⟨⟨0xd000⟩, r, .base⟩, true⟩, .found (some ⟨0xc004⟩), .flushed 1]
    let left : List Entry := [⟨0x3000, ⟨⟨0xc000⟩, r, .base⟩, false⟩]
    (Fifo.initial 2).legal ops = true ∧
      ∃ c e, Cache.new 2 = .ok c ∧ Effect.run Cache.watch c ops = .ok e ∧
        e.answer.map (·.1) = answers ∧ e.state.entries = left := by
  intro r ops answers left
  have hl : (Fifo.initial 2).legal ops = true := by decide
  obtain ⟨c, hc, h⟩ := cache_is_bounded_list 2 (by decide)
  obtain ⟨hr, hok⟩ := h ops
  obtain ⟨e, he, -⟩ := hok hl
  have hf : ((Fifo.initial 2).run ops).toOption.map (fun s => (s.1.map (·.1), s.2.entries)) =
      some (answers, left) := by decide
  rw [← hr, he] at hf
  obtain ⟨ha, hs⟩ := Prod.mk.inj (Option.some.inj hf)
  exact ⟨hl, c, e, hc, he, ha, hs⟩

end Sv32
