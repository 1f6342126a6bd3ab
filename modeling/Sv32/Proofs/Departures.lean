import Mathlib.Data.List.Forall2
import Sv32.Proofs.Fifo

/-! # The order in which entries leave

A refill that updates no entry appends one, and no entry passes another: those that have left and behind
them those that are still there are all that were appended, in that order. -/
namespace Sv32

abbrev Page := Word × PageLevel

def Entry.page (e : Entry) : Page := (e.vpn, e.leaf.level)

theorem forall₂_of_mem {α β : Type} {R S : α → β → Prop} {as : List α} {bs : List β}
    (h : List.Forall₂ R as bs) (imp : ∀ a b, b ∈ bs → R a b → S a b) : List.Forall₂ S as bs := by
  induction h with
  | nil => exact .nil
  | cons hr _ ih =>
    refine .cons (imp _ _ List.mem_cons_self hr) (ih ?_)
    intro a b hb
    exact imp a b (List.mem_cons_of_mem _ hb)

theorem Fifo.capacity_of_evicted {f : Fifo} {v : VirtAddr} {l : Leaf} {old : Entry}
    (h : (f.refill v l).1 = .evicted old) : f.entries.length = f.capacity := by
  unfold refill at h
  split at h
  · cases h
  · unfold append at h
    split at h
    · cases h
    · split at h
      · assumption
      · cases h

namespace Cache

def listed {α : Type} (happens : Nat → Option α) (n : Nat) : List (Nat × α) :=
  (List.range n).filterMap fun k => (happens k).map (k, ·)

theorem listed_succ {α : Type} (happens : Nat → Option α) (n : Nat) :
    listed happens (n + 1) = listed happens n ++ (happens n).toList.map (n, ·) := by
  simp only [listed, List.range_succ, List.filterMap_append]
  cases h : happens n <;> simp [h]

def Unflushed (op : Nat → Op) (a b : Nat) : Prop := ∀ i, a < i → i < b → ∀ f, op i ≠ .flush f

abbrev History (c : Cache) (op : Nat → Op) := Effect.History Cache.step c op

namespace History

variable {c : Cache} {op : Nat → Op} (ρ : History c op)

def fifo (k : Nat) : Fifo := (ρ.state k).fifo

def entries (k : Nat) : List Entry := (ρ.state k).entries

/-- The page for which an entry is appended at `k`, by a refill that was not answered by an update. -/
def appends? (k : Nat) : Option Page :=
  match op k, ρ.answer k with
  | .refill _ _, .refilled .replaced => none
  | .refill v l, .refilled _ => some (v.pageNumber l.level, l.level)
  | _, _ => none

def leaves? (k : Nat) : Option Entry :=
  match ρ.answer k with
  | .evicted e | .refilled (.evicted e) => some e
  | _ => none

def appended (n : Nat) : List (Nat × Page) := listed ρ.appends? n

def departed (n : Nat) : List (Nat × Entry) := listed ρ.leaves? n

/-- The refill at `i` brings the leaf `l` to the entry for `page` that was appended at `a`: by appending it,
or by an update before any flush. Once a flush has reached the entry, it is never updated again: another
one is appended for its page. -/
def Brings (a i : Nat) (page : Page) (l : Leaf) : Prop :=
  ∃ v, op i = .refill v l ∧ (v.pageNumber l.level, l.level) = page ∧
    (i = a ∨ ρ.answer i = .refilled .replaced ∧ Unflushed op a i)

/-- What has become by `b` of the entry that was appended at the time `a.1` for the page `a.2`. -/
structure Kept (a : Nat × Page) (b : Nat) (e : Entry) : Prop where
  earlier : a.1 < b
  page : e.page = a.2
  valid : e.valid = true ↔ Unflushed op a.1 b
  leaf : ∃ i, a.1 ≤ i ∧ i < b ∧ ρ.Brings a.1 i a.2 e.leaf ∧
    ∀ j l, i < j → j < b → ¬ ρ.Brings a.1 j a.2 l

/-- All that an operation can do to the entries, if they are not cleared: what it appends, and what
leaves. -/
inductive Does (k : Nat) : Option Page → Option Entry → Prop where
  | nothing {q : Request} (hop : op k = .lookup q) (same : ρ.entries (k + 1) = ρ.entries k) :
      Does k none none
  | flush {f : Fence} (hop : op k = .flush f)
      (flushed : ρ.entries (k + 1) = (ρ.entries k).map (·.invalidate)) : Does k none none
  | update {v : VirtAddr} {l : Leaf} {before after : List Entry} {old : Entry}
      (hop : op k = .refill v l) (replaced : ρ.answer k = .refilled .replaced)
      (maps : Fifo.Maps (v.pageNumber l.level) l.level old)
      (split : ρ.entries k = before ++ old :: after)
      (updated : ρ.entries (k + 1) = before ++ .ofLeaf v l :: after) : Does k none none
  | append {v : VirtAddr} {l : Leaf} (hop : op k = .refill v l)
      (inserted : ρ.answer k = .refilled .inserted)
      (room : (ρ.entries k).length < (ρ.fifo k).capacity)
      (longer : ρ.entries (k + 1) = ρ.entries k ++ [.ofLeaf v l]) :
      Does k (some (v.pageNumber l.level, l.level)) none
  | push {v : VirtAddr} {l : Leaf} {old : Entry} {rest : List Entry} (hop : op k = .refill v l)
      (evicted : ρ.answer k = .refilled (.evicted old))
      (full : (ρ.entries k).length = (ρ.fifo k).capacity) (split : ρ.entries k = old :: rest)
      (shifted : ρ.entries (k + 1) = rest ++ [.ofLeaf v l]) :
      Does k (some (v.pageNumber l.level, l.level)) (some old)
  | evict {old : Entry} {rest : List Entry} (hop : op k = .evict) (split : ρ.entries k = old :: rest)
      (shorter : ρ.entries (k + 1) = rest) : Does k none (some old)

theorem fifo_succ (k : Nat) : (ρ.fifo k).step (op k) = .ok (ρ.answer k, ρ.fifo (k + 1)) := by
  obtain ⟨events, h⟩ := ρ.next k
  exact fifo_of_step h

theorem does_of_invariant {k : Nat} (hc : 0 < (ρ.fifo k).capacity) (h : (ρ.fifo k).Invariant)
    (uncleared : op k ≠ .clear) : ρ.Does k (ρ.appends? k) (ρ.leaves? k) := by
  have hstep := ρ.fifo_succ k
  cases hop : op k with
  | refill v l =>
    rw [hop, Fifo.step] at hstep
    split at hstep
    · cases hstep
    · obtain ⟨ha, hf⟩ := Prod.mk.inj (Except.ok.inj hstep)
      have hr := (ρ.fifo k).refill_cases v l
      have hfull := @Fifo.capacity_of_evicted (ρ.fifo k) v l
      have he : ρ.entries (k + 1) = ((ρ.fifo k).refill v l).2.entries := congrArg Fifo.entries hf.symm
      rw [← he] at hr
      have hbound := h.bounded
      generalize ((ρ.fifo k).refill v l).1 = r at ha hr hfull
      generalize hes : ρ.entries (k + 1) = es at hr
      cases hr with
      | replaced split maps =>
        simp only [appends?, leaves?, hop, ← ha]
        exact .update hop ha.symm maps split hes
      | inserted absent room =>
        simp only [appends?, leaves?, hop, ← ha]
        refine .append hop ha.symm ?_ hes
        change (ρ.fifo k).entries.length < _
        rcases room with hnil | hne
        · rw [hnil]
          exact hc
        · exact Nat.lt_of_le_of_ne hbound hne
      | evicted split absent =>
        simp only [appends?, leaves?, hop, ← ha]
        exact .push hop ha.symm (hfull rfl) split hes
  | lookup q =>
    rw [hop] at hstep
    obtain ⟨ha, hf⟩ := Prod.mk.inj (Except.ok.inj hstep)
    simp only [appends?, leaves?, hop, ← ha]
    exact .nothing hop (congrArg Fifo.entries hf.symm)
  | evict =>
    rw [hop, Fifo.step] at hstep
    split at hstep
    · cases hstep
    · rename_i old rest split
      obtain ⟨ha, hf⟩ := Prod.mk.inj (Except.ok.inj hstep)
      simp only [appends?, leaves?, hop, ← ha]
      exact .evict hop split (congrArg Fifo.entries hf.symm)
  | flush f =>
    rw [hop] at hstep
    obtain ⟨ha, hf⟩ := Prod.mk.inj (Except.ok.inj hstep)
    simp only [appends?, leaves?, hop, ← ha]
    exact .flush hop (congrArg Fifo.entries hf.symm)
  | clear => exact absurd hop uncleared

variable {ρ} {n : Nat} {a : Nat × Page} {e : Entry} {v : VirtAddr} {l : Leaf}

theorem unflushed_succ {a : Nat} (ha : a < n) :
    Unflushed op a (n + 1) ↔ Unflushed op a n ∧ ∀ f, op n ≠ .flush f := by
  constructor
  · intro h
    exact ⟨fun i hi hin => h i hi (Nat.lt_succ_of_lt hin), h n ha (Nat.lt_succ_self n)⟩
  · rintro ⟨h, hn⟩ i hi hin
    rcases Nat.lt_succ_iff_lt_or_eq.mp hin with hin | rfl
    · exact h i hi hin
    · exact hn

theorem Kept.leaf_succ (h : ρ.Kept a n e) (none : ∀ l, ¬ ρ.Brings a.1 n a.2 l) :
    ∃ i, a.1 ≤ i ∧ i < n + 1 ∧ ρ.Brings a.1 i a.2 e.leaf ∧
      ∀ j l, i < j → j < n + 1 → ¬ ρ.Brings a.1 j a.2 l := by
  obtain ⟨i, hai, hin, hbrings, hlast⟩ := h.leaf
  refine ⟨i, hai, Nat.lt_succ_of_lt hin, hbrings, ?_⟩
  intro j l hij hjn
  rcases Nat.lt_succ_iff_lt_or_eq.mp hjn with hjn | rfl
  · exact hlast j l hij hjn
  · exact none l

theorem Kept.flush (h : ρ.Kept a n e) {f : Fence} (hop : op n = .flush f) :
    ρ.Kept a (n + 1) e.invalidate where
  earlier := Nat.lt_succ_of_lt h.earlier
  page := h.page
  valid := by
    refine iff_of_false nofun ?_
    intro hu
    exact ((unflushed_succ h.earlier).mp hu).2 f hop
  leaf := by
    apply h.leaf_succ
    rintro l ⟨v, hr, -⟩
    rw [hop] at hr
    cases hr

theorem Kept.stay (h : ρ.Kept a n e) (hf : ∀ f, op n ≠ .flush f)
    (hr : ∀ v l, op n = .refill v l → ρ.answer n = .refilled .replaced →
      ¬ Fifo.Maps (v.pageNumber l.level) l.level e) : ρ.Kept a (n + 1) e where
  earlier := Nat.lt_succ_of_lt h.earlier
  page := h.page
  valid := by
    rw [unflushed_succ h.earlier, h.valid]
    exact ⟨fun hu => ⟨hu, hf⟩, And.left⟩
  leaf := by
    apply h.leaf_succ
    rintro l ⟨v, hop, hpage, rfl | ⟨replaced, hu⟩⟩
    · exact Nat.lt_irrefl _ h.earlier
    · obtain ⟨hvpn, hlevel⟩ := Prod.mk.inj (hpage.trans h.page.symm)
      exact hr v l hop replaced ⟨h.valid.mpr hu, hlevel.symm, hvpn.symm⟩

theorem Kept.update (h : ρ.Kept a n e) (hop : op n = .refill v l)
    (replaced : ρ.answer n = .refilled .replaced) (maps : Fifo.Maps (v.pageNumber l.level) l.level e) :
    ρ.Kept a (n + 1) (.ofLeaf v l) := by
  obtain ⟨hvalid, hlevel, hvpn⟩ := maps
  have hu : Unflushed op a.1 n := h.valid.mp hvalid
  have hpage : (v.pageNumber l.level, l.level) = a.2 := by
    rw [← h.page, Entry.page, hlevel, hvpn]
  constructor
  · exact Nat.lt_succ_of_lt h.earlier
  · exact hpage
  · rw [unflushed_succ h.earlier]
    refine iff_of_true rfl ⟨hu, ?_⟩
    intro f hf
    rw [hop] at hf
    cases hf
  · refine ⟨n, Nat.le_of_lt h.earlier, Nat.lt_succ_self n, ⟨v, hop, hpage, Or.inr ⟨replaced, hu⟩⟩, ?_⟩
    intro j l hj hjn
    omega

theorem kept_new (hop : op n = .refill v l) :
    ρ.Kept (n, (v.pageNumber l.level, l.level)) (n + 1) (.ofLeaf v l) := by
  constructor
  · exact Nat.lt_succ_self n
  · rfl
  · refine iff_of_true rfl ?_
    intro i hi hin
    omega
  · refine ⟨n, Nat.le_refl n, Nat.lt_succ_self n, ⟨v, hop, rfl, Or.inl rfl⟩, ?_⟩
    intro j l hj hjn
    omega

structure Accounted (ρ : History c op) (n : Nat) (gone held : List (Nat × Page)) :
    Prop where
  appended : ρ.appended n = gone ++ held
  departed : List.Forall₂ (fun a d => ρ.Kept a d.1 d.2) gone (ρ.departed n)
  resident : List.Forall₂ (fun a e => ρ.Kept a n e) held (ρ.entries n)

theorem Accounted.succ {gone left stay : List (Nat × Page)}
    (h : ρ.Accounted n gone (left ++ stay))
    (leaves : List.Forall₂ (fun a d => ρ.Kept a d.1 d.2) left ((ρ.leaves? n).toList.map (n, ·)))
    (stays : List.Forall₂ (fun a e => ρ.Kept a (n + 1) e) (stay ++ (ρ.appends? n).toList.map (n, ·))
      (ρ.entries (n + 1))) :
    ρ.Accounted (n + 1) (gone ++ left) (stay ++ (ρ.appends? n).toList.map (n, ·)) where
  appended := by
    have happended := h.appended
    rw [History.appended] at happended ⊢
    rw [listed_succ, happended]
    simp only [List.append_assoc]
  departed := by
    rw [History.departed, listed_succ]
    exact List.rel_append h.departed leaves
  resident := stays

theorem Accounted.step {gone held : List (Nat × Page)} (h : ρ.Accounted n gone held)
    (hd : (Fifo.pages (ρ.entries n)).Nodup) (does : ρ.Does n (ρ.appends? n) (ρ.leaves? n)) :
    ∃ gone held, ρ.Accounted (n + 1) gone held := by
  have hres := h.resident
  have hsucc := fun left stay => @Accounted.succ c op ρ n gone left stay
  have stay : ∀ {as es}, List.Forall₂ (fun a e => ρ.Kept a n e) as es → (∀ f, op n ≠ .flush f) →
      (∀ v l, op n = .refill v l → ρ.answer n ≠ .refilled .replaced) →
      List.Forall₂ (fun a e => ρ.Kept a (n + 1) e) as es := by
    intro as es hes hf hr
    exact hes.imp fun a e hk => hk.stay hf fun v l hop replaced => absurd replaced (hr v l hop)
  generalize ρ.appends? n = appends, ρ.leaves? n = leaves at does hsucc
  cases does with
  | nothing hop same =>
    refine ⟨_, _, hsucc [] held h .nil ?_⟩
    rw [same, Option.toList_none, List.map_nil, List.append_nil]
    exact stay hres (by simp [hop]) (by simp [hop])
  | flush hop flushed =>
    refine ⟨_, _, hsucc [] held h .nil ?_⟩
    rw [flushed, Option.toList_none, List.map_nil, List.append_nil, List.forall₂_map_right_iff]
    exact hres.imp fun a e hk => hk.flush hop
  | @update v l before after old hop replaced maps split updated =>
    rw [split] at hres hd
    -- no entry but the updated one maps its page
    have others : ∀ {as es}, List.Forall₂ (fun a e => ρ.Kept a n e) as es →
        (∀ e ∈ es, e ∈ before ∨ e ∈ after) →
        List.Forall₂ (fun a e => ρ.Kept a (n + 1) e) as es := by
      intro as es hes hmem
      refine forall₂_of_mem hes ?_
      intro a e he hk
      refine hk.stay (by simp [hop]) ?_
      intro v' l' hop' _
      cases hop.symm.trans hop'
      exact Fifo.absent_of_nodup hd maps (hmem e he)
    have hbefore := List.forall₂_take_append held before _ hres
    have hrest := List.forall₂_drop_append held before _ hres
    obtain ⟨a, stays, hold, hafter, hheld⟩ := List.forall₂_cons_right_iff.mp hrest
    refine ⟨_, _, hsucc [] held h .nil ?_⟩
    rw [updated, Option.toList_none, List.map_nil, List.append_nil,
      ← List.take_append_drop before.length held, hheld]
    refine List.rel_append (others hbefore fun e he => Or.inl he) (.cons ?_ ?_)
    · exact hold.update hop replaced maps
    · exact others hafter fun e he => Or.inr he
  | append hop inserted room longer =>
    refine ⟨_, _, hsucc [] held h .nil ?_⟩
    rw [longer]
    refine List.rel_append (stay hres (by simp [hop]) (by simp [inserted])) (.cons (kept_new hop) .nil)
  | push hop evicted full split shifted =>
    rw [split] at hres
    obtain ⟨a, stays, hold, hrest, rfl⟩ := List.forall₂_cons_right_iff.mp hres
    refine ⟨_, _, hsucc [a] stays h (.cons hold .nil) ?_⟩
    rw [shifted]
    refine List.rel_append (stay hrest (by simp [hop]) (by simp [evicted])) (.cons (kept_new hop) .nil)
  | evict hop split shorter =>
    rw [split] at hres
    obtain ⟨a, stays, hold, hrest, rfl⟩ := List.forall₂_cons_right_iff.mp hres
    refine ⟨_, _, hsucc [a] stays h (.cons hold .nil) ?_⟩
    rw [shorter, Option.toList_none, List.map_nil, List.append_nil]
    exact stay hrest (by simp [hop]) (by simp [hop])

section

variable (ρ) {capacity : Nat} (hc : 0 < capacity) (start : c.fifo = .initial capacity)

include hc start

theorem fifo_invariant (k : Nat) : (ρ.fifo k).capacity = capacity ∧ (ρ.fifo k).Invariant := by
  induction k with
  | zero =>
    rw [fifo, ρ.start, start]
    exact ⟨rfl, Fifo.initial_invariant capacity⟩
  | succ k ih =>
    obtain ⟨hcap, hinv⟩ := ih
    obtain ⟨hcap', hinv'⟩ := Fifo.step_preserves (hcap ▸ hc) hinv (ρ.fifo_succ k)
    exact ⟨hcap'.trans hcap, hinv'⟩

omit hc in
theorem entries_zero : ρ.entries 0 = [] := by
  have h := congrArg Fifo.entries start
  rw [entries, ρ.start]
  exact h

theorem does {k : Nat} (uncleared : op k ≠ .clear) : ρ.Does k (ρ.appends? k) (ρ.leaves? k) := by
  obtain ⟨hcap, hinv⟩ := ρ.fifo_invariant hc start k
  exact ρ.does_of_invariant (hcap ▸ hc) hinv uncleared

variable (uncleared : ∀ k, op k ≠ .clear)

include uncleared

theorem accounted (n : Nat) : ∃ gone held, ρ.Accounted n gone held := by
  induction n with
  | zero =>
    refine ⟨[], [], rfl, .nil, ?_⟩
    rw [ρ.entries_zero start]
    exact .nil
  | succ n ih =>
    obtain ⟨gone, held, h⟩ := ih
    exact h.step (ρ.fifo_invariant hc start n).2.distinct (ρ.does hc start (uncleared n))

/-- Where nothing is taken out, an entry leaves only for one that is appended to a full cache. -/
theorem filled {n : Nat} (kept : ∀ k, k < n → op k ≠ .evict) :
    (ρ.entries n).length = min capacity (ρ.appended n).length ∧
      (ρ.departed n).map (·.1) = ((ρ.appended n).map (·.1)).drop capacity := by
  induction n with
  | zero =>
    rw [ρ.entries_zero start]
    exact ⟨(Nat.min_zero capacity).symm, List.drop_nil.symm⟩
  | succ n ih =>
    obtain ⟨hlength, htimes⟩ := ih fun k hk => kept k (Nat.lt_succ_of_lt hk)
    have hcap := (ρ.fifo_invariant hc start n).1
    have hdoes := ρ.does hc start (uncleared n)
    simp only [appended, departed, listed_succ] at hlength htimes ⊢
    generalize ρ.appends? n = appends, ρ.leaves? n = leaves at hdoes ⊢
    cases hdoes with
    | nothing hop same =>
      rw [same]
      simpa using And.intro hlength htimes
    | flush hop flushed =>
      rw [flushed]
      simpa using And.intro hlength htimes
    | update hop replaced maps split updated =>
      rw [split] at hlength
      rw [updated]
      simpa using And.intro hlength htimes
    | append hop inserted room longer =>
      rw [hcap, hlength] at room
      have hroom : (listed ρ.appends? n).length < capacity := by omega
      rw [longer]
      refine ⟨?_, ?_⟩
      · simp only [List.length_append, hlength, Option.toList_some, List.length_map, List.length_cons,
          List.length_nil]
        omega
      · rw [List.drop_eq_nil_of_le (by rw [List.length_map]; omega)] at htimes
        rw [List.drop_eq_nil_of_le (by simp; omega)]
        simpa using htimes
    | @push v l old rest hop evicted full split shifted =>
      rw [hcap, hlength] at full
      have hfull : capacity ≤ ((listed ρ.appends? n).map (·.1)).length := by
        rw [List.length_map]
        omega
      rw [split] at hlength
      rw [shifted]
      refine ⟨?_, ?_⟩
      · simp only [List.length_append, Option.toList_some, List.length_map, List.length_cons,
          List.length_nil] at hlength ⊢
        omega
      · rw [List.map_append, List.map_append, List.drop_append_of_le_length hfull, htimes]
        rfl
    | evict hop split shorter => exact absurd hop (kept n (Nat.lt_succ_self n))

end

theorem Accounted.pages {gone held : List (Nat × Page)} (h : ρ.Accounted n gone held) :
    (ρ.departed n).map (·.2.page) ++ (ρ.entries n).map (·.page) = (ρ.appended n).map (·.2) := by
  have pages : ∀ {β : Type} {as : List (Nat × Page)} {bs : List β} (page : β → Page),
      List.Forall₂ (fun a b => a.2 = page b) as bs → bs.map page = as.map (·.2) := by
    intro β as bs page hab
    induction hab with
    | nil => rfl
    | cons hpage _ ih => rw [List.map_cons, List.map_cons, hpage, ih]
  rw [h.appended, List.map_append,
    ← pages (·.2.page) (h.departed.imp fun a d hk => hk.page.symm),
    ← pages Entry.page (h.resident.imp fun a e hk => hk.page.symm)]

theorem nonempty_of_legal {ops : List Op} (q : Request) (h : c.fifo.legal ops = true) :
    Nonempty (History c fun k => ops.getD k (.lookup q)) := by
  refine Effect.History.nonempty (P := fun k s => s.fifo.legal (ops.drop k) = true) ?_ h
  intro k s hs
  by_cases hk : k < ops.length
  · have hop : ops.getD k (.lookup q) = ops[k] := by simp [hk]
    have hstep := s.step_fifo ops[k]
    rw [List.drop_eq_getElem_cons hk, Fifo.legal, ← hstep] at hs
    rw [hop]
    cases he : s.step ops[k] with
    | error => simp [he, Except.map] at hs
    | ok e =>
      simp only [he, Except.map, Bool.and_eq_true] at hs
      exact ⟨e, rfl, hs.2⟩
  · have hop : ops.getD k (.lookup q) = .lookup q := by simp [hk]
    rw [hop]
    refine ⟨_, rfl, ?_⟩
    rw [List.drop_eq_nil_of_le (by omega)]
    rfl

end History

end Cache

/-- On a new cache, under any operations but clearing: the entries that have left and then those that are
there stand, in order, for the refills that were not answered by an update. Each carries the leaf of its
last refill, and is invalid exactly if a flush has come since. -/
theorem entries_leave_in_order (capacity : Nat) (hc : 0 < capacity) :
    ∃ c, Cache.new capacity = .ok c ∧
      (∀ ops q, (Fifo.initial capacity).legal ops = true →
        Nonempty (c.History fun k => ops.getD k (.lookup q))) ∧
      ∀ op, (∀ k, op k ≠ .clear) → ∀ (ρ : c.History op) (n : Nat),
        (ρ.departed n).map (·.2.page) ++ (ρ.entries n).map (·.page) = (ρ.appended n).map (·.2) ∧
        ∃ gone held, ρ.Accounted n gone held ∧
          ((∀ k, k < n → op k ≠ .evict) →
            held.length = min capacity (ρ.appended n).length ∧
            (ρ.departed n).map (·.1) = ((ρ.appended n).map (·.1)).drop capacity) := by
  obtain ⟨c, hnew, start⟩ := Cache.new_fifo hc
  refine ⟨c, hnew, ?_, ?_⟩
  · intro ops q hlegal
    rw [← start] at hlegal
    exact Cache.History.nonempty_of_legal q hlegal
  · intro op uncleared ρ n
    obtain ⟨gone, held, h⟩ := ρ.accounted hc start uncleared n
    refine ⟨h.pages, gone, held, h, ?_⟩
    intro kept
    obtain ⟨hlength, htimes⟩ := ρ.filled hc start uncleared kept
    exact ⟨h.resident.length_eq.trans hlength, htimes⟩

theorem entries_leave_in_order_past_a_flush :
    let r : Rights := ⟨true, false, false, false⟩
    let q : Request := ⟨⟨0x1abc⟩, .read, .supervisor⟩
    let ops : List Cache.Op :=
      [.refill ⟨0x1000⟩ ⟨⟨0xa000⟩, r, .base⟩, .refill ⟨0x2000⟩ ⟨⟨0xb000⟩, r, .base⟩,
        .refill ⟨0x1000⟩ ⟨⟨0xc000⟩, r, .base⟩, .flush .all, .lookup q,
        .refill ⟨0x1000⟩ ⟨⟨0xd000⟩, r, .base⟩, .evict]
    let op : Nat → Cache.Op := fun k => ops.getD k (.lookup q)
    (Fifo.initial 2).legal ops = true ∧ (∀ k, op k ≠ .clear) ∧
      ∃ c, Cache.new 2 = .ok c ∧ ∃ ρ : c.History op,
        (ρ.departed 7).map (·.2.page) ++ (ρ.entries 7).map (·.page) =
          [(0x1000, .base), (0x2000, .base), (0x1000, .base)] ∧
        (ρ.departed 6).map (·.1) = [5] := by
  intro r q ops op
  have hlegal : (Fifo.initial 2).legal ops = true := by decide
  have uncleared : ∀ k, op k ≠ .clear := by
    intro k
    match k with
    | 0 | 1 | 2 | 3 | 4 | 5 | 6 | k + 7 => exact nofun
  obtain ⟨c, hnew, hhistory, h⟩ := entries_leave_in_order 2 (by decide)
  obtain ⟨ρ⟩ : Nonempty (c.History op) := hhistory ops q hlegal
  have hrun : ((Cache.new 2).bind fun c =>
      Effect.run Cache.step c ((List.range 7).map op)).toOption.map (·.answer) =
      some [.refilled .inserted, .refilled .inserted, .refilled .replaced, .flushed 2, .found none,
        .refilled (.evicted ⟨0x1000, ⟨⟨0xc000⟩, r, .base⟩, false⟩),
        .evicted ⟨0x2000, ⟨⟨0xb000⟩, r, .base⟩, false⟩] := by
    decide +kernel
  obtain ⟨events, hr⟩ := Effect.run_range ρ.next 7
  rw [ρ.start] at hr
  simp only [hnew, Except.bind, hr, Except.toOption, Option.map_some, Option.some.injEq] at hrun
  simp only [List.range, List.range.loop, List.map_cons, List.map_nil, List.cons.injEq] at hrun
  obtain ⟨h0, h1, h2, h3, h4, h5, h6, -⟩ := hrun
  have appends : (List.range 7).map ρ.appends? =
      [some (0x1000, .base), some (0x2000, .base), none, none, none, some (0x1000, .base), none] := by
    simp only [List.range, List.range.loop, List.map_cons, List.map_nil, Cache.History.appends?, h0, h1,
      h2, h3, h4, h5, h6]
    decide
  simp only [List.range, List.range.loop, List.map_cons, List.map_nil, List.cons.injEq] at appends
  have happended : ρ.appended 7 = [(0, 0x1000, .base), (1, 0x2000, .base), (5, 0x1000, .base)] ∧
      ρ.appended 6 = [(0, 0x1000, .base), (1, 0x2000, .base), (5, 0x1000, .base)] := by
    simp [Cache.History.appended, Cache.listed, List.range, List.range.loop, appends]
  refine ⟨hlegal, uncleared, c, hnew, ρ, ?_, ?_⟩
  · rw [(h op uncleared ρ 7).1, happended.1]
    rfl
  · obtain ⟨-, gone, held, -, hkept⟩ := h op uncleared ρ 6
    rw [(hkept ?_).2, happended.2]
    · rfl
    · intro k hk
      match k with
      | 0 | 1 | 2 | 3 | 4 | 5 => exact nofun

end Sv32
