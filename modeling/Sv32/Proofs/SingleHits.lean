import Sv32.Proofs.Marks
import Sv32.Proofs.Victims

/-! # No double hits

In a fenced program no two valid entries of a side contain one address. At one level the refills see to
this; of a page and a superpage around it, only one can be what the tables hold. -/
namespace Sv32

theorem find?_of_perm {α : Type} {p : α → Bool} {es fs : List α} (h : fs.Perm es)
    (one : es.countP p ≤ 1) : fs.find? p = es.find? p := by
  have hp := h.filter p
  rw [List.countP_eq_length_filter] at one
  rw [← List.head?_filter, ← List.head?_filter]
  cases hes : es.filter p with
  | nil =>
    rw [hes] at hp
    rw [hp.eq_nil]
  | cons e rest =>
    rw [hes] at hp one
    obtain rfl : rest = [] := List.length_eq_zero_iff.mp (Nat.le_zero.mp (Nat.le_of_succ_le_succ one))
    rw [List.perm_singleton.mp hp]

namespace Machine

def Unambiguous (s : Machine) : Prop :=
  ∀ side v, (s.held side).entries.countP (·.covers v) ≤ 1

variable {s t : Machine} {c : Command} {a : Answer} {pending : Bool}

theorem Unambiguous.lookup (h : s.Unambiguous) (side : Side) (q : Request) {es : List Entry}
    (hp : es.Perm (s.held side).entries) :
    (es.find? (·.serves q)).map (·.translate q.vaddr) = (s.mmu.tlb.lookup side q).1 := by
  have one : (s.held side).entries.countP (·.serves q) ≤ 1 := by
    refine Nat.le_trans (List.countP_mono_left ?_) (h side q.vaddr)
    intro e _ he
    exact (Bool.and_eq_true_iff.mp he).1
  rw [find?_of_perm hp one]
  rfl

theorem Synced.unambiguous (hs : s.Synced false) : s.Unambiguous := by
  intro side v
  by_cases h : ∃ e ∈ (s.held side).entries, e.covers v = true
  · obtain ⟨e, he, hc⟩ := h
    have leaf : ∀ e ∈ (s.held side).entries, e.covers v = true →
        ∃ a p, LeafAt s.plain.ram s.plain.registers.satp.rootPage v e.leaf.level a p := by
      intro e he hc
      obtain ⟨hv, hp⟩ := (e.covers_iff v).mp hc
      obtain ⟨a, p, leaf, -⟩ := hs.backed rfl side e he hv v hp
      exact ⟨a, p, leaf⟩
    obtain ⟨a, p, hleaf⟩ := leaf e he hc
    have same : ∀ e' ∈ (s.held side).entries, e'.covers v = true → e'.leaf.level = e.leaf.level := by
      intro e' he' hc'
      obtain ⟨a', p', hleaf'⟩ := leaf e' he' hc'
      exact (hleaf.unique hleaf').1
    exact Fifo.countP_covers_le_one (hs.sound side).distinct same
  · have none : ∀ e ∈ (s.held side).entries, ¬ e.covers v = true := fun e he hc => h ⟨e, he, hc⟩
    rw [List.countP_eq_zero.mpr none]
    exact Nat.zero_le 1

theorem countP_covers_flush (f : Fifo) (v : VirtAddr) : f.flush.entries.countP (·.covers v) = 0 := by
  rw [List.countP_eq_zero]
  intro e he hc
  have hv := ((e.covers_iff v).mp hc).1
  rw [Fifo.mem_flush he] at hv
  cases hv

theorem Step.unambiguous (h : s.Step c a t) (hs : s.Synced pending)
    (hc : c.translates = true → pending = false) (hu : s.Unambiguous) : t.Unambiguous := by
  have ht := h.synced hs hc
  cases h with
  | @translate q x _ h =>
    -- no write awaits its flush, before the request and after it
    rw [hc rfl] at ht
    exact ht.unambiguous
  | other _ _ held =>
    intro side v
    rw [held]
    split
    · rw [countP_covers_flush]
      exact Nat.zero_le 1
    · exact hu side v

/-- A write to memory leaves the entries alone, and until it is flushed nothing new is cached: they stay
unambiguous while the tables no longer say why. -/
theorem run_unambiguous {cs : List Command} (hs : s.Synced pending) (hu : s.Unambiguous)
    (hf : fenced s.plain.registers.satp pending cs = true) :
    ∃ e, Effect.run watch s cs = .ok e ∧ e.state.Unambiguous := by
  let P (s : Machine) (cs : List Command) : Prop :=
    s.Unambiguous ∧ ∃ pending, s.Synced pending ∧ fenced s.plain.registers.satp pending cs = true
  have next : ∀ {s c cs a t}, P s (c :: cs) → s.Step c a t →
      s.plain.step c = (a, t.plain) ∧ P t cs := by
    rintro s c cs a t ⟨hu, pending, hs, hf⟩ h
    simp only [fenced, Bool.and_eq_true, Bool.not_eq_true', Bool.and_eq_false_iff] at hf
    obtain ⟨hc, hf⟩ := hf
    have hc : c.translates = true → pending = false := fun ht => hc.resolve_left (by simp [ht])
    rw [← h.satp] at hf
    exact ⟨h.eq_plain hs hc, h.unambiguous hs hc hu, _, h.synced hs hc, hf⟩
  obtain ⟨e, hrun, -, -, he, -⟩ := run_eq_plain next ⟨hu, pending, hs, hf⟩
  exact ⟨e, hrun, he⟩

end Machine

/-- At every point of a fenced program, between a write and its flush too, an address is contained in one
valid entry of a side at most, base pages and superpages taken together. So a lookup has the same answer
in whatever order the side is searched. -/
theorem at_most_one_entry_covers (instruction data : Nat) (hi : 0 < instruction) (hd : 0 < data)
    (ram : Ram) (cs : List Command) (hf : fenced default false cs = true) :
    ∃ m, Mmu.new instruction data = .ok m ∧ ∀ before after, cs = before ++ after →
      ∃ e, Effect.run Machine.watch ⟨m, ram⟩ before = .ok e ∧ ∀ side,
        (∀ v, (e.state.mmu.tlb.bank side).cache.entries.countP (·.covers v) ≤ 1) ∧
        ∀ q (es : List Entry), es.Perm (e.state.mmu.tlb.bank side).cache.entries →
          (es.find? (·.serves q)).map (·.translate q.vaddr) = (e.state.mmu.tlb.lookup side q).1 := by
  obtain ⟨m, hm, hnew⟩ := Machine.new_mmu hi hd
  refine ⟨m, hm, ?_⟩
  rintro before after rfl
  obtain ⟨hplain, hsound, hempty⟩ := hnew ram
  rw [fenced_append, Bool.and_eq_true] at hf
  have hf : fenced (Machine.mk m ram).plain.registers.satp false before = true := by
    rw [hplain]
    exact hf.1
  have hs : (Machine.mk m ram).Synced false := by
    refine ⟨hsound, ?_⟩
    intro _ side e he
    rw [hempty] at he
    cases he
  have hu : (Machine.mk m ram).Unambiguous := by
    intro side v
    rw [hempty]
    exact Nat.zero_le 1
  obtain ⟨e, hrun, he⟩ := Machine.run_unambiguous hs hu hf
  exact ⟨e, hrun, fun side => ⟨he side, fun q es => he.lookup side q⟩⟩

theorem at_most_one_entry_covers_a_split_superpage :
    let q : Request := ⟨⟨0x00401abc⟩, .read, .supervisor⟩
    let cs : List Command :=
      [.writeSatp 0x80000001, .writeWord ⟨0x1004⟩ 0x00100003, .fence .all, .translate q,
        .writeWord ⟨0x1004⟩ 0x801, .writeWord ⟨0x2004⟩ 0x1403, .fence ⟨some 3, none⟩, .translate q,
        .writeWord ⟨0x2004⟩ 0]
    fenced default false cs = true ∧
      ∃ m e, Mmu.new 2 2 = .ok m ∧ Effect.run Machine.watch ⟨m, .new ⟨0⟩ 0x4000⟩ cs = .ok e ∧
        (e.state.mmu.tlb.data.cache.entries.map fun e => (e.valid, e.leaf.level)) =
          [(false, .super), (true, .base)] ∧
        e.state.mmu.tlb.data.cache.entries.countP (·.covers q.vaddr) ≤ 1 ∧
        (e.state.mmu.tlb.data.cache.entries.reverse.find? (·.serves q)).map (·.translate q.vaddr) =
          some ⟨0x5abc⟩ := by
  intro q cs
  have hf : fenced default false cs = true := by decide
  obtain ⟨m, hm, h⟩ := at_most_one_entry_covers 2 2 (by decide) (by decide) (.new ⟨0⟩ 0x4000) cs hf
  obtain ⟨e, he, h⟩ := h cs [] (List.append_nil cs).symm
  obtain ⟨one, scan⟩ := h .data
  have hrun : ((do
      let m ← Mmu.new 2 2
      let e ← Effect.run Machine.watch ⟨m, .new ⟨0⟩ 0x4000⟩ cs
      return (e.state.mmu.tlb.data.cache.entries.map fun e => (e.valid, e.leaf.level),
        (e.state.mmu.tlb.lookup .data q).1) :
        Except Violation (List (Bool × PageLevel) × Option PhysAddr))).toOption =
      some ([(false, .super), (true, .base)], some ⟨0x5abc⟩) := by
    decide +kernel
  simp only [hm, he, bind, Except.bind, pure, Except.pure, Except.toOption, Option.some.injEq,
    Prod.mk.injEq] at hrun
  obtain ⟨hentries, hfound⟩ := hrun
  exact ⟨hf, m, e, hm, he, hentries, one q.vaddr,
    (scan q _ (List.reverse_perm _)).trans hfound⟩

end Sv32
