import Sv32.Memory.Listed
import Sv32.Memory.Ram
import Sv32.Walk

/-! # Flags only widen

The flags of the status register are looked at in one place: a walk asks whether the leaf that it has read
permits the request. They decide whether a page is given out, and never which page. -/
namespace Sv32

/-- A memory, with all that was read from it and written to it in order. -/
structure Watched (μ : Type) where
  memory : μ
  visits : List Visit

namespace Watched

def new {μ : Type} (mem : μ) : Watched μ := ⟨mem, []⟩

variable {μ : Type} [WordMemory μ]

instance : WordMemory (Watched μ) where
  readWord a w :=
    let (x, memory) := readWord a w.memory
    (x, ⟨memory, w.visits ++ [.read a x.toOption]⟩)
  writeWord a v w :=
    let (x, memory) := writeWord a v w.memory
    (x, ⟨memory, w.visits ++ [.write a v x.toBool]⟩)

def forget {α : Type} (x : α × Watched μ) : α × μ := (x.1, x.2.memory)

theorem load_forget (a : PhysAddr) (w : Watched μ) : forget (Walk.load a w) = Walk.load a w.memory := by
  simp only [Walk.load, WordMemory.readWord]
  cases readWord a w.memory with
  | mk x memory =>
    cases x with
    | error => rfl
    | ok v =>
      simp only [forget]
      split
      · rfl
      · split <;> rfl

theorem store_forget (a : PhysAddr) (old new : Pte) (w : Watched μ) :
    forget (Walk.store a old new w) = Walk.store a old new w.memory := by
  simp only [Walk.store, WordMemory.writeWord]
  split
  · rfl
  · cases writeWord a new.raw w.memory with
    | mk x memory => cases x <;> rfl

theorem finish_forget (s : Status) (q : Request) (level : PageLevel) (a : PhysAddr) (p : Pte)
    (w : Watched μ) :
    forget (Walk.finish s q level a p w) = Walk.finish s q level a p w.memory := by
  have hstore := store_forget a p (p.touch q.access) w
  simp only [Walk.finish, ← hstore]
  split
  · rfl
  · split
    · rfl
    · obtain ⟨x, w'⟩ := Walk.store a p (p.touch q.access) w
      cases x <;> rfl

theorem walk_forget (r : Registers) (q : Request) (w : Watched μ) :
    forget (walk r q w) = walk r q w.memory := by
  have hroot := load_forget (Walk.slot r.satp.rootPage .super q.vaddr) w
  simp only [walk, ← hroot]
  obtain ⟨x, w⟩ := Walk.load (Walk.slot r.satp.rootPage .super q.vaddr) w
  cases x with
  | error => rfl
  | ok t =>
    simp only [forget]
    split
    · have htable := load_forget (Walk.slot t.pageNumber .base q.vaddr) w
      simp only [← htable]
      obtain ⟨x, w⟩ := Walk.load (Walk.slot t.pageNumber .base q.vaddr) w
      cases x with
      | error => rfl
      | ok p =>
        simp only [forget]
        split
        · rfl
        · exact finish_forget ..
    · exact finish_forget ..

end Watched

namespace Pte

variable {p : Pte} {s t : Status} {q : Request}

theorem permits_mono (hsum : s.sum = true → t.sum = true) (hmxr : s.mxr = true → t.mxr = true)
    (h : p.permits s q = true) : p.permits t q = true := by
  obtain ⟨hgrants, hadmits⟩ := Bool.and_eq_true_iff.mp h
  apply Bool.and_eq_true_iff.mpr
  constructor
  · cases haccess : q.access with
    | read =>
      rw [haccess] at hgrants
      simp only [grants, Bool.or_eq_true, Bool.and_eq_true] at hgrants ⊢
      exact hgrants.imp id fun ⟨hm, hx⟩ => ⟨hmxr hm, hx⟩
    | fetch | write =>
      rw [haccess] at hgrants
      exact hgrants
  · cases hprivilege : q.privilege with
    | user =>
      rw [hprivilege] at hadmits
      exact hadmits
    | supervisor | machine =>
      rw [hprivilege] at hadmits
      simp only [admits, Bool.or_eq_true, Bool.and_eq_true] at hadmits ⊢
      exact hadmits.imp id fun ⟨hs, ha⟩ => ⟨hsum hs, ha⟩

theorem permits_congr_mxr (hmxr : s.mxr = t.mxr) (h : q.privilege = .user ∨ q.access = .fetch) :
    p.permits s q = p.permits t q := by
  obtain ⟨v, access, privilege⟩ := q
  simp only [permits]
  congr 1
  · cases access <;> simp only [grants, hmxr]
  · rcases h with rfl | rfl
    · rfl
    · cases privilege <;> simp [admits]

theorem permits_congr_sum (hsum : s.sum = t.sum) (h : q.access = .fetch ∨ q.access = .write) :
    p.permits s q = p.permits t q := by
  obtain ⟨v, access, privilege⟩ := q
  simp only [permits]
  congr 1
  · rcases h with rfl | rfl <;> rfl
  · cases privilege <;> simp only [admits, hsum]

end Pte

/-- What comes of a request under each set of flags: always the same, or one result wherever the flags permit
the request of one leaf, and elsewhere a refusal. -/
inductive ByFlags {μ : Type} (q : Request) (under : Status → Except Fault Leaf × μ) : Prop where
  | blind (x : Except Fault Leaf × μ) (h : ∀ s, under s = x)
  | asks (p : Pte) (x : Except Fault Leaf × μ) (mem : μ)
      (h : ∀ s, under s = if p.permits s q then x else (.error (.refused .notPermitted), mem))

namespace ByFlags

variable {μ : Type} {q : Request} {under : Status → Except Fault Leaf × μ} {s t : Status}

theorem congr (h : ByFlags q under) (same : ∀ p : Pte, p.permits s q = p.permits t q) :
    under s = under t := by
  cases h with
  | blind x h => rw [h s, h t]
  | asks p x mem h => rw [h s, h t, same p]

theorem eq_of_ok (h : ByFlags q under) {l : Leaf} (hs : (under s).1 = .ok l)
    (ht : (∀ p : Pte, p.permits s q = true → p.permits t q = true) ∨ ∃ l', (under t).1 = .ok l') :
    under t = under s := by
  cases h with
  | blind x h => rw [h s, h t]
  | asks p x mem h =>
    have permitted : ∀ {s l}, (under s).1 = .ok l → p.permits s q = true := by
      intro s l hl
      rw [h s] at hl
      by_cases hp : p.permits s q = true
      · exact hp
      · rw [if_neg hp] at hl
        cases hl
    have hps := permitted hs
    have hpt : p.permits t q = true := by
      rcases ht with mono | ⟨l', hl'⟩
      · exact mono p hps
      · exact permitted hl'
    rw [h s, h t, if_pos hps, if_pos hpt]

end ByFlags

section

variable {μ : Type} [WordMemory μ]

theorem finish_byFlags (q : Request) (level : PageLevel) (a : PhysAddr) (p : Pte) (mem : μ) :
    ByFlags q fun s => Walk.finish s q level a p mem := by
  by_cases hlow : (level = .super && p.lowPageNumber != 0) = true
  · refine .blind (.error (.refused .misalignedSuperpage), mem) ?_
    intro s
    simp only [Walk.finish, hlow, ↓reduceIte]
  · -- the one result is that of a leaf which is marked and given out
    rcases hs : Walk.store a p (p.touch q.access) mem with ⟨f | ⟨⟩, mem'⟩
    · refine .asks p (.error f, mem') mem ?_
      intro s
      simp only [Walk.finish, hlow, hs, Bool.false_eq_true, ↓reduceIte]
      cases p.permits s q <;> rfl
    · refine .asks p (.ok ((p.touch q.access).leaf level), mem') mem ?_
      intro s
      simp only [Walk.finish, hlow, hs, Bool.false_eq_true, ↓reduceIte]
      cases p.permits s q <;> rfl

theorem walk_byFlags (satp : Satp) (q : Request) (mem : μ) :
    ByFlags q fun s => walk ⟨satp, s⟩ q mem := by
  cases hroot : Walk.load (Walk.slot satp.rootPage .super q.vaddr) mem with
  | mk x mem₁ =>
    cases x with
    | error f =>
      simp only [walk, hroot]
      exact .blind _ fun _ => rfl
    | ok t =>
      by_cases hpointer : t.isPointer = true
      · simp only [walk, hroot, hpointer, ↓reduceIte]
        cases htable : Walk.load (Walk.slot t.pageNumber .base q.vaddr) mem₁ with
        | mk x mem₂ =>
          cases x with
          | error f => exact .blind _ fun _ => rfl
          | ok p =>
            by_cases hlast : p.isPointer = true
            · simp only [hlast, ↓reduceIte]
              exact .blind _ fun _ => rfl
            · simp only [hlast, Bool.false_eq_true, ↓reduceIte]
              exact finish_byFlags q .base _ p mem₂
      · simp only [walk, hroot, hpointer, Bool.false_eq_true, ↓reduceIte]
        exact finish_byFlags q .super _ t mem₁

end

/-- On any memory: a walk that gives out a leaf gives out the same leaf under any flags that include its
own, with the same reads and writes in the same order. The flag for user pages makes no difference to user
mode or to a fetch, the one for executable pages none to a fetch or a store. -/
theorem flags_only_widen {μ : Type} [WordMemory μ] (satp : Satp) (q : Request) (mem : μ) :
    let under (s : Status) := walk ⟨satp, s⟩ q (Watched.new mem)
    (∀ s, ((under s).1, (under s).2.memory) = walk ⟨satp, s⟩ q mem) ∧
    (∀ s t l, (s.sum = true → t.sum = true) → (s.mxr = true → t.mxr = true) →
      (under s).1 = .ok l → under t = under s) ∧
    (∀ s t l l', (under s).1 = .ok l → (under t).1 = .ok l' → under t = under s) ∧
    (∀ s t, s.mxr = t.mxr → q.privilege = .user ∨ q.access = .fetch → under s = under t) ∧
    (∀ s t, s.sum = t.sum → q.access = .fetch ∨ q.access = .write → under s = under t) := by
  intro under
  refine ⟨fun s => Watched.walk_forget ⟨satp, s⟩ q (.new mem), ?_, ?_, ?_, ?_⟩
  · intro s t l hsum hmxr h
    exact (walk_byFlags satp q _).eq_of_ok h (Or.inl fun p => Pte.permits_mono hsum hmxr)
  · intro s t l l' h h'
    exact (walk_byFlags satp q _).eq_of_ok h (Or.inr ⟨l', h'⟩)
  · intro s t hmxr hq
    exact (walk_byFlags satp q _).congr fun p => Pte.permits_congr_mxr hmxr hq
  · intro s t hsum hq
    exact (walk_byFlags satp q _).congr fun p => Pte.permits_congr_sum hsum hq

theorem flags_only_widen_on_a_user_page :
    let mem := ((Ram.new ⟨0⟩ 0x4000).setBytes 0x1004 (Word.littleEndian 0x801)).setBytes 0x2004
      (Word.littleEndian 0x1417)
    let under (q : Request) (s : Status) := walk ⟨⟨0x80000001⟩, s⟩ q (Watched.new mem)
    let read : Request := ⟨⟨0x00401abc⟩, .read, .supervisor⟩
    let store : Request := ⟨⟨0x00401abc⟩, .write, .user⟩
    let l : Leaf := ⟨⟨0x5000⟩, ⟨true, false, false, true⟩, .base⟩
    (under read ⟨false, true⟩).1.toOption = none ∧ (under read ⟨true, false⟩).1 = .ok l ∧
      under read ⟨true, true⟩ = under read ⟨true, false⟩ ∧
      (under read ⟨true, false⟩).2.visits = [.read ⟨0x1004⟩ (some 0x801), .read ⟨0x2004⟩ (some 0x1417),
        .write ⟨0x2004⟩ 0x1457 true] ∧
      under store ⟨false, true⟩ = under store ⟨true, false⟩ ∧
      under store ⟨false, false⟩ = under store ⟨true, true⟩ := by
  intro mem under read store l
  have hread : (under read ⟨true, false⟩).1 = .ok l :=
    congrArg Prod.fst (walk_eq_of_toOption (by decide))
  have hstore : ∀ s, (under store s).1.toOption = some ⟨⟨0x5000⟩, ⟨true, true, false, true⟩, .base⟩ →
      (under store s).1 = .ok ⟨⟨0x5000⟩, ⟨true, true, false, true⟩, .base⟩ :=
    fun s h => congrArg Prod.fst (walk_eq_of_toOption h)
  obtain ⟨-, widens, -⟩ := flags_only_widen ⟨0x80000001⟩ read mem
  obtain ⟨-, -, agree, sum, mxr⟩ := flags_only_widen ⟨0x80000001⟩ store mem
  have hagree := agree ⟨true, false⟩ ⟨false, true⟩ _ _ (hstore _ (by decide)) (hstore _ (by decide))
  have hsum := sum ⟨false, false⟩ ⟨true, false⟩ rfl (Or.inl rfl)
  have hmxr := mxr ⟨true, false⟩ ⟨true, true⟩ rfl (Or.inr rfl)
  exact ⟨by decide, hread, widens ⟨true, false⟩ ⟨true, true⟩ l (fun _ => rfl) nofun hread, by decide,
    hagree, hsum.trans hmxr⟩

end Sv32
