import Sv32.Proofs.LeafRule

/-! # Memories alike

Two memories are alike when they agree but for the accessed and the dirty bits of their words. No walk sees
the difference: two walks of one request end alike, and leave memories that are alike again. -/
namespace Sv32

namespace Pte

/-- The same entry but for the two bits that a walk may set. -/
def Alike (p p' : Pte) : Prop := ∀ i, i ≠ 6 → i ≠ 7 → p'.raw.getLsbD i = p.raw.getLsbD i

variable {p p' : Pte}

theorem Alike.symm (h : p.Alike p') : p'.Alike p := fun i h6 h7 => (h i h6 h7).symm

theorem Alike.trans {p'' : Pte} (h : p.Alike p') (h' : p'.Alike p'') : p.Alike p'' := by
  intro i h6 h7
  rw [h' i h6 h7, h i h6 h7]

theorem alike_touch (p : Pte) (access : Access) : p.Alike (p.touch access) := by
  intro i h6 h7
  simp [getLsbD_touch, beq_false_of_ne h6, beq_false_of_ne h7]

theorem Alike.readable (h : p.Alike p') : p'.readable = p.readable := h 1 (by decide) (by decide)

theorem Alike.writable (h : p.Alike p') : p'.writable = p.writable := h 2 (by decide) (by decide)

theorem Alike.executable (h : p.Alike p') : p'.executable = p.executable :=
  h 3 (by decide) (by decide)

theorem Alike.user (h : p.Alike p') : p'.user = p.user := h 4 (by decide) (by decide)

theorem Alike.valid (h : p.Alike p') : p'.valid = p.valid := h 0 (by decide) (by decide)

theorem Alike.pageNumber (h : p.Alike p') : p'.pageNumber = p.pageNumber := by
  apply BitVec.eq_of_getLsbD_eq
  intro i _
  simp only [Pte.pageNumber, BitVec.getLsbD_extractLsb', h (10 + i) (by omega) (by omega)]

theorem Alike.lowPageNumber (h : p.Alike p') : p'.lowPageNumber = p.lowPageNumber := by
  apply BitVec.eq_of_getLsbD_eq
  intro i _
  simp only [Pte.lowPageNumber, BitVec.getLsbD_extractLsb', h (10 + i) (by omega) (by omega)]

theorem Alike.isReserved (h : p.Alike p') : p'.isReserved = p.isReserved := by
  simp only [Pte.isReserved, h.readable, h.writable]

theorem Alike.isPointer (h : p.Alike p') : p'.isPointer = p.isPointer := by
  simp only [Pte.isPointer, h.readable, h.writable, h.executable]

theorem permits_congr (hr : p'.readable = p.readable) (hw : p'.writable = p.writable)
    (hx : p'.executable = p.executable) (hu : p'.user = p.user) (s : Status) (q : Request) :
    p'.permits s q = p.permits s q := by
  obtain ⟨v, access, privilege⟩ := q
  cases access <;> cases privilege <;> simp only [Pte.permits, grants, admits, hr, hw, hx, hu]

theorem Alike.permits (h : p.Alike p') (s : Status) (q : Request) : p'.permits s q = p.permits s q :=
  permits_congr h.readable h.writable h.executable h.user s q

theorem touch_comm (p : Pte) (x y : Access) : (p.touch x).touch y = (p.touch y).touch x := by
  simp only [touch]
  congr 1
  ac_rfl

end Pte

namespace Ram

/-- Replaces the word at `a` by what `f` makes of it, if there is one. -/
def adjust (m : Ram) (a : PhysAddr) (f : Word → Word) : Ram :=
  match m.locateWord a with
  | .ok o => m.setBytes o (Word.littleEndian (f (m.word o)))
  | .error _ => m

variable {m m' : Ram} {a b : PhysAddr} {f g : Word → Word}

theorem adjust_of_located {o : Nat} (h : m.locateWord a = .ok o) :
    m.adjust a f = m.setBytes o (Word.littleEndian (f (m.word o))) := by
  simp only [adjust, h]

theorem adjust_of_missing {e : BusError} (h : m.locateWord a = .error e) : m.adjust a f = m := by
  simp only [adjust, h]

@[simp] theorem base_adjust : (m.adjust a f).base = m.base := by
  unfold adjust
  split
  · exact base_setBytes ..
  · rfl

@[simp] theorem size_adjust : (m.adjust a f).size = m.size := by
  unfold adjust
  split
  · exact size_setBytes ..
  · rfl

theorem locateWord_adjust : (m.adjust a f).locateWord b = m.locateWord b := by
  unfold adjust
  split
  · exact locateWord_setBytes ..
  · rfl

theorem readWord_adjust {w : Word} (h : m.readWord b = .ok w) :
    (m.adjust a f).readWord b = .ok (if b = a then f w else w) := by
  rw [readWord_eq_map] at h
  cases ha : m.locateWord a with
  | error e =>
    have hba : b ≠ a := by
      rintro rfl
      rw [ha] at h
      cases h
    rw [adjust_of_missing ha, if_neg hba, readWord_eq_map, h]
  | ok o =>
    rw [adjust_of_located ha, readWord_setBytes ha]
    split
    · rename_i hba
      rw [hba, ha] at h
      cases h
      rfl
    · rw [readWord_eq_map, h]

theorem adjust_comm (hfg : ∀ w, f (g w) = g (f w)) :
    (m.adjust a f).adjust b g = (m.adjust b g).adjust a f := by
  cases ha : m.locateWord a with
  | error e =>
    rw [adjust_of_missing ha, adjust_of_missing (locateWord_adjust.trans ha)]
  | ok o =>
    cases hb : m.locateWord b with
    | error e =>
      rw [adjust_of_missing hb, adjust_of_missing (locateWord_adjust.trans hb)]
    | ok p =>
      rw [adjust_of_located (locateWord_adjust.trans hb), adjust_of_located ha,
        adjust_of_located (locateWord_adjust.trans ha), adjust_of_located hb]
      -- one word is changed twice, or two words that do not overlap
      by_cases hab : b = a
      · have hop : p = o := by
          rw [hab, ha] at hb
          exact (Except.ok.inj hb).symm
        have again : ∀ w w' : Word, (m.setBytes o w.littleEndian).setBytes o w'.littleEndian =
            m.setBytes o w'.littleEndian := fun w w' => setBytes_setBytes m o rfl
        rw [hop, word_setBytes, word_setBytes, again, again, hfg]
      · have apart := locateWord_apart ha hb hab
        rw [word_setBytes_of_apart _ apart, word_setBytes_of_apart _ apart.symm]
        exact setBytes_comm _ apart

theorem writtenBack_adjust {p new : Pte} (hp : EntryAt m a p) (hf : f p.raw = new.raw) :
    WrittenBack m a p new (m.adjust a f) := by
  have hr := hp.readWord_eq
  change m.readWord a = .ok p.raw at hr
  rw [readWord_eq_map] at hr
  cases ho : m.locateWord a with
  | error e => rw [ho] at hr; cases hr
  | ok o =>
    rw [ho] at hr
    have hw : m.word o = p.raw := Except.ok.inj hr
    rw [adjust_of_located ho, hw, hf]
    by_cases hn : new = p
    · refine Or.inl ⟨hn, ?_⟩
      rw [hn, ← hw]
      exact m.setBytes_word o
    · refine Or.inr ⟨hn, ?_⟩
      simp only [WordMemory.writeWord, writeWord_eq_map, ho]
      rfl

/-- Marks the entry at an address for an access; without an address nothing is marked. -/
def mark (m : Ram) (access : Access) : Option PhysAddr → Ram
  | none => m
  | some a => m.adjust a fun w => ((Pte.mk w).touch access).raw

theorem mark_comm (m : Ram) (x y : Access) (a b : Option PhysAddr) :
    (m.mark x a).mark y b = (m.mark y b).mark x a := by
  cases a with
  | none => rfl
  | some a =>
    cases b with
    | none => rfl
    | some b =>
      simp only [mark]
      exact adjust_comm fun w => congrArg Pte.raw (Pte.touch_comm ⟨w⟩ y x)

theorem writtenBack_mark {p : Pte} (hp : EntryAt m a p) (access : Access) :
    WrittenBack m a p (p.touch access) (m.mark access (some a)) := by
  rw [mark]
  exact writtenBack_adjust hp rfl

/-- Two memories of one place and size whose words differ in marks only. -/
structure Alike (m m' : Ram) : Prop where
  base : m'.base = m.base
  size : m'.size = m.size
  words : ∀ a w w', m.readWord a = .ok w → m'.readWord a = .ok w' → (Pte.mk w).Alike ⟨w'⟩

theorem Alike.symm (h : m.Alike m') : m'.Alike m :=
  ⟨h.base.symm, h.size.symm, fun a w w' hw hw' => (h.words a w' w hw' hw).symm⟩

theorem Alike.locateWord (h : m.Alike m') (a : PhysAddr) : m'.locateWord a = m.locateWord a := by
  simp only [Ram.locateWord, locate, h.base, h.size]

theorem Alike.readWord (h : m.Alike m') {w : Word} (hw : m.readWord a = .ok w) :
    ∃ w', m'.readWord a = .ok w' ∧ (Pte.mk w).Alike ⟨w'⟩ := by
  have hw' := hw
  rw [readWord_eq_map] at hw'
  cases ho : m.locateWord a with
  | error e => rw [ho] at hw'; cases hw'
  | ok o =>
    have hr : m'.readWord a = .ok (m'.word o) := by
      rw [readWord_eq_map, h.locateWord, ho]
      rfl
    exact ⟨_, hr, h.words a w _ hw hr⟩

theorem Alike.readWord_error (h : m.Alike m') {e : BusError} (he : m.readWord a = .error e) :
    m'.readWord a = .error e := by
  rw [readWord_eq_map] at he ⊢
  rw [h.locateWord]
  cases ho : m.locateWord a with
  | error _ =>
    rw [ho] at he
    cases he
    rfl
  | ok _ =>
    rw [ho] at he
    cases he

theorem Alike.trans {m'' : Ram} (h : m.Alike m') (h' : m'.Alike m'') : m.Alike m'' := by
  refine ⟨h'.base.trans h.base, h'.size.trans h.size, ?_⟩
  intro a w w'' hw hw''
  obtain ⟨w', hw', hp⟩ := h.readWord hw
  exact hp.trans (h'.words a w' w'' hw' hw'')

theorem Alike.entryAt (h : m.Alike m') {p : Pte} (hp : EntryAt m a p) :
    ∃ p', EntryAt m' a p' ∧ p.Alike p' := by
  obtain ⟨w', hw', hp'⟩ := h.readWord hp.readWord_eq
  refine ⟨⟨w'⟩, ⟨hw', ?_, ?_⟩, hp'⟩
  · rw [hp'.valid]
    exact hp.valid
  · rw [hp'.writable, hp'.readable]
    exact hp.not_reserved

theorem Alike.leafAt (h : m.Alike m') {root : BitVec 22} {v : VirtAddr} {level : PageLevel} {p : Pte}
    (hl : LeafAt m root v level a p) : ∃ p', LeafAt m' root v level a p' ∧ p.Alike p' := by
  cases hl with
  | super entry leaf aligned =>
    obtain ⟨p', entry', hp⟩ := h.entryAt entry
    refine ⟨p', .super entry' ?_ ?_, hp⟩
    · simpa [Pte.GrantsSome, hp.readable, hp.executable] using leaf
    · rw [hp.pageNumber]
      exact aligned
  | base top pointer entry leaf =>
    obtain ⟨t', top', ht⟩ := h.entryAt top
    obtain ⟨p', entry', hp⟩ := h.entryAt entry
    rw [← ht.pageNumber] at entry' ⊢
    refine ⟨p', .base top' ?_ entry' ?_, hp⟩
    · simpa [Pte.GrantsNone, ht.readable, ht.writable, ht.executable] using pointer
    · simpa [Pte.GrantsSome, hp.readable, hp.executable] using leaf

theorem alike_refl (m : Ram) : m.Alike m := by
  refine ⟨rfl, rfl, ?_⟩
  intro a w w' hw hw' i _ _
  rw [hw] at hw'
  cases hw'
  rfl

theorem alike_mark (m : Ram) (access : Access) (a : Option PhysAddr) : m.Alike (m.mark access a) := by
  cases a with
  | none => exact m.alike_refl
  | some a =>
    rw [mark]
    refine ⟨base_adjust, size_adjust, ?_⟩
    intro b w w' hw hw'
    rw [readWord_adjust hw] at hw'
    cases hw'
    split
    · exact Pte.alike_touch ⟨w⟩ access
    · exact fun _ _ _ => rfl

theorem store_eq_mark {p : Pte} (hp : EntryAt m a p) (access : Access) :
    Walk.store a p (p.touch access) m = (.ok (), m.mark access (some a)) := by
  have hw := writtenBack_mark hp access
  rcases store_cases a p (p.touch access) m with ⟨n, hn, hs⟩ | ⟨hn, -⟩
  · rw [hs, hn.unique hw]
  · exact absurd hw (hn _)

/-- How two walks of one request end: each with the leaf that its own memory holds at one address, which is
marked there, or both with the same fault and with nothing written. -/
inductive SameEnd (r : Registers) (q : Request) (m m' : Ram) :
    Except Fault Leaf × Ram → Except Fault Leaf × Ram → Prop where
  | found {level : PageLevel} {a : PhysAddr} {p p' : Pte}
      (leaf : LeafAt m r.satp.rootPage q.vaddr level a p)
      (leaf' : LeafAt m' r.satp.rootPage q.vaddr level a p') (alike : p.Alike p') :
      SameEnd r q m m' (.ok ((p.touch q.access).leaf level), m.mark q.access (some a))
        (.ok ((p'.touch q.access).leaf level), m'.mark q.access (some a))
  | failed (f : Fault) : SameEnd r q m m' (.error f, m) (.error f, m')

section

variable {r : Registers} {q : Request}

theorem Alike.load (h : m.Alike m') (a : PhysAddr) :
    (∃ p p', EntryAt m a p ∧ EntryAt m' a p' ∧ p.Alike p' ∧
        Walk.load a m = (.ok p, m) ∧ Walk.load a m' = (.ok p', m')) ∨
      ∃ f, Walk.load a m = (.error f, m) ∧ Walk.load a m' = (.error f, m') := by
  cases hr : m.readWord a with
  | error e =>
    have hr' := h.readWord_error hr
    refine Or.inr ⟨.unreachable a, ?_, ?_⟩
    · simp only [Walk.load, WordMemory.readWord, hr]
    · simp only [Walk.load, WordMemory.readWord, hr']
  | ok w =>
    obtain ⟨w', hr', hp⟩ := h.readWord hr
    by_cases hv : (⟨w⟩ : Pte).valid = true
    · by_cases hs : (⟨w⟩ : Pte).isReserved = true
      · refine Or.inr ⟨.refused .reservedEncoding, ?_, ?_⟩
        · simp [Walk.load, WordMemory.readWord, hr, hv, hs]
        · simp [Walk.load, WordMemory.readWord, hr', hp.valid, hp.isReserved, hv, hs]
      · have entry : EntryAt m a ⟨w⟩ := by
          refine ⟨hr, hv, ?_⟩
          intro hw
          simpa [Pte.isReserved, hw] using hs
        obtain ⟨p', entry', hp'⟩ := h.entryAt entry
        obtain rfl : p' = ⟨w'⟩ := by
          have hraw : p'.raw = w' := Except.ok.inj (entry'.readWord_eq.symm.trans hr')
          exact congrArg Pte.mk hraw
        refine Or.inl ⟨⟨w⟩, ⟨w'⟩, entry, entry', hp, ?_, ?_⟩
        · simp [Walk.load, WordMemory.readWord, hr, hv, hs]
        · simp [Walk.load, WordMemory.readWord, hr', hp.valid, hp.isReserved, hv, hs]
    · refine Or.inr ⟨.refused .notValid, ?_, ?_⟩
      · simp [Walk.load, WordMemory.readWord, hr, hv]
      · simp [Walk.load, WordMemory.readWord, hr', hp.valid, hv]

/-- The checks of a leaf do not look at its marks, and flat memory takes back the words that it gave. -/
theorem finish_alike {level : PageLevel} {p p' : Pte} (entry : EntryAt m a p) (entry' : EntryAt m' a p')
    (hp : p.Alike p') (leaf : p.Aligned level → LeafAt m r.satp.rootPage q.vaddr level a p)
    (leaf' : p'.Aligned level → LeafAt m' r.satp.rootPage q.vaddr level a p') :
    SameEnd r q m m' (Walk.finish r.status q level a p m) (Walk.finish r.status q level a p' m') := by
  have hlow := hp.lowPageNumber
  by_cases hl : (level = .super && p.lowPageNumber != 0) = true
  · have hl' : (level = .super && p'.lowPageNumber != 0) = true := by rw [hlow, hl]
    simp only [Walk.finish, hl, hl', ↓reduceIte]
    exact .failed _
  · have hl := Bool.of_not_eq_true hl
    have hl' : (level = .super && p'.lowPageNumber != 0) = false := by rw [hlow, hl]
    by_cases ha : p.permits r.status q = true
    · have ha' : p'.permits r.status q = true := (hp.permits r.status q).trans ha
      simp only [Walk.finish, hl, hl', ha, ha', store_eq_mark entry, store_eq_mark entry', Bool.not_true,
        Bool.false_eq_true, ↓reduceIte]
      exact .found (leaf ((p.aligned_iff level).mpr hl)) (leaf' ((p'.aligned_iff level).mpr hl')) hp
    · have ha := Bool.of_not_eq_true ha
      have ha' : p'.permits r.status q = false := (hp.permits r.status q).trans ha
      simp only [Walk.finish, hl, hl', ha, ha', Bool.not_false, Bool.false_eq_true, ↓reduceIte]
      exact .failed _

theorem walk_alike (h : m.Alike m') (r : Registers) (q : Request) :
    SameEnd r q m m' (walk r q m) (walk r q m') := by
  simp only [walk, slot_eq_tableWord]
  rcases h.load (tableWord r.satp.rootPage (q.vaddr.vpn .super)) with
    ⟨t, t', top, top', ht, hload, hload'⟩ | ⟨f, hload, hload'⟩
  · simp only [hload, hload', ht.isPointer, ht.pageNumber]
    by_cases hpointer : t.isPointer = true
    · have pointer := t.isPointer_iff.mp hpointer
      have pointer' := t'.isPointer_iff.mp (ht.isPointer.trans hpointer)
      simp only [hpointer, ↓reduceIte]
      rcases h.load (tableWord t.pageNumber (q.vaddr.vpn .base)) with
        ⟨p, p', entry, entry', hp, hload, hload'⟩ | ⟨f, hload, hload'⟩
      · simp only [hload, hload', hp.isPointer]
        by_cases hlast : p.isPointer = true
        · simp only [hlast, ↓reduceIte]
          exact .failed _
        · have grants := entry.grantsSome_of_not_pointer hlast
          have grants' := entry'.grantsSome_of_not_pointer (hp.isPointer ▸ hlast)
          simp only [hlast, Bool.false_eq_true, ↓reduceIte]
          refine finish_alike entry entry' hp (fun _ => .base top pointer entry grants) fun _ => ?_
          rw [← ht.pageNumber] at entry' ⊢
          exact .base top' pointer' entry' grants'
      · simp only [hload, hload']
        exact .failed f
    · have grants := top.grantsSome_of_not_pointer hpointer
      have grants' := top'.grantsSome_of_not_pointer (ht.isPointer ▸ hpointer)
      simp only [hpointer, Bool.false_eq_true, ↓reduceIte]
      exact finish_alike top top' ht (fun aligned => .super top grants (aligned rfl))
        fun aligned => .super top' grants' (aligned rfl)
  · simp only [hload, hload']
    exact .failed f

theorem SameEnd.alike {x x' : Except Fault Leaf × Ram} (h : SameEnd r q m m' x x') : m.Alike x.2 := by
  cases h with
  | @found _ a => exact m.alike_mark q.access (some a)
  | failed => exact m.alike_refl

theorem alike_of_walk {x : Except Fault Leaf} (h : walk r q m = (x, m')) : m.Alike m' := by
  have hleft := (walk_alike m.alike_refl r q).alike
  rw [h] at hleft
  exact hleft

end

end Ram

/-- Two walks of one request in memories that are alike come to the same fault, or to the same page with the
same rights but for that to write, which goes by the mark that each has read or set. The memories that they
leave are alike again. -/
theorem walks_ignore_marks (r : Registers) (q : Request) (m m' : Ram) (h : m.Alike m') :
    (∃ f, walk r q m = (.error f, m) ∧ walk r q m' = (.error f, m')) ∨
      ∃ a p p' l l' n n', walk r q m = (.ok l, n) ∧ walk r q m' = (.ok l', n') ∧ n.Alike n' ∧
        LeafAt m r.satp.rootPage q.vaddr l.level a p ∧
        LeafAt m' r.satp.rootPage q.vaddr l.level a p' ∧
        l.rights = ⟨p.readable, p.writable && (p.dirty || q.access == .write), p.executable, p.user⟩ ∧
        l' = { l with
          rights := { l.rights with write := p'.writable && (p'.dirty || q.access == .write) } } := by
  have hends := Ram.walk_alike h r q
  generalize walk r q m = x, walk r q m' = x' at hends ⊢
  cases hends with
  | failed f => exact Or.inl ⟨f, rfl, rfl⟩
  | @found level a p p' leaf leaf' hp =>
    have hleft := (m.alike_mark q.access (some a)).symm.trans (h.trans (m'.alike_mark q.access (some a)))
    have rights : ∀ x : Pte, ((x.touch q.access).leaf level).rights =
        ⟨x.readable, x.writable && (x.dirty || q.access == .write), x.executable, x.user⟩ := by
      intro x
      simp only [Pte.rights_leaf, Pte.readable_touch, Pte.writable_touch, Pte.dirty_touch,
        Pte.executable_touch, Pte.user_touch]
    refine Or.inr ⟨a, p, p', _, _, _, _, rfl, rfl, hleft, leaf, leaf', rights p, ?_⟩
    have hppn : ((p'.touch q.access).leaf level).ppn = ((p.touch q.access).leaf level).ppn := by
      simp only [Pte.leaf, Pte.pageNumber_touch, hp.pageNumber]
    have hrights := rights p'
    rw [hp.readable, hp.executable, hp.user] at hrights
    rw [rights p, ← hppn, ← hrights]
    rfl

theorem walks_ignore_marks_of_an_earlier_store :
    let m := ((Ram.new ⟨0⟩ 0x4000).setBytes 0x1004 (Word.littleEndian 0x801)).setBytes 0x2004
      (Word.littleEndian 0x1407)
    let m' := (m.mark .read (some ⟨0x1004⟩)).mark .write (some ⟨0x2004⟩)
    let r : Registers := ⟨⟨0x80000001⟩, ⟨false, false⟩⟩
    let q : Request := ⟨⟨0x00401abc⟩, .read, .supervisor⟩
    m.Alike m' ∧ ∃ l l' n n', walk r q m = (.ok l, n) ∧ walk r q m' = (.ok l', n') ∧ n.Alike n' ∧
      l.ppn = ⟨0x5000⟩ ∧ l'.ppn = ⟨0x5000⟩ ∧ l.rights.write = false ∧ l'.rights.write = true := by
  intro m m' r q
  have h : m.Alike m' := (m.alike_mark .read (some ⟨0x1004⟩)).trans
    ((m.mark .read (some ⟨0x1004⟩)).alike_mark .write (some ⟨0x2004⟩))
  have hw : (walk r q m).1.toOption = some ⟨⟨0x5000⟩, ⟨true, false, false, false⟩, .base⟩ := by decide
  have hw' : (walk r q m').1.toOption = some ⟨⟨0x5000⟩, ⟨true, true, false, false⟩, .base⟩ := by
    decide +kernel
  rcases walks_ignore_marks r q m m' h with ⟨f, hf, -⟩ | ⟨a, p, p', l, l', n, n', hl, hl', hn, -⟩
  · rw [hf] at hw
    cases hw
  · rw [hl] at hw
    rw [hl'] at hw'
    obtain rfl := Option.some.inj hw
    obtain rfl := Option.some.inj hw'
    exact ⟨h, _, _, n, n', hl, hl', hn, rfl, rfl, rfl, rfl⟩

end Sv32
