import Sv32.Proofs.Alike

/-! # A superpage is its base pages

A superpage can be mapped page by page instead: by a table of 1024 leaves with its flags and marks, each
with the next of its page numbers. No request can tell. -/
namespace Sv32

namespace Pte

/-- The entry `page` maps the page number `i` of the superpage `p`: it has the same low ten bits, which are
the flags, the marks and the two bits that are left to software. -/
structure PageOf (p : Pte) (i : Nat) (page : Pte) : Prop where
  low : page.raw.setWidth 10 = p.raw.setWidth 10
  pageNumber : page.pageNumber.toNat = p.pageNumber.toNat + i

section

variable {p page : Pte} {i : Nat}

theorem PageOf.getLsbD (h : p.PageOf i page) {b : Nat} (hb : b < 10) :
    page.raw.getLsbD b = p.raw.getLsbD b := by
  have hbit := congrArg (BitVec.getLsbD · b) h.low
  simpa only [BitVec.getLsbD_setWidth, hb, decide_true, Bool.true_and] using hbit

theorem PageOf.valid (h : p.PageOf i page) : page.valid = p.valid := h.getLsbD (by decide)

theorem PageOf.readable (h : p.PageOf i page) : page.readable = p.readable := h.getLsbD (by decide)

theorem PageOf.writable (h : p.PageOf i page) : page.writable = p.writable := h.getLsbD (by decide)

theorem PageOf.executable (h : p.PageOf i page) : page.executable = p.executable :=
  h.getLsbD (by decide)

theorem PageOf.user (h : p.PageOf i page) : page.user = p.user := h.getLsbD (by decide)

theorem PageOf.dirty (h : p.PageOf i page) : page.dirty = p.dirty := h.getLsbD (by decide)

theorem PageOf.permits (h : p.PageOf i page) (s : Status) (q : Request) :
    page.permits s q = p.permits s q :=
  permits_congr h.readable h.writable h.executable h.user s q

theorem PageOf.rights_leaf_touch (h : p.PageOf i page) (access : Access) (level level' : PageLevel) :
    ((page.touch access).leaf level').rights = ((p.touch access).leaf level).rights := by
  simp only [rights_leaf, readable_touch, writable_touch, dirty_touch, executable_touch, user_touch,
    h.readable, h.writable, h.executable, h.user, h.dirty]

end

theorem toNat_pageNumber (p : Pte) : p.pageNumber.toNat = p.raw.toNat / 1024 := by
  have := p.raw.isLt
  simp only [pageNumber, BitVec.extractLsb'_toNat, Nat.shiftRight_eq_div_pow]
  omega

def page (p : Pte) (i : Nat) : Pte := ⟨p.raw + BitVec.ofNat 32 (1024 * i)⟩

theorem pageOf_page {p : Pte} (aligned : p.pageNumber.toNat % 1024 = 0) {i : Nat} (hi : i < 1024) :
    p.PageOf i (p.page i) := by
  have hn := p.toNat_pageNumber
  have hraw : (p.page i).raw.toNat = p.raw.toNat + 1024 * i := by
    have := p.raw.isLt
    rw [page, BitVec.toNat_add, BitVec.toNat_ofNat]
    omega
  constructor
  · apply BitVec.eq_of_toNat_eq
    simp only [BitVec.toNat_setWidth, hraw]
    omega
  · rw [toNat_pageNumber, hraw]
    omega

end Pte

structure SuperpageAt (m : Ram) (root : BitVec 22) (region : Nat) (p : Pte) : Prop where
  entry : EntryAt m (tableWord root region) p
  leaf : p.GrantsSome
  aligned : p.pageNumber.toNat % 1024 = 0

/-- Instead of a superpage `p`, the table at `root` has a pointer `t` in the slot `region`, and the table that
`t` points at has the pages of `p`. -/
structure PagesAt (m : Ram) (root : BitVec 22) (region : Nat) (p t : Pte) : Prop where
  top : EntryAt m (tableWord root region) t
  pointer : t.GrantsNone
  pages : ∀ i < 1024, ∃ page, m.readWord (tableWord t.pageNumber i) = .ok page.raw ∧ p.PageOf i page

section

variable {m m' : Ram} {r : Registers} {q : Request}

theorem LeafAt.walk_eq_mark {level : PageLevel} {a : PhysAddr} {p : Pte}
    (h : LeafAt m r.satp.rootPage q.vaddr level a p) :
    walk r q m =
      if p.permits r.status q then (.ok ((p.touch q.access).leaf level), m.mark q.access (some a))
      else (.error (.refused .notPermitted), m) := by
  have aligned : p.Aligned level := by
    cases h with
    | super _ _ aligned => exact fun _ => aligned
    | base _ _ _ _ => nofun
  simp only [h.walk_eq_finish, Walk.finish, (p.aligned_iff level).mp aligned, Ram.store_eq_mark h.entry,
    Bool.false_eq_true, ↓reduceIte]
  cases p.permits r.status q <;> rfl

theorem SuperpageAt.leafAt {root : BitVec 22} {v : VirtAddr} {p : Pte}
    (h : SuperpageAt m root (v.vpn .super) p) :
    LeafAt m root v .super (tableWord root (v.vpn .super)) p :=
  .super h.entry h.leaf h.aligned

theorem PagesAt.leafAt {root : BitVec 22} {v : VirtAddr} {p t : Pte}
    (h : PagesAt m' root (v.vpn .super) p t) (entry : EntryAt m (tableWord root (v.vpn .super)) p)
    (leaf : p.GrantsSome) :
    ∃ page, p.PageOf (v.vpn .base) page ∧
      LeafAt m' root v .base (tableWord t.pageNumber (v.vpn .base)) page := by
  have hi : v.vpn .base < 1024 := Nat.mod_lt _ (by decide)
  obtain ⟨page, hread, hpage⟩ := h.pages _ hi
  refine ⟨page, hpage, .base h.top h.pointer ⟨hread, ?_, ?_⟩ ?_⟩
  · rw [hpage.valid]
    exact entry.valid
  · rw [hpage.writable, hpage.readable]
    exact entry.not_reserved
  · simpa only [Pte.GrantsSome, hpage.readable, hpage.executable] using leaf

/-- The ten bits that one walk takes from the address the other takes from the page number. Also the two bits
of a page number that an address has no room for fall off alike. -/
theorem Pte.PageOf.translate_eq {p page : Pte} {v : VirtAddr} (h : p.PageOf (v.vpn .base) page)
    (aligned : p.pageNumber.toNat % 1024 = 0) (access : Access) :
    ((page.touch access).leaf .base).translate v = ((p.touch access).leaf .super).translate v := by
  have hsuper : (PhysAddr.ofPageNumber p.pageNumber).isPageAligned .super = true :=
    ofPageNumber_isPageAligned fun _ => aligned
  have hbase : (PhysAddr.ofPageNumber page.pageNumber).isPageAligned .base = true :=
    ofPageNumber_isPageAligned nofun
  have hn := p.pageNumber.isLt
  have hpage := h.pageNumber
  simp only [VirtAddr.vpn] at hpage
  have hval : ((PhysAddr.ofPageNumber page.pageNumber).splice .base v).val.toNat =
      ((PhysAddr.ofPageNumber p.pageNumber).splice .super v).val.toNat := by
    rw [PhysAddr.toNat_splice hbase, PhysAddr.toNat_splice hsuper, toNat_ofPageNumber,
      toNat_ofPageNumber, hpage]
    simp only [PageLevel.size]
    omega
  simp only [Leaf.translate, Pte.leaf, Pte.pageNumber_touch]
  exact congrArg PhysAddr.mk (BitVec.eq_of_toNat_eq hval)

end

/-- A superpage and its pages answer every request in their region alike: with the same fault and nothing
written, or with the same rights and the same physical address. Each walk marks the one leaf that it has
read. -/
theorem superpage_is_its_pages (r : Registers) (q : Request) (m m' : Ram) (p t : Pte)
    (whole : SuperpageAt m r.satp.rootPage (q.vaddr.vpn .super) p)
    (split : PagesAt m' r.satp.rootPage (q.vaddr.vpn .super) p t) :
    (¬ p.Allows r.status q ∧ walk r q m = (.error (.refused .notPermitted), m) ∧
        walk r q m' = (.error (.refused .notPermitted), m')) ∨
      (p.Allows r.status q ∧ ∃ l l',
        walk r q m =
          (.ok l, m.mark q.access (some (tableWord r.satp.rootPage (q.vaddr.vpn .super)))) ∧
        walk r q m' =
          (.ok l', m'.mark q.access (some (tableWord t.pageNumber (q.vaddr.vpn .base)))) ∧
        l.level = .super ∧ l'.level = .base ∧ l'.rights = l.rights ∧
        l'.translate q.vaddr = l.translate q.vaddr) := by
  obtain ⟨page, hpage, hleaf'⟩ := split.leafAt whole.entry whole.leaf
  have hwalk := whole.leafAt.walk_eq_mark
  have hwalk' := hleaf'.walk_eq_mark
  rw [hpage.permits] at hwalk'
  by_cases hp : p.permits r.status q = true
  · rw [if_pos hp] at hwalk hwalk'
    refine Or.inr ⟨(p.allows_iff _ _).mpr hp, _, _, hwalk, hwalk', rfl, rfl, ?_, ?_⟩
    · exact hpage.rights_leaf_touch q.access .super .base
    · exact hpage.translate_eq whole.aligned q.access
  · rw [if_neg hp] at hwalk hwalk'
    exact Or.inl ⟨fun h => hp ((p.allows_iff _ _).mp h), hwalk, hwalk'⟩

namespace Ram

def setWords (m : Ram) (offset : Nat) : List Word → Ram
  | [] => m
  | w :: ws => (m.setBytes offset w.littleEndian).setWords (offset + 4) ws

variable {m : Ram} {o : Nat}

theorem locateWord_setWords (ws : List Word) (a : PhysAddr) :
    (m.setWords o ws).locateWord a = m.locateWord a := by
  induction ws generalizing m o with
  | nil => rfl
  | cons w ws ih => rw [setWords, ih, locateWord_setBytes]

theorem word_setWords_of_apart {ws : List Word} {k : Nat} (h : k + 4 ≤ o ∨ o + 4 * ws.length ≤ k) :
    (m.setWords o ws).word k = m.word k := by
  induction ws generalizing m o with
  | nil => rfl
  | cons w ws ih =>
    simp only [List.length_cons] at h
    rw [setWords, ih (by omega), word_setBytes_of_apart _ (by omega)]

theorem word_setWords {ws : List Word} {i : Nat} (hi : i < ws.length) :
    (m.setWords o ws).word (o + 4 * i) = ws[i] := by
  induction ws generalizing m o i with
  | nil => exact absurd hi (Nat.not_lt_zero i)
  | cons w ws ih =>
    cases i with
    | zero => rw [setWords, word_setWords_of_apart (by omega), Nat.mul_zero, Nat.add_zero, word_setBytes,
        List.getElem_cons_zero]
    | succ i =>
      have hnext := @ih (m.setBytes o w.littleEndian) (o + 4) i (by simpa using hi)
      rw [show o + 4 + 4 * i = o + 4 * (i + 1) by omega] at hnext
      rw [setWords, hnext, List.getElem_cons_succ]

def split (m : Ram) (slot table : Nat) (p t : Pte) : Ram :=
  (m.setBytes slot t.raw.littleEndian).setWords table ((List.range 1024).map fun i => (p.page i).raw)

end Ram

theorem pagesAt_split {m : Ram} {root : BitVec 22} {region slot table : Nat} {p t : Pte}
    (aligned : p.pageNumber.toNat % 1024 = 0) (valid : t.valid) (pointer : t.GrantsNone)
    (hslot : m.locateWord (tableWord root region) = .ok slot)
    (htable : table + m.base.val.toNat = t.pageNumber.toNat * 4096 % 0x100000000)
    (within : table + 4096 ≤ m.size) (apart : slot + 4 ≤ table ∨ table + 4096 ≤ slot) :
    PagesAt (m.split slot table p t) root region p t := by
  have located : ∀ a, (m.split slot table p t).locateWord a = m.locateWord a := fun a =>
    (Ram.locateWord_setWords _ a).trans (m.locateWord_setBytes ..)
  have located_page : ∀ i < 1024, m.locateWord (tableWord t.pageNumber i) = .ok (table + 4 * i) := by
    intro i hi
    have haddr : (tableWord t.pageNumber i).val.toNat = table + m.base.val.toNat + 4 * i := by
      rw [htable, tableWord, BitVec.toNat_ofNat]
      omega
    exact Ram.locateWord_of_mem (by omega) (by omega) (by omega)
  refine ⟨⟨?_, valid, fun h => absurd h pointer.2.1⟩, pointer, ?_⟩
  · change (m.split slot table p t).readWord _ = _
    rw [Ram.readWord_eq_map, located, hslot]
    refine congrArg Except.ok ?_
    rw [Ram.split, Ram.word_setWords_of_apart (by simpa using apart), Ram.word_setBytes]
  · intro i hi
    refine ⟨p.page i, ?_, Pte.pageOf_page aligned hi⟩
    rw [Ram.readWord_eq_map, located, located_page i hi]
    refine congrArg Except.ok ?_
    rw [Ram.split, Ram.word_setWords (by simpa using hi), List.getElem_map, List.getElem_range]

theorem superpage_is_its_pages_at_the_end_of_a_region :
    let m := (Ram.new ⟨0⟩ 0x4000).setBytes 0x1004 (Word.littleEndian 0x3000cf)
    let p : Pte := ⟨0x3000cf⟩
    let t : Pte := ⟨0x801⟩
    let m' := m.split 0x1004 0x2000 p t
    let r : Registers := ⟨⟨0x80000001⟩, ⟨false, false⟩⟩
    let q : Request := ⟨⟨0x007ffffc⟩, .read, .supervisor⟩
    SuperpageAt m r.satp.rootPage (q.vaddr.vpn .super) p ∧
      PagesAt m' r.satp.rootPage (q.vaddr.vpn .super) p t ∧
      ∃ l l' n n', walk r q m = (.ok l, n) ∧ walk r q m' = (.ok l', n') ∧ l.level = .super ∧
        l'.level = .base ∧ l'.rights = l.rights ∧ l.translate q.vaddr = ⟨0x00fffffc⟩ ∧
        l'.translate q.vaddr = ⟨0x00fffffc⟩ := by
  intro m p t m' r q
  have hslot : m.locateWord (tableWord r.satp.rootPage (q.vaddr.vpn .super)) = .ok 0x1004 :=
    Ram.locateWord_of_mem (by decide) (by decide) (by decide)
  have aligned : p.pageNumber.toNat % 1024 = 0 := by decide
  have whole : SuperpageAt m r.satp.rootPage (q.vaddr.vpn .super) p := by
    refine ⟨⟨?_, by decide, fun _ => by decide⟩, Or.inl (by decide), aligned⟩
    change m.readWord _ = _
    rw [Ram.readWord_eq_map, hslot]
    exact congrArg Except.ok (Ram.word_setBytes ..)
  have split : PagesAt m' r.satp.rootPage (q.vaddr.vpn .super) p t :=
    pagesAt_split aligned (by decide) (t.isPointer_iff.mp (by decide)) hslot (by decide) (by decide)
      (by decide)
  have hw : (walk r q m).1.toOption = some ⟨⟨0xc00000⟩, ⟨true, true, true, false⟩, .super⟩ := by
    decide +kernel
  rcases superpage_is_its_pages r q m m' p t whole split with
    ⟨-, hf, -⟩ | ⟨-, l, l', hl, hl', hs, hb, hr, ht⟩
  · rw [hf] at hw
    cases hw
  · rw [hl] at hw
    obtain rfl := Option.some.inj hw
    exact ⟨whole, split, _, l', _, _, hl, hl', hs, hb, hr, by decide, ht.trans (by decide)⟩

end Sv32
