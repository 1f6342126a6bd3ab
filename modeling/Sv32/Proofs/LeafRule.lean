import Sv32.Memory.Ram
import Sv32.Walk

/-! # The two-level rule

Which leaf the tables hold for an address, said without a walk: the root table or one below it has a valid
word that grants something. Addresses are numbers here, cut to 32 bits where a word could not hold them. -/
namespace Sv32

def VirtAddr.vpn (v : VirtAddr) : PageLevel → Nat
  | .super => v.val.toNat / 0x400000
  | .base => v.val.toNat / 4096 % 1024

/-- The address of a slot of the table that starts at page `table`. -/
def tableWord (table : BitVec 22) (index : Nat) : PhysAddr :=
  ⟨BitVec.ofNat 32 (table.toNat * 4096 % 0x100000000 + 4 * index)⟩

namespace Pte

/-- An entry that can be read or executed is a leaf. -/
def GrantsSome (p : Pte) : Prop := p.readable ∨ p.executable

def GrantsNone (p : Pte) : Prop := ¬ p.readable ∧ ¬ p.writable ∧ ¬ p.executable

def Aligned (p : Pte) (level : PageLevel) : Prop :=
  level = .super → p.pageNumber.toNat % 1024 = 0

/-- What the access needs is granted, and the page is open to the privilege. -/
structure Allows (p : Pte) (s : Status) (q : Request) : Prop where
  fetch : q.access = .fetch → p.executable
  read : q.access = .read → p.readable ∨ s.mxr ∧ p.executable
  write : q.access = .write → p.writable
  user : q.privilege = .user → p.user
  above : q.privilege ≠ .user → p.user → s.sum ∧ q.access ≠ .fetch

/-- `new` is `p` with the accessed bit set, for a store the dirty bit too, and no other bit changed. -/
def Marked (p : Pte) (access : Access) (new : Pte) : Prop :=
  ∀ i, new.raw.getLsbD i = (p.raw.getLsbD i || i == 6 || (i == 7 && access == .write))

end Pte

section

variable {μ : Type} [WordMemory μ]

def Unreadable (m : μ) (a : PhysAddr) : Prop := ∀ w, (readWord a m).1 ≠ .ok w

/-- The word at `a` can be read as `p`, which is valid and does not have the reserved encoding. -/
structure EntryAt (m : μ) (a : PhysAddr) (p : Pte) : Prop where
  readWord_eq : (readWord a m).1 = .ok p.raw
  valid : p.valid
  not_reserved : p.writable → p.readable

/-- The tables under `root` hold the leaf `p` for `v`, at address `a`. -/
inductive LeafAt (m : μ) (root : BitVec 22) (v : VirtAddr) : PageLevel → PhysAddr → Pte → Prop where
  | super {p : Pte} (entry : EntryAt m (tableWord root (v.vpn .super)) p) (leaf : p.GrantsSome)
      (aligned : p.pageNumber.toNat % 1024 = 0) :
      LeafAt m root v .super (tableWord root (v.vpn .super)) p
  | base {t p : Pte} (top : EntryAt m (tableWord root (v.vpn .super)) t) (pointer : t.GrantsNone)
      (entry : EntryAt m (tableWord t.pageNumber (v.vpn .base)) p) (leaf : p.GrantsSome) :
      LeafAt m root v .base (tableWord t.pageNumber (v.vpn .base)) p

/-- The memory takes `new` in place of `p`; there is nothing to write where they are the same. -/
def WrittenBack (m : μ) (a : PhysAddr) (p new : Pte) (m' : μ) : Prop :=
  (new = p ∧ m' = m) ∨ (new ≠ p ∧ writeWord a new.raw m = (.ok (), m'))

/-- A word that the request depends on cannot be read, or its leaf cannot be marked. -/
inductive Unreachable (m : μ) (r : Registers) (q : Request) : Prop where
  | root (h : Unreadable m (tableWord r.satp.rootPage (q.vaddr.vpn .super)))
  | table {t : Pte} (top : EntryAt m (tableWord r.satp.rootPage (q.vaddr.vpn .super)) t)
      (pointer : t.GrantsNone) (h : Unreadable m (tableWord t.pageNumber (q.vaddr.vpn .base)))
  | leaf {level : PageLevel} {a : PhysAddr} {p new : Pte}
      (leaf : LeafAt m r.satp.rootPage q.vaddr level a p) (allowed : p.Allows r.status q)
      (marked : p.Marked q.access new) (h : ∀ m', ¬ WrittenBack m a p new m')

end

theorem toNat_ofPageNumber (n : BitVec 22) :
    (PhysAddr.ofPageNumber n).val.toNat = n.toNat * 4096 % 0x100000000 := by
  have := n.isLt
  simp only [PhysAddr.ofPageNumber, BitVec.toNat_shiftLeft, BitVec.toNat_setWidth, Nat.shiftLeft_eq]
  omega

theorem toNat_tableIndex (v : VirtAddr) (level : PageLevel) :
    (v.tableIndex level).toNat = v.vpn level := by
  have := v.val.isLt
  simp only [VirtAddr.tableIndex, BitVec.extractLsb'_toNat, Nat.shiftRight_eq_div_pow]
  cases level with
  | super =>
    simp only [VirtAddr.vpn, PageLevel.offsetBits]
    omega
  | base => rfl

theorem slot_eq_tableWord (table : BitVec 22) (level : PageLevel) (v : VirtAddr) :
    Walk.slot table level v = tableWord table (v.vpn level) := by
  have ht := table.isLt
  have hi := (v.tableIndex level).isLt
  have hv := toNat_tableIndex v level
  have hp := toNat_ofPageNumber table
  have hs : ((v.tableIndex level).setWidth 32 <<< 2).toNat = 4 * v.vpn level := by
    simp only [BitVec.toNat_shiftLeft, BitVec.toNat_setWidth, Nat.shiftLeft_eq]
    omega
  have hm : table.toNat * 4096 % 0x100000000 = 2 ^ 12 * (table.toNat % 2 ^ 20) := by omega
  unfold Walk.slot tableWord
  refine congrArg PhysAddr.mk ?_
  apply BitVec.eq_of_toNat_eq
  rw [BitVec.toNat_or, hp, hs, hm, ← Nat.two_pow_add_eq_or_of_lt (by omega), BitVec.toNat_ofNat]
  omega

theorem Access.fetch_beq_write : (Access.fetch == Access.write) = false := rfl

theorem Access.read_beq_write : (Access.read == Access.write) = false := rfl

namespace Pte

variable (p : Pte) (access : Access)

theorem getLsbD_touch (i : Nat) :
    (p.touch access).raw.getLsbD i =
      (p.raw.getLsbD i || i == 6 || (i == 7 && access == .write)) := by
  have bit : ∀ k < 32, (BitVec.twoPow 32 k).getLsbD i = (i == k) := by
    intro k hk
    rw [BitVec.getLsbD_twoPow]
    by_cases h : k = i
    · simp [h, h ▸ hk]
    · simp [h, Ne.symm h]
  have clean : ∀ r : Word, (r ||| 0x40#32).getLsbD i = (r.getLsbD i || i == 6) := fun r => by
    have h6 : 0x40#32 = BitVec.twoPow 32 6 := rfl
    rw [h6, BitVec.getLsbD_or, bit 6 (by decide)]
  have stored : ∀ r : Word, (r ||| 0xc0#32).getLsbD i = (r.getLsbD i || i == 6 || i == 7) :=
    fun r => by
      have h67 : 0xc0#32 = BitVec.twoPow 32 6 ||| BitVec.twoPow 32 7 := rfl
      rw [h67, ← BitVec.or_assoc,
        BitVec.getLsbD_or, BitVec.getLsbD_or, bit 6 (by decide), bit 7 (by decide)]
  cases access with
  | fetch => simp [touch, clean, Access.fetch_beq_write]
  | read => simp [touch, clean, Access.read_beq_write]
  | write => simp [touch, stored]

theorem marked_iff {new : Pte} : p.Marked access new ↔ new = p.touch access := by
  constructor
  · intro h
    have hb : new.raw = (p.touch access).raw :=
      BitVec.eq_of_getLsbD_eq fun i _ => (h i).trans (p.getLsbD_touch access i).symm
    cases new
    exact congrArg Pte.mk hb
  · rintro rfl
    exact p.getLsbD_touch access

@[simp] theorem valid_touch : (p.touch access).valid = p.valid :=
  (p.getLsbD_touch access 0).trans (by simp [valid])

@[simp] theorem readable_touch : (p.touch access).readable = p.readable :=
  (p.getLsbD_touch access 1).trans (by simp [readable])

@[simp] theorem writable_touch : (p.touch access).writable = p.writable :=
  (p.getLsbD_touch access 2).trans (by simp [writable])

@[simp] theorem executable_touch : (p.touch access).executable = p.executable :=
  (p.getLsbD_touch access 3).trans (by simp [executable])

@[simp] theorem user_touch : (p.touch access).user = p.user :=
  (p.getLsbD_touch access 4).trans (by simp [user])

@[simp] theorem accessed_touch : (p.touch access).accessed = true :=
  (p.getLsbD_touch access 6).trans (by simp)

@[simp] theorem dirty_touch : (p.touch access).dirty = (p.dirty || access == .write) :=
  (p.getLsbD_touch access 7).trans (by simp [dirty])

@[simp] theorem pageNumber_touch : (p.touch access).pageNumber = p.pageNumber := by
  apply BitVec.eq_of_getLsbD_eq
  intro i hi
  have h6 : (10 + i == 6) = false := beq_false_of_ne (by omega)
  have h7 : (10 + i == 7) = false := beq_false_of_ne (by omega)
  simp only [pageNumber, BitVec.getLsbD_extractLsb', getLsbD_touch, h6, h7, Bool.or_false,
    Bool.false_and]

theorem touch_eq_self (ha : p.accessed) (hd : access = .write → p.dirty) :
    p.touch access = p := by
  apply Eq.symm
  apply (p.marked_iff access).mp
  intro i
  by_cases h6 : i = 6
  · subst h6
    simpa [accessed] using ha
  by_cases h7 : i = 7
  · subst h7
    cases access with
    | fetch => simp [Access.fetch_beq_write]
    | read => simp [Access.read_beq_write]
    | write => simpa [dirty] using hd rfl
  simp [beq_false_of_ne h6, beq_false_of_ne h7]

theorem lowPageNumber_eq_zero_iff : p.lowPageNumber = 0 ↔ p.pageNumber.toNat % 1024 = 0 := by
  have h : p.lowPageNumber.toNat = p.pageNumber.toNat % 1024 := by
    simp only [lowPageNumber, pageNumber, BitVec.extractLsb'_toNat, Nat.shiftRight_eq_div_pow]
    omega
  rw [← h, ← BitVec.toNat_inj]
  rfl

theorem aligned_iff (level : PageLevel) :
    p.Aligned level ↔ (level = .super && p.lowPageNumber != 0) = false := by
  simp only [Aligned, ← lowPageNumber_eq_zero_iff]
  cases level <;> simp

theorem allows_iff (s : Status) (q : Request) : p.Allows s q ↔ p.permits s q = true := by
  obtain ⟨v, access, privilege⟩ := q
  constructor
  · rintro ⟨hf, hr, hw, hu, ha⟩
    cases access <;> cases privilege <;> simp_all [permits, grants, admits] <;>
      cases hp : p.user <;> simp_all
  · intro h
    constructor <;> cases access <;> cases privilege <;> simp_all [permits, grants, admits] <;>
      cases hp : p.user <;> simp_all

theorem rights_leaf (level : PageLevel) :
    (p.leaf level).rights = ⟨p.readable, p.writable && p.dirty, p.executable, p.user⟩ := by
  simp [leaf, rights, Rights.ofBits, readable, writable, executable, user]

theorem leaf_eq_iff (level : PageLevel) (l : Leaf) :
    l = (p.touch access).leaf level ↔
      l.level = level ∧ l.ppn.val.toNat = p.pageNumber.toNat * 4096 % 0x100000000 ∧
        l.rights =
          ⟨p.readable, p.writable && (p.touch access).dirty, p.executable, p.user⟩ := by
  have hr : ((p.touch access).leaf level).rights =
      ⟨p.readable, p.writable && (p.touch access).dirty, p.executable, p.user⟩ := by
    rw [rights_leaf, readable_touch, writable_touch, executable_touch, user_touch]
  have hp := toNat_ofPageNumber p.pageNumber
  constructor
  · rintro rfl
    exact ⟨rfl, by simpa [leaf] using hp, hr⟩
  · rintro ⟨rfl, hn, hg⟩
    obtain ⟨⟨ppn⟩, rights, level⟩ := l
    have hq : ppn = (PhysAddr.ofPageNumber p.pageNumber).val :=
      BitVec.eq_of_toNat_eq (hn.trans hp.symm)
    simp only at hg hq
    subst hg hq
    simp only [leaf, pageNumber_touch] at hr ⊢
    rw [hr]

theorem isPointer_iff : p.isPointer = true ↔ p.GrantsNone := by
  simp [isPointer, GrantsNone, and_assoc]

theorem grantsSome_iff (h : p.writable → p.readable) : p.GrantsSome ↔ ¬ p.GrantsNone := by
  cases hr : p.readable <;> cases hw : p.writable <;> cases hx : p.executable <;>
    simp_all [GrantsSome, GrantsNone]

end Pte

namespace PageLevel

theorem getLsbD_offsetMask (level : PageLevel) (i : Nat) :
    level.offsetMask.getLsbD i = decide (i < level.offsetBits) := by
  have ones : ∀ n < 32, (BitVec.ofNat 32 (2 ^ n - 1)).getLsbD i = decide (i < n) := by
    intro n hn
    rw [BitVec.getLsbD_ofNat, Nat.testBit_two_pow_sub_one]
    by_cases h : i < n
    · simp [h]; omega
    · simp [h]
  cases level with
  | base => exact ones 12 (by decide)
  | super => exact ones 22 (by decide)

end PageLevel

theorem isPageAligned_iff (a : PhysAddr) (level : PageLevel) :
    a.isPageAligned level = true ↔ ∀ i < level.offsetBits, a.val.getLsbD i = false := by
  rw [PhysAddr.isPageAligned, beq_iff_eq]
  constructor
  · intro h i hi
    have hb := congrArg (BitVec.getLsbD · i) h
    simpa [level.getLsbD_offsetMask, hi] using hb
  · intro h
    apply BitVec.eq_of_getLsbD_eq
    intro i _
    rw [BitVec.getLsbD_and, level.getLsbD_offsetMask]
    by_cases hi : i < level.offsetBits
    · simp [h i hi]
    · simp [hi]

theorem PhysAddr.splice_parts {a : PhysAddr} {level : PageLevel} (h : a.isPageAligned level = true)
    (v : VirtAddr) :
    (a.splice level v).val &&& ~~~level.offsetMask = a.val ∧
      (a.splice level v).val &&& level.offsetMask = v.pageOffset level := by
  have clear : ∀ (i : Nat) (hi : i < 32), (a.val[i] && level.offsetMask[i]) = false := by
    intro i hi
    have hb := congrArg (fun w : Word => w[i]) (beq_iff_eq.mp h)
    simpa using hb
  constructor <;> ext i hi <;>
    simp only [splice, VirtAddr.pageOffset, BitVec.getElem_and, BitVec.getElem_or, BitVec.getElem_not]
  · have hb := clear i hi
    cases hm : level.offsetMask[i] <;> simp_all
  · have hb := clear i hi
    cases hm : level.offsetMask[i] <;> simp_all

theorem ofPageNumber_isPageAligned {p : Pte} {level : PageLevel} (h : p.Aligned level) :
    (PhysAddr.ofPageNumber p.pageNumber).isPageAligned level = true := by
  rw [isPageAligned_iff]
  intro i hi
  simp only [PhysAddr.ofPageNumber, BitVec.getLsbD_shiftLeft, BitVec.getLsbD_setWidth]
  by_cases h12 : i < 12
  · simp [h12]
  · cases level with
    | base => exact absurd hi h12
    | super =>
      have hl := (p.lowPageNumber_eq_zero_iff).mpr (h rfl)
      have hb := congrArg (BitVec.getLsbD · (i - 12)) hl
      simp only [Pte.lowPageNumber, BitVec.getLsbD_extractLsb'] at hb
      have hi' : i - 12 < 10 := by simp only [PageLevel.offsetBits] at hi; omega
      have hp : p.pageNumber.getLsbD (i - 12) = false := by
        simp only [Pte.pageNumber, BitVec.getLsbD_extractLsb']
        simp only [hi', decide_true, Bool.true_and] at hb
        simpa using fun _ => hb
      simp only [hp, Bool.and_false]

theorem walk_isAligned {μ : Type} [WordMemory μ] {r : Registers} {q : Request} {mem mem' : μ} {l : Leaf}
    (h : walk r q mem = (.ok l, mem')) : l.isAligned = true := by
  have done : ∀ {level a p mem}, Walk.finish r.status q level a p mem = (.ok l, mem') →
      l.isAligned = true := by
    intro level a p mem hf
    unfold Walk.finish at hf
    split at hf
    · cases hf
    · rename_i hal
      have hal : p.Aligned level := (p.aligned_iff level).mpr (Bool.of_not_eq_true hal)
      split at hf
      · cases hf
      · dsimp only at hf
        split at hf
        · exact nomatch (Prod.mk.inj hf).1
        · have hl := Except.ok.inj (Prod.mk.inj hf).1
          rw [← hl]
          exact ofPageNumber_isPageAligned fun h => p.pageNumber_touch q.access ▸ hal h
  simp only [walk] at h
  split at h
  · cases h
  · split at h
    · split at h
      · cases h
      · split at h
        · cases h
        · exact done h
    · exact done h

section

variable {μ : Type} [WordMemory μ] {m : μ} {root : BitVec 22} {v : VirtAddr} {a b : PhysAddr}
  {p p' : Pte}

theorem EntryAt.unique (h : EntryAt m a p) (h' : EntryAt m a p') : p' = p := by
  have hw : p'.raw = p.raw := Except.ok.inj (h'.readWord_eq.symm.trans h.readWord_eq)
  cases p
  cases p'
  exact congrArg Pte.mk hw

theorem EntryAt.not_unreadable (h : EntryAt m a p) : ¬ Unreadable m a := fun hu =>
  hu p.raw h.readWord_eq

theorem EntryAt.leaf_or_pointer (h : EntryAt m a p) : p.GrantsSome ∨ p.GrantsNone := by
  by_cases hp : p.GrantsNone
  · exact Or.inr hp
  · exact Or.inl ((p.grantsSome_iff h.not_reserved).mpr hp)

theorem EntryAt.grantsSome_of_not_pointer (h : EntryAt m a p) (hn : ¬ p.isPointer = true) :
    p.GrantsSome := by
  apply h.leaf_or_pointer.resolve_right
  intro hp
  exact hn (p.isPointer_iff.mpr hp)

theorem LeafAt.unique {level level' : PageLevel} (h : LeafAt m root v level a p)
    (h' : LeafAt m root v level' b p') : level' = level ∧ b = a ∧ p' = p := by
  cases h with
  | super entry leaf _ =>
    cases h' with
    | super entry' _ _ => exact ⟨rfl, rfl, entry.unique entry'⟩
    | base top pointer _ _ =>
      have := entry.unique top
      subst this
      exact absurd pointer ((Pte.grantsSome_iff _ entry.not_reserved).mp leaf)
  | base top pointer entry _ =>
    cases h' with
    | super entry' leaf _ =>
      have := top.unique entry'
      subst this
      exact absurd pointer ((Pte.grantsSome_iff _ entry'.not_reserved).mp leaf)
    | base top' _ entry' _ =>
      have := top.unique top'
      subst this
      exact ⟨rfl, rfl, entry.unique entry'⟩

theorem WrittenBack.unique {m₁ m₂ : μ} (h : WrittenBack m a p p' m₁) (h' : WrittenBack m a p p' m₂) :
    m₁ = m₂ := by
  rcases h with ⟨he, rfl⟩ | ⟨hn, hw⟩ <;> rcases h' with ⟨he', rfl⟩ | ⟨hn', hw'⟩
  · rfl
  · exact absurd he hn'
  · exact absurd he' hn
  · exact (Prod.mk.inj (hw.symm.trans hw')).2

theorem LeafAt.entry {level : PageLevel} (h : LeafAt m root v level a p) : EntryAt m a p := by
  cases h <;> assumption

theorem LeafAt.grantsSome {level : PageLevel} (h : LeafAt m root v level a p) : p.GrantsSome := by
  cases h <;> assumption

theorem LeafAt.below {t : Pte} {level : PageLevel} (ht : EntryAt m (tableWord root (v.vpn .super)) t)
    (hpointer : t.GrantsNone) (h : LeafAt m root v level a p) :
    level = .base ∧ a = tableWord t.pageNumber (v.vpn .base) ∧ EntryAt m a p ∧ p.GrantsSome := by
  cases h with
  | super entry leaf _ =>
    exact absurd hpointer ((t.grantsSome_iff ht.not_reserved).mp ((ht.unique entry) ▸ leaf))
  | base top _ entry leaf => exact ⟨rfl, by rw [ht.unique top], entry, leaf⟩

/-- How a walk may end: with the leaf of the rule, marked in memory, or with a fault and no change. -/
inductive Outcome (m : μ) (r : Registers) (q : Request) : Except Fault Leaf × μ → Prop where
  | found {level : PageLevel} {a : PhysAddr} {p : Pte} {m' : μ}
      (leaf : LeafAt m r.satp.rootPage q.vaddr level a p) (allowed : p.Allows r.status q)
      (written : WrittenBack m a p (p.touch q.access) m') :
      Outcome m r q (.ok ((p.touch q.access).leaf level), m')
  | failed {f : Fault}
      (none : ∀ {level a p m'}, LeafAt m r.satp.rootPage q.vaddr level a p → p.Allows r.status q →
        ¬ WrittenBack m a p (p.touch q.access) m')
      (kind : f.kind = .access ↔ Unreachable m r q) : Outcome m r q (.error f, m)

/-- Where the tables hold no leaf, only a table that cannot be read is out of reach. -/
theorem outcome_of_no_leaf {r : Registers} {q : Request} {f : Fault}
    (hn : ∀ {level a p}, ¬ LeafAt m r.satp.rootPage q.vaddr level a p)
    (hk : f.kind = .access → Unreachable m r q)
    (hr : Unreadable m (tableWord r.satp.rootPage (q.vaddr.vpn .super)) → f.kind = .access)
    (ht : ∀ {t}, EntryAt m (tableWord r.satp.rootPage (q.vaddr.vpn .super)) t → t.GrantsNone →
      Unreadable m (tableWord t.pageNumber (q.vaddr.vpn .base)) → f.kind = .access) :
    Outcome m r q (.error f, m) := by
  refine .failed (fun hl => absurd hl hn) ⟨hk, ?_⟩
  rintro (h | ⟨top, pointer, h⟩ | ⟨hl, -, -, -⟩)
  · exact hr h
  · exact ht top pointer h
  · exact absurd hl hn

end

section

variable {μ : Type} [WordMemory μ] [LawfulWordMemory μ]

theorem load_cases (a : PhysAddr) (m : μ) :
    (∃ p, EntryAt m a p ∧ Walk.load a m = (.ok p, m)) ∨
      ∃ f, Walk.load a m = (.error f, m) ∧ (∀ p, ¬ EntryAt m a p) ∧
        (f.kind = .access ↔ Unreadable m a) := by
  have hm := LawfulWordMemory.state_readWord a m
  cases hr : readWord a m with
  | mk answer m' =>
    rw [hr] at hm
    simp only at hm
    subst hm
    cases answer with
    | error e =>
      have hu : Unreadable m' a := by
        intro w hw
        rw [hr] at hw
        cases hw
      exact Or.inr ⟨.unreachable a, by simp only [Walk.load, hr], fun p hp => hp.not_unreadable hu,
        iff_of_true rfl hu⟩
    | ok w =>
      have hn : ¬ Unreadable m' a := fun hu => hu w (by rw [hr])
      have hw : ∀ p, EntryAt m' a p → p = ⟨w⟩ := by
        intro p hp
        have h := hp.readWord_eq
        rw [hr] at h
        cases p
        exact congrArg Pte.mk (Except.ok.inj h).symm
      by_cases hv : (⟨w⟩ : Pte).valid = true
      · by_cases hs : (⟨w⟩ : Pte).isReserved = true
        · refine Or.inr ⟨.refused .reservedEncoding, by simp [Walk.load, hr, hv, hs], ?_,
            iff_of_false nofun hn⟩
          intro p hp
          have hp' := hw p hp
          subst hp'
          simp only [Pte.isReserved, Bool.and_eq_true, Bool.not_eq_true'] at hs
          rw [hp.not_reserved hs.2] at hs
          exact Bool.noConfusion hs.1
        · refine Or.inl ⟨⟨w⟩, ⟨by rw [hr], hv, ?_⟩, by simp [Walk.load, hr, hv, hs]⟩
          intro hwr
          simp only [Pte.isReserved, hwr, Bool.and_true, Bool.not_eq_true',
            Bool.not_eq_false] at hs
          exact hs
      · refine Or.inr ⟨.refused .notValid, by simp [Walk.load, hr, hv], ?_, iff_of_false nofun hn⟩
        intro p hp
        have hp' := hw p hp
        subst hp'
        exact hv hp.valid

theorem EntryAt.load_eq {a : PhysAddr} {p : Pte} {m : μ} (h : EntryAt m a p) :
    Walk.load a m = (.ok p, m) := by
  rcases load_cases a m with ⟨p', hp', hload⟩ | ⟨f, -, none, -⟩
  · rw [hload, h.unique hp']
  · exact absurd h (none p)

theorem store_cases (a : PhysAddr) (p new : Pte) (m : μ) :
    (∃ m', WrittenBack m a p new m' ∧ Walk.store a p new m = (.ok (), m')) ∨
      (∀ m', ¬ WrittenBack m a p new m') ∧
        Walk.store a p new m = (.error (.unreachable a), m) := by
  by_cases h : new = p
  · exact Or.inl ⟨m, Or.inl ⟨h, rfl⟩, by simp only [Walk.store, h, ↓reduceIte]⟩
  · cases hw : writeWord a new.raw m with
    | mk answer m' =>
      cases answer with
      | error e =>
        have hm := LawfulWordMemory.state_writeWord_error (congrArg (·.1) hw)
        rw [hw] at hm
        simp only at hm
        subst hm
        refine Or.inr ⟨?_, by simp only [Walk.store, h, hw, ↓reduceIte]⟩
        rintro m'' (⟨he, -⟩ | ⟨-, hk⟩)
        · exact h he
        · rw [hw] at hk
          cases hk
      | ok u => exact Or.inl ⟨m', Or.inr ⟨h, hw⟩, by simp only [Walk.store, h, hw, ↓reduceIte]⟩

theorem finish_cases (s : Status) (q : Request) (level : PageLevel) (a : PhysAddr) (p : Pte) (m : μ) :
    (∃ m', p.Aligned level ∧ p.Allows s q ∧ WrittenBack m a p (p.touch q.access) m' ∧
        Walk.finish s q level a p m = (.ok ((p.touch q.access).leaf level), m')) ∨
      ∃ f, Walk.finish s q level a p m = (.error f, m) ∧
        (∀ m', p.Aligned level → p.Allows s q → ¬ WrittenBack m a p (p.touch q.access) m') ∧
        (f.kind = .access ↔ p.Aligned level ∧ p.Allows s q) := by
  by_cases hl : p.Aligned level
  · have hc := (p.aligned_iff level).mp hl
    by_cases ha : p.permits s q = true
    · have hal := (p.allows_iff s q).mpr ha
      rcases store_cases a p (p.touch q.access) m with ⟨m', hw, hs⟩ | ⟨hn, hs⟩
      · exact Or.inl ⟨m', hl, hal, hw, by
          simp only [Walk.finish, hc, ha, hs, Bool.not_true, Bool.false_eq_true, ↓reduceIte]⟩
      · exact Or.inr ⟨.unreachable a, by
          simp only [Walk.finish, hc, ha, hs, Bool.not_true, Bool.false_eq_true, ↓reduceIte],
          fun m' _ _ => hn m', iff_of_true rfl ⟨hl, hal⟩⟩
    · have hna : ¬ p.Allows s q := fun h => ha ((p.allows_iff s q).mp h)
      exact Or.inr ⟨.refused .notPermitted, by
        simp only [Walk.finish, hc, Bool.of_not_eq_true ha, Bool.not_false, Bool.false_eq_true,
          ↓reduceIte], fun m' _ h => absurd h hna, iff_of_false nofun fun h => hna h.2⟩
  · have hc := Bool.of_not_eq_false fun h => hl ((p.aligned_iff level).mpr h)
    exact Or.inr ⟨.refused .misalignedSuperpage, by simp only [Walk.finish, hc, ↓reduceIte],
      fun m' h => absurd h hl, iff_of_false nofun fun h => hl h.1⟩

section

variable {m : μ} {r : Registers} {q : Request}

theorem outcome_of_finish {level : PageLevel} {a : PhysAddr} {p : Pte}
    (hl : p.Aligned level → LeafAt m r.satp.rootPage q.vaddr level a p)
    (ho : ∀ {level' a' p'}, LeafAt m r.satp.rootPage q.vaddr level' a' p' →
      level' = level ∧ a' = a ∧ p' = p ∧ p.Aligned level)
    (hr : ¬ Unreadable m (tableWord r.satp.rootPage (q.vaddr.vpn .super)))
    (ht : ∀ {t}, EntryAt m (tableWord r.satp.rootPage (q.vaddr.vpn .super)) t → t.GrantsNone →
      ¬ Unreadable m (tableWord t.pageNumber (q.vaddr.vpn .base))) :
    Outcome m r q (Walk.finish r.status q level a p m) := by
  rcases finish_cases r.status q level a p m with ⟨m', hal, ha, hw, he⟩ | ⟨f, he, hn, hk⟩
  · rw [he]
    exact .found (hl hal) ha hw
  · rw [he]
    refine .failed ?_ ⟨?_, ?_⟩
    · intro level' a' p' m' hl' ha hw
      obtain ⟨rfl, rfl, rfl, hal⟩ := ho hl'
      exact hn m' hal ha hw
    · intro h
      obtain ⟨hal, ha⟩ := hk.mp h
      exact .leaf (hl hal) ha ((p.marked_iff q.access).mpr rfl) fun m' => hn m' hal ha
    · rintro (h | ⟨top, pointer, h⟩ | ⟨hl', ha, hm, hw⟩)
      · exact absurd h hr
      · exact absurd h (ht top pointer)
      · obtain ⟨rfl, rfl, rfl, hal⟩ := ho hl'
        exact hk.mpr ⟨hal, ha⟩

theorem walk_eq_finish_super {t : Pte}
    (ht : EntryAt m (tableWord r.satp.rootPage (q.vaddr.vpn .super)) t) (hleaf : t.GrantsSome) :
    walk r q m =
      Walk.finish r.status q .super (tableWord r.satp.rootPage (q.vaddr.vpn .super)) t m := by
  have hp : t.isPointer = false := by
    apply Bool.of_not_eq_true
    intro h
    exact (t.grantsSome_iff ht.not_reserved).mp hleaf (t.isPointer_iff.mp h)
  simp only [walk, slot_eq_tableWord, ht.load_eq, hp, Bool.false_eq_true, ↓reduceIte]

theorem walk_eq_finish_base {t p : Pte}
    (ht : EntryAt m (tableWord r.satp.rootPage (q.vaddr.vpn .super)) t) (hpointer : t.GrantsNone)
    (hpe : EntryAt m (tableWord t.pageNumber (q.vaddr.vpn .base)) p) (hleaf : p.GrantsSome) :
    walk r q m = Walk.finish r.status q .base (tableWord t.pageNumber (q.vaddr.vpn .base)) p m := by
  have hp : p.isPointer = false := by
    apply Bool.of_not_eq_true
    intro h
    exact (p.grantsSome_iff hpe.not_reserved).mp hleaf (p.isPointer_iff.mp h)
  simp only [walk, slot_eq_tableWord, ht.load_eq, t.isPointer_iff.mpr hpointer, hpe.load_eq, hp,
    Bool.false_eq_true, ↓reduceIte]

theorem LeafAt.walk_eq_finish {level : PageLevel} {a : PhysAddr} {p : Pte}
    (h : LeafAt m r.satp.rootPage q.vaddr level a p) :
    walk r q m = Walk.finish r.status q level a p m := by
  cases h with
  | super entry leaf _ => exact walk_eq_finish_super entry leaf
  | base top pointer entry leaf => exact walk_eq_finish_base top pointer entry leaf

theorem outcome_of_superpage {t : Pte}
    (ht : EntryAt m (tableWord r.satp.rootPage (q.vaddr.vpn .super)) t) (hleaf : t.GrantsSome) :
    Outcome m r q (walk r q m) := by
  have hp := (t.grantsSome_iff ht.not_reserved).mp hleaf
  rw [walk_eq_finish_super ht hleaf]
  refine outcome_of_finish (fun hal => .super ht hleaf (hal rfl)) ?_ ht.not_unreadable ?_
  · rintro level a p (⟨entry, leaf, aligned⟩ | ⟨top, pointer, _, _⟩)
    · exact ⟨rfl, rfl, ht.unique entry, fun _ => (ht.unique entry) ▸ aligned⟩
    · exact absurd ((ht.unique top) ▸ pointer) hp
  · intro t' top pointer
    exact absurd ((ht.unique top) ▸ pointer) hp

theorem outcome_of_pointer {t : Pte}
    (ht : EntryAt m (tableWord r.satp.rootPage (q.vaddr.vpn .super)) t) (hpointer : t.GrantsNone) :
    Outcome m r q (walk r q m) := by
  have hp := t.isPointer_iff.mpr hpointer
  rcases load_cases (tableWord t.pageNumber (q.vaddr.vpn .base)) m with
    ⟨p, hpe, hload'⟩ | ⟨f, hload', hno, hkind⟩
  · have readable : ∀ {t'}, EntryAt m (tableWord r.satp.rootPage (q.vaddr.vpn .super)) t' →
        ¬ Unreadable m (tableWord t'.pageNumber (q.vaddr.vpn .base)) := by
      intro t' top
      rw [ht.unique top]
      exact hpe.not_unreadable
    rcases hpe.leaf_or_pointer with hleaf | hpointer'
    · rw [walk_eq_finish_base ht hpointer hpe hleaf]
      refine outcome_of_finish (fun _ => .base ht hpointer hpe hleaf) ?_ ht.not_unreadable
        fun top _ => readable top
      intro level a p' hl
      obtain ⟨rfl, rfl, entry, -⟩ := hl.below ht hpointer
      exact ⟨rfl, rfl, hpe.unique entry, nofun⟩
    · have hwalk : walk r q m = (.error (.refused .pointerAtLastLevel), m) := by
        simp only [walk, slot_eq_tableWord, ht.load_eq, hp, hload', p.isPointer_iff.mpr hpointer',
          ↓reduceIte]
      rw [hwalk]
      refine outcome_of_no_leaf ?_ nofun (fun h => absurd h ht.not_unreadable)
        fun top _ h => absurd h (readable top)
      intro level a p' hl
      obtain ⟨-, rfl, entry, leaf⟩ := hl.below ht hpointer
      exact (p.grantsSome_iff hpe.not_reserved).mp ((hpe.unique entry) ▸ leaf) hpointer'
  · have hwalk : walk r q m = (.error f, m) := by
      simp only [walk, slot_eq_tableWord, ht.load_eq, hp, hload', ↓reduceIte]
    rw [hwalk]
    refine outcome_of_no_leaf ?_ (fun h => .table ht hpointer (hkind.mp h))
      (fun h => absurd h ht.not_unreadable) fun top _ h => hkind.mpr ((ht.unique top) ▸ h)
    intro level a p hl
    obtain ⟨-, rfl, entry, -⟩ := hl.below ht hpointer
    exact hno p entry

end

theorem walk_outcome (r : Registers) (q : Request) (m : μ) : Outcome m r q (walk r q m) := by
  rcases load_cases (tableWord r.satp.rootPage (q.vaddr.vpn .super)) m with
    ⟨t, ht, -⟩ | ⟨f, hload, hno, hkind⟩
  · rcases ht.leaf_or_pointer with hleaf | hpointer
    · exact outcome_of_superpage ht hleaf
    · exact outcome_of_pointer ht hpointer
  · have hwalk : walk r q m = (.error f, m) := by simp only [walk, slot_eq_tableWord, hload]
    rw [hwalk]
    refine outcome_of_no_leaf ?_ (fun h => .root (hkind.mp h)) hkind.mpr
      fun top _ _ => absurd top (hno _)
    rintro level a p (⟨entry, _, _⟩ | ⟨top, _, _, _⟩)
    · exact hno _ entry
    · exact hno _ top

section

variable {r : Registers} {q : Request} {m m' : μ} {l : Leaf} {f : Fault}

theorem walk_found (h : walk r q m = (.ok l, m')) :
    ∃ a p, LeafAt m r.satp.rootPage q.vaddr l.level a p ∧ p.Allows r.status q ∧
      WrittenBack m a p (p.touch q.access) m' ∧ l = (p.touch q.access).leaf l.level := by
  have ho := walk_outcome r q m
  generalize hw : walk r q m = result at ho
  rw [hw] at h
  cases ho with
  | found leaf allowed written =>
    obtain ⟨hl, hm⟩ := Prod.mk.inj h
    subst hm
    rw [← Except.ok.inj hl]
    exact ⟨_, _, leaf, allowed, written, rfl⟩
  | failed _ _ => exact nomatch (Prod.mk.inj h).1

theorem walk_failed (h : walk r q m = (.error f, m')) :
    m' = m ∧ (f.kind = .access ↔ Unreachable m r q) := by
  have ho := walk_outcome r q m
  generalize hw : walk r q m = result at ho
  rw [hw] at h
  cases ho with
  | found _ _ _ => exact nomatch (Prod.mk.inj h).1
  | failed _ kind =>
    obtain ⟨hf, hm⟩ := Prod.mk.inj h
    rw [← Except.error.inj hf]
    exact ⟨hm.symm, kind⟩

theorem walk_eq_ok {level : PageLevel} {a : PhysAddr} {p : Pte}
    (leaf : LeafAt m r.satp.rootPage q.vaddr level a p) (allowed : p.Allows r.status q)
    (written : WrittenBack m a p (p.touch q.access) m') :
    walk r q m = (.ok ((p.touch q.access).leaf level), m') := by
  have ho := walk_outcome r q m
  generalize walk r q m = result at ho
  cases ho with
  | found leaf' _ written' =>
    obtain ⟨rfl, rfl, rfl⟩ := leaf.unique leaf'
    rw [written.unique written']
  | failed none _ => exact absurd written (none leaf allowed)

/-- A leaf that a walk gives out grants the store or the fetch that it was walked for, and is a user
page if user mode asked. Reading needs less, where executable pages may be read. -/
theorem walk_grants (h : walk r q m = (.ok l, m')) :
    (q.privilege = .user → l.rights.user = true) ∧ (q.access = .write → l.rights.write = true) ∧
      (q.access = .fetch → l.rights.exec = true) := by
  obtain ⟨_, p, -, allowed, -, hl⟩ := walk_found h
  obtain ⟨-, -, hr⟩ := (p.leaf_eq_iff q.access l.level l).mp hl
  simp only [hr]
  refine ⟨allowed.user, ?_, allowed.fetch⟩
  intro hw
  rw [allowed.write hw, hw, p.dirty_touch, Bool.true_and]
  exact Bool.or_true _

end

/-- A walk succeeds exactly where the rule has a leaf that allows the request and that memory lets be
marked, and gives out that leaf. Any other walk changes nothing, and its trap is an access fault exactly
where a word that the request depends on is out of reach. -/
theorem walk_follows_rule (r : Registers) (q : Request) (m : μ) :
    (∀ l m', walk r q m = (.ok l, m') ↔
      ∃ a p new, LeafAt m r.satp.rootPage q.vaddr l.level a p ∧ p.Allows r.status q ∧
        p.Marked q.access new ∧ WrittenBack m a p new m' ∧
        l.ppn.val.toNat = p.pageNumber.toNat * 4096 % 0x100000000 ∧
        l.rights = ⟨p.readable, p.writable && new.dirty, p.executable, p.user⟩) ∧
    (∀ f m', walk r q m = (.error f, m') →
      m' = m ∧ (f.trap q).addr = q.vaddr ∧ (f.trap q).access = q.access ∧
        ((f.trap q).kind = .access ↔ Unreachable m r q)) := by
  refine ⟨?_, ?_⟩
  · intro l m'
    constructor
    · intro h
      obtain ⟨a, p, leaf, allowed, written, hl⟩ := walk_found h
      obtain ⟨-, hppn, hrights⟩ := (p.leaf_eq_iff q.access l.level l).mp hl
      exact ⟨a, p, _, leaf, allowed, (p.marked_iff q.access).mpr rfl, written, hppn, hrights⟩
    · rintro ⟨a, p, new, leaf, allowed, marked, written, hppn, hrights⟩
      have hnew := (p.marked_iff q.access).mp marked
      subst hnew
      have hl := (p.leaf_eq_iff q.access l.level l).mpr ⟨rfl, hppn, hrights⟩
      rw [walk_eq_ok leaf allowed written, ← hl]
  · intro f m' h
    obtain ⟨hm, kind⟩ := walk_failed h
    exact ⟨hm, rfl, rfl, kind⟩

theorem walk_follows_rule_store :
    let m := ((Ram.new ⟨0⟩ 0x4000).setBytes 0x1004 (Word.littleEndian 0x801)).setBytes 0x2004
      (Word.littleEndian 0x1407)
    let r : Registers := ⟨⟨0x80000001⟩, ⟨false, false⟩⟩
    let q : Request := ⟨⟨0x00401abc⟩, .write, .supervisor⟩
    let l : Leaf := ⟨⟨0x5000⟩, ⟨true, true, false, false⟩, .base⟩
    walk r q m = (.ok l, (walk r q m).2) ∧
      ∃ a p new, LeafAt m r.satp.rootPage q.vaddr .base a p ∧ p.Allows r.status q ∧
        p.Marked .write new ∧ WrittenBack m a p new (walk r q m).2 := by
  intro m r q l
  have hw : walk r q m = (.ok l, (walk r q m).2) := walk_eq_of_toOption (by decide)
  obtain ⟨a, p, new, leaf, allowed, marked, written, -⟩ := ((walk_follows_rule r q m).1 l _).mp hw
  exact ⟨hw, a, p, new, leaf, allowed, marked, written⟩

end

end Sv32
