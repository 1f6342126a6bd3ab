import Std.Data.ExtTreeMap
import Sv32.Memory

/-! # Flat memory

`size` bytes from the address `base` on, all zero at first. Only the bytes that are not zero are kept, so
two memories with the same contents are equal. Words are little-endian. -/
namespace Sv32

abbrev Byte := BitVec 8

def Word.ofBytes (b₀ b₁ b₂ b₃ : Byte) : Word := b₃ ++ b₂ ++ b₁ ++ b₀

def Word.littleEndian (w : Word) : List Byte :=
  [w.extractLsb' 0 8, w.extractLsb' 8 8, w.extractLsb' 16 8, w.extractLsb' 24 8]

structure Ram where
  base : PhysAddr
  size : Nat
  bytes : Std.ExtTreeMap Nat Byte
  bytes_ne_zero : ∀ offset : Nat, bytes[offset]? ≠ some 0

namespace Ram

def new (base : PhysAddr) (size : Nat) : Ram := ⟨base, size, ∅, by simp⟩

def byte (r : Ram) (offset : Nat) : Byte := r.bytes[offset]?.getD 0

def setByte (r : Ram) (offset : Nat) (b : Byte) : Ram where
  base := r.base
  size := r.size
  bytes := if b = 0 then r.bytes.erase offset else r.bytes.insert offset b
  bytes_ne_zero := by
    intro o
    have h := r.bytes_ne_zero o
    split
    · rw [Std.ExtTreeMap.getElem?_erase]
      split <;> simp_all
    · rw [Std.ExtTreeMap.getElem?_insert]
      split <;> simp_all

theorem byte_new (base : PhysAddr) (size offset : Nat) : (new base size).byte offset = 0 := by
  simp [new, byte]

theorem byte_setByte (r : Ram) (offset o : Nat) (b : Byte) :
    (r.setByte offset b).byte o = if offset = o then b else r.byte o := by
  simp only [byte, setByte]
  split
  · rw [Std.ExtTreeMap.getElem?_erase]
    by_cases ho : offset = o <;> simp_all
  · rw [Std.ExtTreeMap.getElem?_insert]
    by_cases ho : offset = o <;> simp_all

theorem ext_byte {r s : Ram} (hb : r.base = s.base) (hs : r.size = s.size)
    (h : ∀ o, r.byte o = s.byte o) : r = s := by
  have he : r.bytes = s.bytes := by
    apply Std.ExtTreeMap.ext_getElem?
    intro o
    have := h o
    have := r.bytes_ne_zero o
    have := s.bytes_ne_zero o
    cases h₁ : r.bytes[o]? <;> cases h₂ : s.bytes[o]? <;> simp_all [byte]
  cases r
  cases s
  simp_all

/-- Writes bytes one after the other from an offset on. -/
def setBytes (r : Ram) (offset : Nat) : List Byte → Ram
  | [] => r
  | b :: bs => (r.setByte offset b).setBytes (offset + 1) bs

theorem byte_setBytes (r : Ram) (offset o : Nat) (bs : List Byte) :
    (r.setBytes offset bs).byte o =
      if offset ≤ o then bs[o - offset]?.getD (r.byte o) else r.byte o := by
  induction bs generalizing r offset with
  | nil => simp [setBytes]
  | cons b bs ih =>
    rw [setBytes, ih, byte_setByte]
    by_cases he : offset = o
    · subst he
      simp [show ¬ offset + 1 ≤ offset by omega]
    · by_cases hl : offset + 1 ≤ o
      · have hs : o - offset = (o - (offset + 1)) + 1 := by omega
        simp [he, hl, show offset ≤ o by omega, hs]
      · simp [he, hl, show ¬ offset ≤ o by omega]

@[simp] theorem size_setBytes (r : Ram) (offset : Nat) (bs : List Byte) :
    (r.setBytes offset bs).size = r.size := by
  induction bs generalizing r offset with
  | nil => rfl
  | cons b bs ih => rw [setBytes, ih]; rfl

@[simp] theorem base_setBytes (r : Ram) (offset : Nat) (bs : List Byte) :
    (r.setBytes offset bs).base = r.base := by
  induction bs generalizing r offset with
  | nil => rfl
  | cons b bs ih => rw [setBytes, ih]; rfl

def getBytes (r : Ram) (offset length : Nat) : List Byte :=
  (List.range' offset length).map r.byte

/-- The offset of a range of bytes, if the memory holds all of it. -/
def locate (r : Ram) (a : PhysAddr) (length : Nat) : Except BusError Nat :=
  if r.base.val ≤ a.val ∧ (a.val.toNat - r.base.val.toNat) + length ≤ r.size then
    .ok (a.val.toNat - r.base.val.toNat)
  else .error (.unmapped a)

def readBytes (r : Ram) (a : PhysAddr) (length : Nat) : Except BusError (List Byte) := do
  let offset ← r.locate a length
  return r.getBytes offset length

def writeBytes (r : Ram) (a : PhysAddr) (bs : List Byte) : Except BusError Ram := do
  let offset ← r.locate a bs.length
  return r.setBytes offset bs

/-- Words lie at multiples of four, whether or not the memory reaches there. -/
def locateWord (r : Ram) (a : PhysAddr) : Except BusError Nat :=
  if a.val.toNat % 4 = 0 then r.locate a 4 else .error (.misaligned a 4)

def readWord (r : Ram) (a : PhysAddr) : Except BusError Word := do
  let o ← r.locateWord a
  return Word.ofBytes (r.byte o) (r.byte (o + 1)) (r.byte (o + 2)) (r.byte (o + 3))

def writeWord (r : Ram) (a : PhysAddr) (w : Word) : Except BusError Ram := do
  let o ← r.locateWord a
  return r.setBytes o (Word.littleEndian w)

theorem ofBytes_extract (w : Word) :
    Word.ofBytes (w.extractLsb' 0 8) (w.extractLsb' 8 8) (w.extractLsb' 16 8)
      (w.extractLsb' 24 8) = w := by
  apply BitVec.eq_of_getLsbD_eq
  intro i hi
  simp only [Word.ofBytes, BitVec.getLsbD_append, BitVec.getLsbD_extractLsb']
  by_cases h₁ : i < 8
  · simp [h₁]
  by_cases h₂ : i < 16
  · simp [h₁, show i - 8 < 8 by omega, show 8 + (i - 8) = i by omega]
  by_cases h₃ : i < 24
  · simp [h₁, show ¬ i - 8 < 8 by omega, show i - 8 - 8 < 8 by omega,
      show 16 + (i - 8 - 8) = i by omega]
  · simp [h₁, show ¬ i - 8 < 8 by omega, show ¬ i - 8 - 8 < 8 by omega,
      show i - 8 - 8 - 8 < 8 by omega, show 24 + (i - 8 - 8 - 8) = i by omega]

theorem littleEndian_ofBytes (b₀ b₁ b₂ b₃ : Byte) :
    (Word.ofBytes b₀ b₁ b₂ b₃).littleEndian = [b₀, b₁, b₂, b₃] := by
  have byte : ∀ (k : Nat) (b : Byte),
      (∀ i < 8, (Word.ofBytes b₀ b₁ b₂ b₃).getLsbD (k + i) = b.getLsbD i) →
        (Word.ofBytes b₀ b₁ b₂ b₃).extractLsb' k 8 = b := by
    intro k b h
    apply BitVec.eq_of_getLsbD_eq
    intro i hi
    simp only [BitVec.getLsbD_extractLsb', hi, decide_true, Bool.true_and, h i hi]
  simp only [Word.littleEndian, List.cons.injEq, and_true]
  refine ⟨byte 0 b₀ ?_, byte 8 b₁ ?_, byte 16 b₂ ?_, byte 24 b₃ ?_⟩ <;> intro i hi <;>
    simp only [Word.ofBytes, BitVec.getLsbD_append]
  · simp [hi]
  · simp [hi]
  · simp [show ¬ 16 + i < 8 by omega, show ¬ 16 + i - 8 < 8 by omega,
      show 16 + i - 8 - 8 = i by omega, hi]
  · simp [show ¬ 24 + i < 8 by omega, show ¬ 24 + i - 8 < 8 by omega,
      show ¬ 24 + i - 8 - 8 < 8 by omega, show 24 + i - 8 - 8 - 8 = i by omega]

theorem locateWord_setBytes (r : Ram) (offset : Nat) (bs : List Byte) (a : PhysAddr) :
    (r.setBytes offset bs).locateWord a = r.locateWord a := by
  simp [locateWord, locate]

theorem locateWord_eq_ok {r : Ram} {a : PhysAddr} {o : Nat} (h : r.locateWord a = .ok o) :
    a.val.toNat % 4 = 0 ∧ o + r.base.val.toNat = a.val.toNat ∧ o + 4 ≤ r.size := by
  unfold locateWord locate at h
  split at h
  · rename_i h4
    split at h
    · rename_i hr
      have := BitVec.le_def.1 hr.1
      cases h
      exact ⟨h4, by omega, hr.2⟩
    · cases h
  · cases h

theorem locateWord_of_mem {r : Ram} {a : PhysAddr} {o : Nat} (h4 : a.val.toNat % 4 = 0)
    (ho : o + r.base.val.toNat = a.val.toNat) (hs : o + 4 ≤ r.size) : r.locateWord a = .ok o := by
  have hoff : a.val.toNat - r.base.val.toNat = o := by omega
  have hin : r.base.val ≤ a.val ∧ (a.val.toNat - r.base.val.toNat) + 4 ≤ r.size :=
    ⟨BitVec.le_def.mpr (by omega), by omega⟩
  rw [locateWord, if_pos h4, locate, if_pos hin, hoff]

/-- Two words of a memory are the same or do not overlap. -/
theorem locateWord_apart {r : Ram} {a b : PhysAddr} {o p : Nat} (ha : r.locateWord a = .ok o)
    (hb : r.locateWord b = .ok p) (h : b ≠ a) : o + 4 ≤ p ∨ p + 4 ≤ o := by
  have hv : a.val.toNat ≠ b.val.toNat := by
    intro he
    apply h
    cases a
    cases b
    exact congrArg PhysAddr.mk (BitVec.eq_of_toNat_eq he.symm)
  have := locateWord_eq_ok ha
  have := locateWord_eq_ok hb
  omega

def word (r : Ram) (offset : Nat) : Word :=
  Word.ofBytes (r.byte offset) (r.byte (offset + 1)) (r.byte (offset + 2)) (r.byte (offset + 3))

theorem readWord_eq_map (r : Ram) (a : PhysAddr) : r.readWord a = (r.locateWord a).map r.word := by
  unfold readWord
  cases r.locateWord a <;> rfl

theorem writeWord_eq_map (r : Ram) (a : PhysAddr) (w : Word) :
    r.writeWord a w = (r.locateWord a).map (r.setBytes · (Word.littleEndian w)) := by
  unfold writeWord
  cases r.locateWord a <;> rfl

theorem word_setBytes (r : Ram) (o : Nat) (w : Word) :
    (r.setBytes o (Word.littleEndian w)).word o = w := by
  simp only [word, byte_setBytes, Word.littleEndian]
  simp [ofBytes_extract, show o + 1 - o = 1 by omega, show o + 2 - o = 2 by omega,
    show o + 3 - o = 3 by omega]

theorem setBytes_word (r : Ram) (o : Nat) : r.setBytes o (r.word o).littleEndian = r := by
  apply ext_byte
  · simp
  · simp
  · intro i
    rw [byte_setBytes, word, littleEndian_ofBytes]
    split
    · rename_i ho
      obtain ⟨k, rfl⟩ := Nat.exists_eq_add_of_le ho
      rw [Nat.add_sub_cancel_left]
      match k with
      | 0 | 1 | 2 | 3 => rfl
      | k + 4 => rfl
    · rfl

theorem word_setBytes_of_apart (r : Ram) {o p : Nat} (h : o + 4 ≤ p ∨ p + 4 ≤ o) (w : Word) :
    (r.setBytes o (Word.littleEndian w)).word p = r.word p := by
  have far : ∀ i < 4, (r.setBytes o (Word.littleEndian w)).byte (p + i) = r.byte (p + i) := by
    intro i hi
    rw [byte_setBytes]
    split
    · rw [List.getElem?_eq_none (by simp [Word.littleEndian]; omega)]
      rfl
    · rfl
  have h0 := far 0 (by omega)
  rw [Nat.add_zero] at h0
  simp only [word, h0, far 1 (by omega), far 2 (by omega), far 3 (by omega)]

theorem setBytes_comm (r : Ram) {o p : Nat} {bs cs : List Byte}
    (h : o + bs.length ≤ p ∨ p + cs.length ≤ o) :
    (r.setBytes o bs).setBytes p cs = (r.setBytes p cs).setBytes o bs := by
  apply ext_byte
  · simp
  · simp
  · intro i
    simp only [byte_setBytes]
    have out : ∀ {q : Nat} {ds : List Byte}, ¬ i < q + ds.length → ds[i - q]? = none :=
      fun hq => List.getElem?_eq_none (by omega)
    by_cases hb : i < o + bs.length
    · by_cases hc : i < p + cs.length
      · rcases h with h | h
        · simp [show ¬ p ≤ i by omega]
        · simp [show ¬ o ≤ i by omega]
      · simp [out hc]
    · simp [out hb]

theorem setBytes_setBytes (r : Ram) (o : Nat) {bs cs : List Byte} (h : bs.length = cs.length) :
    (r.setBytes o bs).setBytes o cs = r.setBytes o cs := by
  apply ext_byte
  · simp
  · simp
  · intro i
    simp only [byte_setBytes]
    split
    · by_cases hi : i - o < cs.length
      · simp [hi]
      · simp [hi, h]
    · rfl

/-- A word that was written is read back, and all other words are as before. -/
theorem readWord_setBytes {r : Ram} {a : PhysAddr} {o : Nat} (h : r.locateWord a = .ok o)
    (w : Word) (b : PhysAddr) :
    (r.setBytes o (Word.littleEndian w)).readWord b = if b = a then .ok w else r.readWord b := by
  rw [readWord_eq_map, readWord_eq_map, locateWord_setBytes]
  split
  · rename_i he
    rw [he, h]
    exact congrArg Except.ok (r.word_setBytes o w)
  · rename_i hne
    cases hb : r.locateWord b with
    | error e => rfl
    | ok p => exact congrArg Except.ok (r.word_setBytes_of_apart (locateWord_apart h hb hne) w)

instance : WordMemory Ram where
  readWord a r := (r.readWord a, r)
  writeWord a w r :=
    match r.writeWord a w with
    | .ok r => (.ok (), r)
    | .error e => (.error e, r)

instance : LawfulWordMemory Ram where
  state_readWord _ _ := rfl
  state_writeWord_error := by
    intro a w r e h
    cases hw : r.writeWord a w <;> simp_all [WordMemory.writeWord]
  readWord_writeWord := by
    intro a w r b h
    cases ho : r.locateWord a with
    | error e => simp [WordMemory.writeWord, writeWord, ho, bind, Except.bind] at h
    | ok o =>
      simp only [WordMemory.writeWord, WordMemory.readWord, writeWord, ho, bind, Except.bind, pure,
        Except.pure]
      exact readWord_setBytes ho w b

inductive Op where
  | readWord (a : PhysAddr)
  | writeWord (a : PhysAddr) (w : Word)
  | readBytes (a : PhysAddr) (length : Nat)
  | writeBytes (a : PhysAddr) (bs : List Byte)
  deriving DecidableEq, Repr

inductive Answer where
  | word (w : Word)
  | bytes (bs : List Byte)
  | written
  | failed (e : BusError)
  deriving DecidableEq, Repr

/-- A failed operation changes nothing. -/
def step (r : Ram) : Op → Answer × Ram
  | .readWord a => (match r.readWord a with | .ok w => .word w | .error e => .failed e, r)
  | .writeWord a w =>
    match r.writeWord a w with
    | .ok r => (.written, r)
    | .error e => (.failed e, r)
  | .readBytes a n => (match r.readBytes a n with | .ok bs => .bytes bs | .error e => .failed e, r)
  | .writeBytes a bs =>
    match r.writeBytes a bs with
    | .ok r => (.written, r)
    | .error e => (.failed e, r)

end Ram

end Sv32
