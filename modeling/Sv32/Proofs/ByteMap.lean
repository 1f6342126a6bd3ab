import Sv32.Memory.Ram

/-! # Memory as a map of bytes

What flat memory answers follows from what was done to it before. Addresses are unbounded numbers here; that
the checks come out the same in machine words is shown as well. -/
namespace Sv32

namespace Ram

namespace Op

def start : Op → PhysAddr
  | readWord a | writeWord a _ | readBytes a _ | writeBytes a _ => a

def length : Op → Nat
  | readWord _ | writeWord .. => 4
  | readBytes _ n => n
  | writeBytes _ bs => bs.length

def Aligned : Op → Prop
  | readWord a | writeWord a _ => a.val.toNat % 4 = 0
  | readBytes .. | writeBytes .. => True

def Within (base : PhysAddr) (size : Nat) (op : Op) : Prop :=
  base.val.toNat ≤ op.start.val.toNat ∧
    (op.start.val.toNat - base.val.toNat) + op.length ≤ size

def stored : Op → List Byte
  | writeWord _ w => w.littleEndian
  | writeBytes _ bs => bs
  | readWord _ | readBytes .. => []

def byteFor? (op : Op) (x : Nat) : Option Byte :=
  if op.start.val.toNat ≤ x then op.stored[x - op.start.val.toNat]? else none

/-- The answer to an operation that succeeds, where `byte x` is the byte at the address `x`. -/
def Answered (byte : Nat → Byte) : Op → Answer → Prop
  | readWord a, .word w => w.littleEndian = (List.range' a.val.toNat 4).map byte
  | readBytes a n, .bytes bs => bs = (List.range' a.val.toNat n).map byte
  | writeWord .., .written | writeBytes .., .written => True
  | _, _ => False

def locate (r : Ram) (op : Op) : Except BusError Nat :=
  match op with
  | readWord a | writeWord a _ => r.locateWord a
  | readBytes .. | writeBytes .. => r.locate op.start op.length

end Op

def after (r : Ram) (ops : List Op) : Ram := ops.foldl (fun r op => (r.step op).2) r

def log (r : Ram) : List Op → List (Op × Answer)
  | [] => []
  | op :: ops => (op, (r.step op).1) :: (r.step op).2.log ops

/-- The byte at the address `x`: what the latest write brought that covered it and succeeded, or zero. -/
def latest (log : List (Op × Answer)) (x : Nat) : Byte :=
  (log.reverse.findSome? fun (op, a) => if a = .written then op.byteFor? x else none).getD 0

/-- The offset of a range found in words of a machine, 32 bits for addresses and 64 for lengths: none
where the subtraction borrows, or where the addition carries or goes beyond the limit. -/
def offsetInWords (base a : Word) (limit length : BitVec 64) : Option (BitVec 64) :=
  if BitVec.usubOverflow a base then none
  else
    let offset := (a - base).setWidth 64
    if BitVec.uaddOverflow offset length then none
    else if offset + length ≤ limit then some offset else none

theorem locate_eq (r : Ram) (a : PhysAddr) (n : Nat) :
    r.locate a n =
      if r.base.val.toNat ≤ a.val.toNat ∧ (a.val.toNat - r.base.val.toNat) + n ≤ r.size then
        .ok (a.val.toNat - r.base.val.toNat)
      else .error (.unmapped a) := rfl

theorem offsetInWords_eq (r : Ram) (a : PhysAddr) {limit length : BitVec 64} (h : limit.toNat = r.size) :
    (offsetInWords r.base.val a.val limit length).map (·.toNat) =
      (r.locate a length.toNat).toOption := by
  have ha := a.val.isLt
  have hl := length.isLt
  have hs := limit.isLt
  rw [locate_eq]
  by_cases hb : r.base.val.toNat ≤ a.val.toNat
  · have ho : ((a.val - r.base.val).setWidth 64).toNat = a.val.toNat - r.base.val.toNat := by
      rw [BitVec.toNat_setWidth, BitVec.toNat_sub_of_le (BitVec.le_def.mpr hb)]
      omega
    have borrow : BitVec.usubOverflow a.val r.base.val = false := by
      simpa [BitVec.usubOverflow] using hb
    by_cases hc : a.val.toNat - r.base.val.toNat + length.toNat < 0x10000000000000000
    · have carry : BitVec.uaddOverflow ((a.val - r.base.val).setWidth 64) length = false := by
        simpa [BitVec.uaddOverflow, ho] using hc
      have hsum : ((a.val - r.base.val).setWidth 64 + length).toNat =
          a.val.toNat - r.base.val.toNat + length.toNat := by
        rw [BitVec.toNat_add, ho, Nat.mod_eq_of_lt hc]
      simp only [offsetInWords, borrow, carry, BitVec.le_def, hsum, h, hb, true_and,
        Bool.false_eq_true, ↓reduceIte]
      split
      · exact congrArg some ho
      · rfl
    · have carry : BitVec.uaddOverflow ((a.val - r.base.val).setWidth 64) length = true := by
        simpa [BitVec.uaddOverflow, ho] using hc
      have hout : ¬ (a.val.toNat - r.base.val.toNat) + length.toNat ≤ r.size := by omega
      simp only [offsetInWords, borrow, carry, hout, and_false, Bool.false_eq_true, ↓reduceIte]
      rfl
  · have borrow : BitVec.usubOverflow a.val r.base.val = true := by
      simpa [BitVec.usubOverflow] using hb
    simp only [offsetInWords, borrow, hb, false_and, ↓reduceIte]
    rfl

theorem locate_op (r : Ram) (op : Op) :
    (¬ op.Aligned ∧ op.locate r = .error (.misaligned op.start 4)) ∨
      (op.Aligned ∧ ¬ op.Within r.base r.size ∧ op.locate r = .error (.unmapped op.start)) ∨
      (op.Aligned ∧ op.Within r.base r.size ∧
        op.locate r = .ok (op.start.val.toNat - r.base.val.toNat)) := by
  have range : ∀ {a n}, op.start = a → op.length = n → op.Aligned → op.locate r = r.locate a n →
      (op.Aligned ∧ ¬ op.Within r.base r.size ∧ op.locate r = .error (.unmapped op.start)) ∨
      (op.Aligned ∧ op.Within r.base r.size ∧
        op.locate r = .ok (op.start.val.toNat - r.base.val.toNat)) := by
    rintro a n rfl rfl haligned hlocate
    rw [hlocate, locate_eq]
    by_cases hw : op.Within r.base r.size
    · exact Or.inr ⟨haligned, hw, if_pos hw⟩
    · exact Or.inl ⟨haligned, hw, if_neg hw⟩
  cases op with
  | readWord a | writeWord a w =>
    by_cases h4 : a.val.toNat % 4 = 0
    · exact Or.inr (range rfl rfl h4 (if_pos h4))
    · exact Or.inl ⟨h4, if_neg h4⟩
  | readBytes a n | writeBytes a bs => exact Or.inr (range rfl rfl trivial rfl)

theorem step_of_error {r : Ram} {op : Op} {e : BusError} (h : op.locate r = .error e) :
    r.step op = (.failed e, r) := by
  cases op with
  | readWord a =>
    have h : r.locateWord a = .error e := h
    simp only [step, readWord, h, bind, Except.bind]
  | writeWord a w =>
    have h : r.locateWord a = .error e := h
    simp only [step, writeWord, h, bind, Except.bind]
  | readBytes a n =>
    have h : r.locate a n = .error e := h
    simp only [step, readBytes, h, bind, Except.bind]
  | writeBytes a bs =>
    have h : r.locate a bs.length = .error e := h
    simp only [step, writeBytes, h, bind, Except.bind]

theorem littleEndian_word (r : Ram) (o : Nat) : (r.word o).littleEndian = r.getBytes o 4 :=
  littleEndian_ofBytes ..

theorem step_of_ok {r : Ram} {op : Op} {o : Nat} (h : op.locate r = .ok o) :
    (r.step op).2 = r.setBytes o op.stored ∧
      ((r.step op).1 = .written ∨ op.stored = []) ∧
      ∀ byte, (List.range' op.start.val.toNat op.length).map byte = r.getBytes o op.length →
        op.Answered byte (r.step op).1 := by
  cases op with
  | readWord a =>
    have h : r.locateWord a = .ok o := h
    have hr : r.step (.readWord a) = (.word (r.word o), r) := by
      simp only [step, readWord_eq_map, h]
      rfl
    rw [hr]
    exact ⟨rfl, Or.inr rfl, fun byte hb => (r.littleEndian_word o).trans hb.symm⟩
  | writeWord a w =>
    have h : r.locateWord a = .ok o := h
    have hr : r.step (.writeWord a w) = (.written, r.setBytes o w.littleEndian) := by
      simp only [step, writeWord_eq_map, h]
      rfl
    rw [hr]
    exact ⟨rfl, Or.inl rfl, fun _ _ => trivial⟩
  | readBytes a n =>
    have h : r.locate a n = .ok o := h
    have hr : r.step (.readBytes a n) = (.bytes (r.getBytes o n), r) := by
      simp only [step, readBytes, h, bind, Except.bind, pure, Except.pure]
    rw [hr]
    exact ⟨rfl, Or.inr rfl, fun byte hb => hb.symm⟩
  | writeBytes a bs =>
    have h : r.locate a bs.length = .ok o := h
    have hr : r.step (.writeBytes a bs) = (.written, r.setBytes o bs) := by
      simp only [step, writeBytes, h, bind, Except.bind, pure, Except.pure]
    rw [hr]
    exact ⟨rfl, Or.inl rfl, fun _ _ => trivial⟩

theorem latest_concat (log : List (Op × Answer)) (op : Op) (a : Answer) (x : Nat) :
    latest (log ++ [(op, a)]) x =
      if a = .written then (op.byteFor? x).getD (latest log x) else latest log x := by
  simp only [latest, List.reverse_append, List.reverse_singleton, List.singleton_append,
    List.findSome?_cons]
  by_cases ha : a = .written
  · rw [if_pos ha, if_pos ha]
    cases op.byteFor? x <;> rfl
  · rw [if_neg ha, if_neg ha]

structure Recorded (base : PhysAddr) (size : Nat) (log : List (Op × Answer)) (r : Ram) : Prop where
  base_eq : r.base = base
  size_eq : r.size = size
  byte_eq : ∀ i, r.byte i = latest log (base.val.toNat + i)

variable {base : PhysAddr} {size : Nat} {log : List (Op × Answer)} {r : Ram}

theorem Recorded.getBytes (h : Recorded base size log r) {op : Op} (hw : op.Within base size) :
    (List.range' op.start.val.toNat op.length).map (latest log) =
      r.getBytes (op.start.val.toNat - base.val.toNat) op.length := by
  apply List.ext_getElem
  · simp [Ram.getBytes]
  · intro i _ _
    have hi : base.val.toNat + (op.start.val.toNat - base.val.toNat + i) = op.start.val.toNat + i := by
      have := hw.1
      omega
    simp [Ram.getBytes, h.byte_eq, hi]

theorem Recorded.step (h : Recorded base size log r) (op : Op) :
    Recorded base size (log ++ [(op, (r.step op).1)]) (r.step op).2 := by
  have hlocate := locate_op r op
  rw [h.base_eq, h.size_eq] at hlocate
  have failed : ∀ {e}, op.locate r = .error e →
      Recorded base size (log ++ [(op, (r.step op).1)]) (r.step op).2 := by
    intro e he
    rw [step_of_error he]
    refine ⟨h.base_eq, h.size_eq, ?_⟩
    intro i
    rw [latest_concat, if_neg nofun]
    exact h.byte_eq i
  rcases hlocate with ⟨-, he⟩ | ⟨-, -, he⟩ | ⟨-, hw, ho⟩
  · exact failed he
  · exact failed he
  · obtain ⟨hstate, hanswer, -⟩ := step_of_ok ho
    rw [hstate]
    refine ⟨(base_setBytes ..).trans h.base_eq, (size_setBytes ..).trans h.size_eq, ?_⟩
    intro i
    -- a read brings no bytes, so its answer does not matter
    have hlast : latest (log ++ [(op, (r.step op).1)]) (base.val.toNat + i) =
        (op.byteFor? (base.val.toNat + i)).getD (latest log (base.val.toNat + i)) := by
      rw [latest_concat]
      rcases hanswer with hanswer | hstored
      · rw [if_pos hanswer]
      · simp [Op.byteFor?, hstored]
    rw [hlast, byte_setBytes, h.byte_eq, Op.byteFor?]
    have hstart := hw.1
    by_cases hi : op.start.val.toNat ≤ base.val.toNat + i
    · have hd : base.val.toNat + i - op.start.val.toNat = i - (op.start.val.toNat - base.val.toNat) := by
        omega
      rw [if_pos hi, if_pos (by omega), hd]
    · rw [if_neg hi, if_neg (by omega)]
      rfl

theorem Recorded.after (h : Recorded base size log r) (ops : List Op) :
    Recorded base size (log ++ r.log ops) (r.after ops) := by
  induction ops generalizing log r with
  | nil =>
    rw [Ram.log, List.append_nil]
    exact h
  | cons op ops ih =>
    have hs := ih (h.step op)
    rw [List.append_assoc] at hs
    exact hs

theorem recorded_new (base : PhysAddr) (size : Nat) : Recorded base size [] (new base size) :=
  ⟨rfl, rfl, byte_new base size⟩

end Ram

/-- On a new memory, after any operations: what lies in the memory, for words at multiples of four, can be
read and written, and a byte is what the latest write left there, or zero. Anything else is refused and
changes nothing. -/
theorem memory_is_byte_map (base : PhysAddr) (size : Nat) (past : List Ram.Op) (op : Ram.Op) :
    let m := (Ram.new base size).after past
    let byte := Ram.latest ((Ram.new base size).log past)
    (¬ op.Aligned → m.step op = (.failed (.misaligned op.start 4), m)) ∧
    (op.Aligned → ¬ op.Within base size → m.step op = (.failed (.unmapped op.start), m)) ∧
    (op.Aligned → op.Within base size → op.Answered byte (m.step op).1) ∧
    ∀ limit length : BitVec 64, limit.toNat = size →
      (Ram.offsetInWords base.val op.start.val limit length).map (·.toNat) =
        (m.locate op.start length.toNat).toOption := by
  intro m byte
  have h : Ram.Recorded base size ((Ram.new base size).log past) m :=
    (Ram.recorded_new base size).after past
  have hlocate := Ram.locate_op m op
  rw [h.base_eq, h.size_eq] at hlocate
  refine ⟨?_, ?_, ?_, ?_⟩
  · intro ha
    rcases hlocate with ⟨-, he⟩ | ⟨ha', -⟩ | ⟨ha', -⟩
    · exact Ram.step_of_error he
    · exact absurd ha' ha
    · exact absurd ha' ha
  · intro ha hw
    rcases hlocate with ⟨ha', -⟩ | ⟨-, -, he⟩ | ⟨-, hw', -⟩
    · exact absurd ha ha'
    · exact Ram.step_of_error he
    · exact absurd hw' hw
  · intro ha hw
    rcases hlocate with ⟨ha', -⟩ | ⟨-, hw', -⟩ | ⟨-, -, ho⟩
    · exact absurd ha ha'
    · exact absurd hw hw'
    · exact (Ram.step_of_ok ho).2.2 byte (h.getBytes hw)
  · intro limit length hl
    rw [← h.base_eq]
    exact m.offsetInWords_eq op.start (hl.trans h.size_eq.symm)

/-- Bytes written around the last 32-bit address are found again behind it. -/
example : (((Ram.new ⟨0xfffffff0⟩ 0x20).after [.writeBytes ⟨0xfffffffe⟩ [1, 2, 3, 4]]).step
    (.readBytes ⟨0xffffffff⟩ 3)).1 = .bytes [2, 3, 4] := by decide

end Sv32
