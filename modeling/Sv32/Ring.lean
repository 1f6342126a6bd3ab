/-! # Bounded rings

A queue of bounded length in an array of fixed size: the oldest element is at `head`, the others follow and
wrap around. `toList` reads it oldest first; slots outside the queue are never seen. -/
namespace Sv32

structure Ring (α : Type) where
  slots : Array α
  head : Nat
  size : Nat
  head_lt : head < slots.size
  size_le : size ≤ slots.size

namespace Ring

variable {α : Type}

def capacity (r : Ring α) : Nat := r.slots.size

theorem capacity_pos (r : Ring α) : 0 < r.capacity := Nat.zero_lt_of_lt r.head_lt

/-- The slot of queue position `i`, where position 0 is the oldest element. -/
def slot (r : Ring α) (i : Nat) : Nat :=
  if r.head + i < r.slots.size then r.head + i else r.head + i - r.slots.size

theorem slot_lt (r : Ring α) {i : Nat} (h : i ≤ r.slots.size) : r.slot i < r.slots.size := by
  have := r.head_lt
  unfold slot
  split <;> omega

theorem slot_inj (r : Ring α) {i j : Nat} (hi : i < r.slots.size) (hj : j < r.slots.size)
    (h : r.slot i = r.slot j) : i = j := by
  have := r.head_lt
  unfold slot at h
  split at h <;> split at h <;> omega

def get (r : Ring α) (i : Nat) (h : i < r.size) : α :=
  have := r.slot_lt (Nat.le_trans (Nat.le_of_lt h) r.size_le)
  r.slots[r.slot i]

def toList (r : Ring α) : List α := List.ofFn fun i : Fin r.size => r.get i i.isLt

def empty (fill : α) (capacity : Nat) (h : 0 < capacity) : Ring α where
  slots := Array.replicate capacity fill
  head := 0
  size := 0
  head_lt := by simpa using h
  size_le := Nat.zero_le _

/-- Forgets every element; `fill` takes their place in the array. -/
def clear (fill : α) (r : Ring α) : Ring α := empty fill r.capacity r.capacity_pos

def push (r : Ring α) (a : α) (h : r.size < r.capacity) : Ring α where
  slots := r.slots.set (r.slot r.size) a (r.slot_lt r.size_le)
  head := r.head
  size := r.size + 1
  head_lt := by simpa using r.head_lt
  size_le := by rw [Array.size_set]; exact h

def pop (r : Ring α) (h : 0 < r.size) : α × Ring α :=
  (r.get 0 h,
    { slots := r.slots
      head := r.slot 1
      size := r.size - 1
      head_lt := r.slot_lt (Nat.le_trans h r.size_le)
      size_le := Nat.le_trans (Nat.sub_le _ _) r.size_le })

theorem size_pos_of_full (r : Ring α) (h : ¬ r.size < r.capacity) : 0 < r.size :=
  Nat.lt_of_lt_of_le r.capacity_pos (Nat.not_lt.1 h)

def shift (r : Ring α) (a : α) (h : 0 < r.size) : α × Ring α :=
  ((r.pop h).1, (r.pop h).2.push a (Nat.lt_of_lt_of_le (Nat.sub_one_lt (Nat.ne_of_gt h)) r.size_le))

def modify (r : Ring α) (i : Nat) (f : α → α) : Ring α where
  slots := r.slots.modify (r.slot i) f
  head := r.head
  size := r.size
  head_lt := by simpa using r.head_lt
  size_le := by simpa using r.size_le

def map (f : α → α) (r : Ring α) : Ring α where
  slots := r.slots.map f
  head := r.head
  size := r.size
  head_lt := by simpa using r.head_lt
  size_le := by simpa using r.size_le

@[simp] theorem length_toList (r : Ring α) : r.toList.length = r.size := by simp [toList]

/-- The queue element at a position is the content of its slot. -/
theorem getElem?_toList (r : Ring α) (i : Nat) :
    r.toList[i]? = if i < r.size then r.slots[r.slot i]? else none := by
  unfold toList
  rw [List.getElem?_ofFn]
  split
  · rename_i h
    have := r.slot_lt (Nat.le_trans (Nat.le_of_lt h) r.size_le)
    simp [get, this]
  · rfl

@[simp] theorem toList_empty (fill : α) (capacity : Nat) (h : 0 < capacity) :
    (empty fill capacity h).toList = [] := by
  simp [toList, empty]

@[simp] theorem toList_clear (fill : α) (r : Ring α) : (r.clear fill).toList = [] := by
  simp [clear]

@[simp] theorem capacity_clear (fill : α) (r : Ring α) : (r.clear fill).capacity = r.capacity := by
  simp [clear, empty, capacity]

@[simp] theorem capacity_push (r : Ring α) (a : α) (h : r.size < r.capacity) :
    (r.push a h).capacity = r.capacity := by
  simp [push, capacity]

@[simp] theorem capacity_pop (r : Ring α) (h : 0 < r.size) : (r.pop h).2.capacity = r.capacity := rfl

@[simp] theorem capacity_shift (r : Ring α) (a : α) (h : 0 < r.size) :
    (r.shift a h).2.capacity = r.capacity := by
  simp [shift]

@[simp] theorem capacity_modify (r : Ring α) (i : Nat) (f : α → α) :
    (r.modify i f).capacity = r.capacity := by
  simp [modify, capacity]

@[simp] theorem capacity_map (r : Ring α) (f : α → α) : (r.map f).capacity = r.capacity := by
  simp [map, capacity]

theorem toList_push (r : Ring α) (a : α) (h : r.size < r.capacity) :
    (r.push a h).toList = r.toList ++ [a] := by
  have hc : r.size < r.slots.size := h
  have hs : ∀ i, (r.push a h).slot i = r.slot i := fun i => by simp [slot, push]
  apply List.ext_getElem?
  intro i
  rw [getElem?_toList, hs, List.getElem?_append, length_toList, getElem?_toList]
  have hl := r.slot_lt r.size_le
  simp only [push]
  by_cases hi : i < r.size
  · have hne : r.slot r.size ≠ r.slot i := fun he => by
      have := r.slot_inj hc (by omega) he
      omega
    simp [hi, Nat.lt_succ_of_lt hi, hne]
  · by_cases he : i = r.size
    · subst he
      simp
    · have h1 : ¬ i < r.size + 1 := by omega
      have h2 : [a][i - r.size]? = none := List.getElem?_eq_none (by simp; omega)
      simp [hi, h1, h2]

theorem toList_pop (r : Ring α) (h : 0 < r.size) :
    r.toList = (r.pop h).1 :: (r.pop h).2.toList := by
  apply List.ext_getElem?
  intro i
  have hl := r.size_le
  have hh := r.head_lt
  cases i with
  | zero =>
    have := r.slot_lt (Nat.zero_le r.slots.size)
    rw [getElem?_toList]
    simp [h, pop, get, this]
  | succ i =>
    rw [List.getElem?_cons_succ, getElem?_toList, getElem?_toList]
    by_cases hi : i + 1 < r.size
    · have hs : (r.pop h).2.slot i = r.slot (i + 1) := by
        simp only [pop, slot]
        split <;> split <;> split <;> omega
      have hi' : i < (r.pop h).2.size := by simp only [pop]; omega
      simp [hi, hi', hs]
      rfl
    · have hi' : ¬ i < (r.pop h).2.size := by simp only [pop]; omega
      simp [hi, hi']

theorem toList_shift (r : Ring α) (a : α) (h : 0 < r.size) :
    (r.shift a h).1 :: (r.shift a h).2.toList = r.toList ++ [a] := by
  rw [toList_pop r h]
  simp [shift, toList_push]

theorem toList_modify (r : Ring α) (i : Nat) (f : α → α) (h : i < r.size) :
    (r.modify i f).toList = r.toList.modify i f := by
  have hl := r.size_le
  have hs : ∀ j, (r.modify i f).slot j = r.slot j := fun j => by simp [slot, modify]
  apply List.ext_getElem?
  intro j
  rw [getElem?_toList, hs, List.getElem?_modify, getElem?_toList]
  simp only [modify, Array.getElem?_modify]
  by_cases hj : j < r.size
  · by_cases he : i = j
    · subst he
      simp [hj]
    · have hne : r.slot i ≠ r.slot j := fun hs => he (r.slot_inj (by omega) (by omega) hs)
      simp [hj, he, hne]
  · simp [hj]

theorem toList_map (r : Ring α) (f : α → α) : (r.map f).toList = r.toList.map f := by
  have hs : ∀ i, (r.map f).slot i = r.slot i := fun i => by simp [slot, map]
  apply List.ext_getElem?
  intro i
  rw [getElem?_toList, hs, List.getElem?_map, getElem?_toList]
  simp only [map, Array.getElem?_map]
  split <;> rfl

end Ring

end Sv32
