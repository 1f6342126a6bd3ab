import Sv32.Event
import Sv32.Ring

/-! # First-in first-out caches

A bounded queue of entries. A refill of a cached page updates its entry in place, any other appends one, for
which the oldest of a full cache gives way. A flush invalidates every entry and removes none. -/
namespace Sv32

structure Cache where
  ring : Ring Entry

inductive Refill where
  | inserted
  | replaced
  | evicted (victim : Entry)
  deriving DecidableEq, Repr

namespace Cache

def new (capacity : Nat) : Except Violation Cache :=
  if h : 0 < capacity then .ok ⟨Ring.empty default capacity h⟩ else .error .zeroCapacity

variable (c : Cache)

/-- The resident entries, oldest first, the flushed ones among them. -/
def entries : List Entry := c.ring.toList

def capacity : Nat := c.ring.capacity

def size : Nat := c.ring.size

def validSize : Nat := c.entries.countP (·.valid)

def isEmpty : Bool := c.size == 0

def isFull : Bool := c.size == c.capacity

/-- The oldest entry that serves the request answers it. -/
def lookup (q : Request) : Option PhysAddr :=
  (c.entries.find? (·.serves q)).map (·.translate q.vaddr)

def find? (v : VirtAddr) (level : PageLevel) : Option Nat :=
  c.entries.findIdx? (·.holds (v.pageNumber level) level)

def update (i : Nat) (l : Leaf) : Cache := ⟨c.ring.modify i (·.update l)⟩

def append (e : Entry) : Refill × Cache :=
  if h : c.ring.size < c.ring.capacity then (.inserted, ⟨c.ring.push e h⟩)
  else
    let (victim, ring) := c.ring.shift e (c.ring.size_pos_of_full h)
    (.evicted victim, ⟨ring⟩)

/-- Caches a leaf. Only a new entry is checked for alignment, not one that is updated. -/
def refill (v : VirtAddr) (l : Leaf) : Except Violation (Refill × Cache) :=
  match c.find? v l.level with
  | some i => .ok (.replaced, c.update i l)
  | none => do
    let e ← Entry.new v l
    return c.append e

def evict : Except Violation (Entry × Cache) :=
  if h : 0 < c.ring.size then
    let (victim, ring) := c.ring.pop h
    .ok (victim, ⟨ring⟩)
  else .error .evictFromEmpty

def flush : Nat × Cache := (c.validSize, ⟨c.ring.map (·.invalidate)⟩)

def clear : Cache := ⟨c.ring.clear default⟩

theorem refill_of_find {v : VirtAddr} {l : Leaf} {i : Nat} (h : c.find? v l.level = some i) :
    c.refill v l = .ok (.replaced, c.update i l) := by
  simp only [refill, h]

theorem refill_of_aligned {v : VirtAddr} {l : Leaf} (h : c.find? v l.level = none)
    (aligned : l.isAligned) : c.refill v l = .ok (c.append (.ofLeaf v l)) := by
  simp only [refill, h, Entry.new, aligned, ↓reduceIte]
  rfl

theorem find?_lt {v : VirtAddr} {level : PageLevel} {i : Nat} (h : c.find? v level = some i) :
    i < c.size := by
  have := (List.findIdx?_eq_some_iff_findIdx_eq.1 h).1
  simpa [entries, size] using this

theorem entries_update {i : Nat} (h : i < c.size) (l : Leaf) :
    (c.update i l).entries = c.entries.modify i (·.update l) :=
  c.ring.toList_modify i _ h

theorem append_of_room (e : Entry) (h : c.size < c.capacity) :
    (c.append e).1 = .inserted ∧ (c.append e).2.entries = c.entries ++ [e] := by
  have hr : c.ring.size < c.ring.capacity := h
  have he : c.append e = (.inserted, ⟨c.ring.push e hr⟩) := by
    simp only [append, hr, ↓reduceDIte]
  rw [he]
  exact ⟨rfl, c.ring.toList_push e hr⟩

theorem append_of_full (e : Entry) (h : ¬ c.size < c.capacity) :
    ∃ victim, (c.append e).1 = .evicted victim ∧
      victim :: (c.append e).2.entries = c.entries ++ [e] := by
  have hr : ¬ c.ring.size < c.ring.capacity := h
  simp only [append, hr, ↓reduceDIte]
  exact ⟨_, rfl, c.ring.toList_shift _ _⟩

@[simp] theorem capacity_update (i : Nat) (l : Leaf) : (c.update i l).capacity = c.capacity :=
  c.ring.capacity_modify i _

@[simp] theorem capacity_append (e : Entry) : (c.append e).2.capacity = c.capacity := by
  unfold append capacity
  split <;> simp

@[simp] theorem capacity_flush : c.flush.2.capacity = c.capacity := c.ring.capacity_map _

@[simp] theorem capacity_clear : c.clear.capacity = c.capacity := c.ring.capacity_clear _

theorem entries_flush : c.flush.2.entries = c.entries.map (·.invalidate) := c.ring.toList_map _

@[simp] theorem entries_clear : c.clear.entries = [] := c.ring.toList_clear _

theorem refill_cases {c d : Cache} {v : VirtAddr} {l : Leaf} {r : Refill}
    (h : c.refill v l = .ok (r, d)) :
    (∃ i, r = .replaced ∧ d = c.update i l) ∨ ∃ e, c.append e = (r, d) := by
  cases hf : c.find? v l.level with
  | some i =>
    rw [c.refill_of_find hf] at h
    cases h
    exact Or.inl ⟨i, rfl, rfl⟩
  | none =>
    rw [refill, hf] at h
    obtain ⟨e, -, happend⟩ := bind_eq_ok.mp h
    exact Or.inr ⟨e, Except.ok.inj happend⟩

theorem size_refill {c d : Cache} {v : VirtAddr} {l : Leaf} {r : Refill}
    (h : c.refill v l = .ok (r, d)) : d.size = if r = .inserted then c.size + 1 else c.size := by
  rcases refill_cases h with ⟨i, rfl, rfl⟩ | ⟨e, happend⟩
  · rfl
  · unfold append at happend
    split at happend
    · cases happend
      rfl
    · rename_i full
      cases happend
      exact Nat.sub_add_cancel (c.ring.size_pos_of_full full)

theorem capacity_refill {c d : Cache} {v : VirtAddr} {l : Leaf} {r : Refill}
    (h : c.refill v l = .ok (r, d)) : d.capacity = c.capacity := by
  rcases refill_cases h with ⟨i, -, rfl⟩ | ⟨e, happend⟩
  · exact c.capacity_update i l
  · have hcapacity := c.capacity_append e
    rwa [happend] at hcapacity

/-- A new entry goes where there is room, and only in a full cache another gives way for it. -/
theorem room_of_refill {c d : Cache} {v : VirtAddr} {l : Leaf} {r : Refill}
    (h : c.refill v l = .ok (r, d)) :
    (r = .inserted → c.size < c.capacity) ∧ ∀ victim, r = .evicted victim → c.size = c.capacity := by
  rcases refill_cases h with ⟨i, rfl, -⟩ | ⟨e, happend⟩
  · exact ⟨nofun, nofun⟩
  · have hr : (c.append e).1 = r := congrArg Prod.fst happend
    by_cases hroom : c.size < c.capacity
    · rw [(c.append_of_room e hroom).1] at hr
      refine ⟨fun _ => hroom, ?_⟩
      rintro victim rfl
      cases hr
    · obtain ⟨victim, hevicted, -⟩ := c.append_of_full e hroom
      have hle : c.size ≤ c.capacity := c.ring.size_le
      rw [hevicted] at hr
      refine ⟨?_, fun _ _ => by omega⟩
      rintro rfl
      cases hr

inductive Op where
  | refill (v : VirtAddr) (l : Leaf)
  | lookup (q : Request)
  | evict
  | flush (f : Fence)
  | clear
  deriving DecidableEq, Repr

inductive Answer where
  | refilled (r : Refill)
  | found (a : Option PhysAddr)
  | evicted (e : Entry)
  | flushed (valid : Nat)
  | cleared
  deriving DecidableEq, Repr

def step (c : Cache) : Op → Except Violation (Effect Cache Answer)
  | .refill v l => do
    let (r, c) ← c.refill v l
    return ⟨.refilled r, c, []⟩
  | .lookup q => .ok ⟨.found (c.lookup q), c, []⟩
  | .evict => do
    let (e, c) ← c.evict
    return ⟨.evicted e, c, []⟩
  | .flush f =>
    let (n, c) := c.flush
    .ok ⟨.flushed n, c, [.cacheFlushed f n]⟩
  | .clear => .ok ⟨.cleared, c.clear, []⟩

end Cache

end Sv32
