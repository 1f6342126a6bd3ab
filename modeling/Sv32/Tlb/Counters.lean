import Sv32.Tlb.Cache

/-! # Counters

What has happened to one cache since its counters were last reset. -/
namespace Sv32

structure Counters where
  lookups : Nat := 0
  hits : Nat := 0
  misses : Nat := 0
  refills : Nat := 0
  replacements : Nat := 0
  evictions : Nat := 0
  flushes : Nat := 0
  deriving DecidableEq, Repr, Inhabited

namespace Counters

def countLookup (c : Counters) (hit : Bool) : Counters :=
  if hit then { c with lookups := c.lookups + 1, hits := c.hits + 1 }
  else { c with lookups := c.lookups + 1, misses := c.misses + 1 }

/-- Replacements and evictions are refills too. -/
def countRefill (c : Counters) (outcome : Refill) : Counters :=
  let c := { c with refills := c.refills + 1 }
  match outcome with
  | .inserted => c
  | .replaced => { c with replacements := c.replacements + 1 }
  | .evicted _ => { c with evictions := c.evictions + 1 }

def countFlush (c : Counters) : Counters := { c with flushes := c.flushes + 1 }

variable (c : Counters)

@[simp] theorem lookups_countLookup (hit : Bool) :
    (c.countLookup hit).lookups = c.lookups + 1 := by
  cases hit <;> rfl

@[simp] theorem hits_countLookup (hit : Bool) :
    (c.countLookup hit).hits = c.hits + if hit then 1 else 0 := by
  cases hit <;> rfl

@[simp] theorem misses_countLookup (hit : Bool) :
    (c.countLookup hit).misses = c.misses + if hit then 0 else 1 := by
  cases hit <;> rfl

@[simp] theorem refills_countLookup (hit : Bool) : (c.countLookup hit).refills = c.refills := by
  cases hit <;> rfl

@[simp] theorem replacements_countLookup (hit : Bool) :
    (c.countLookup hit).replacements = c.replacements := by
  cases hit <;> rfl

@[simp] theorem evictions_countLookup (hit : Bool) : (c.countLookup hit).evictions = c.evictions := by
  cases hit <;> rfl

@[simp] theorem flushes_countLookup (hit : Bool) : (c.countLookup hit).flushes = c.flushes := by
  cases hit <;> rfl

@[simp] theorem lookups_countRefill (r : Refill) : (c.countRefill r).lookups = c.lookups := by
  cases r <;> rfl

@[simp] theorem hits_countRefill (r : Refill) : (c.countRefill r).hits = c.hits := by
  cases r <;> rfl

@[simp] theorem misses_countRefill (r : Refill) : (c.countRefill r).misses = c.misses := by
  cases r <;> rfl

@[simp] theorem refills_countRefill (r : Refill) : (c.countRefill r).refills = c.refills + 1 := by
  cases r <;> rfl

@[simp] theorem flushes_countRefill (r : Refill) : (c.countRefill r).flushes = c.flushes := by
  cases r <;> rfl

end Counters

end Sv32
