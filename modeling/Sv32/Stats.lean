import Sv32.Binary64
import Sv32.Tlb

/-! # Statistics

A snapshot of the counters of both sides and of the walker, the rates that follow from it, and its
two written forms: an object with one member a line, and a table. -/
namespace Sv32

namespace Counters

/-- The share of lookups that hit; zero before the first lookup. -/
def hitRate (c : Counters) : Binary64 :=
  if c.lookups = 0 then .zero else .div (.ofNat c.hits) (.ofNat c.lookups)

/-- The lookups that did not hit, in percent; zero before the first lookup. -/
def missPercent (c : Counters) : Binary64 :=
  if c.lookups = 0 then .zero else .mulAdd c.hitRate (.ofRat (-100)) (.ofNat 100)

def named (c : Counters) : List (String × Nat) :=
  [("lookups", c.lookups), ("hits", c.hits), ("misses", c.misses), ("refills", c.refills),
    ("replacements", c.replacements), ("evictions", c.evictions), ("flushes", c.flushes)]

end Counters

structure Stats where
  instruction : Counters
  data : Counters
  walks : Nat
  faults : Nat
  deriving DecidableEq, Repr, Inhabited

namespace Stats

def spaces (n : Nat) : String := String.ofList (List.replicate n ' ')

def padRight (width : Nat) (s : String) : String := s ++ spaces (width - s.length)

def objectText (depth : Nat) (members : List (String × String)) : String :=
  let line (m : String × String) := spaces (2 * depth + 2) ++ "\"" ++ m.1 ++ "\": " ++ m.2
  "\x7b\n" ++ String.intercalate ",\n" (members.map line) ++ "\n" ++ spaces (2 * depth) ++ "\x7d"

def countersText (c : Counters) : String :=
  objectText 1 (c.named.map fun (name, n) => (name, Nat.repr n))

def json (s : Stats) : String :=
  objectText 0
    [("itlb", countersText s.instruction), ("dtlb", countersText s.data),
      ("walks", Nat.repr s.walks), ("faults", Nat.repr s.faults)]

def reportLine (name : String) (c : Counters) : String :=
  "  " ++ padRight 5 name ++
  " lookups: " ++ padRight 10 (Nat.repr c.lookups) ++
  " | hits: " ++ padRight 10 (Nat.repr c.hits) ++
  " | miss_rate: " ++ c.missPercent.toFixed 2 ++
  "% | evictions: " ++ padRight 8 (Nat.repr c.evictions) ++
  " | flushes: " ++ Nat.repr c.flushes

def rule (c : Char) : String := String.ofList (List.replicate 58 c)

def reportLines (s : Stats) : List String :=
  ["", rule '=', "ADDRESS TRANSLATION STATISTICS", rule '=',
    reportLine "iTLB" s.instruction, reportLine "dTLB" s.data, rule '-',
    "  ptw.walks              " ++ Nat.repr s.walks,
    "  ptw.faults             " ++ Nat.repr s.faults,
    rule '=']

def report (s : Stats) : String := String.join (s.reportLines.map (· ++ "\n"))

end Stats

end Sv32
