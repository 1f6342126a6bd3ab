import Sv32.Config
import Sv32.Proofs.Phrases
import Sv32.Proofs.Records

/-! # What a configuration text says

A text is read as a record of two sections, and each section as a record of two numbers. What is not there
has a default; a text from which nothing can be read has a fault that can be pointed at. -/
namespace Sv32

open Json (Spells Record NoRecord Has Number)

namespace Config

/-- A section: its name and its two fields, each with the number of bits that it may have. -/
structure Section where
  name : String
  first : String
  firstBits : Nat
  second : String
  secondBits : Nat
  distinct : [first, second].Nodup

namespace Section

inductive Gives (s : Section) : Option Json → Option Nat → Option Nat → Prop
  | nothing : s.Gives none none none
  | given {v : Json} {a b : Option Json} {m n : Option Nat} (h : Record s.first s.second v a b)
      (hm : Number s.firstBits a m) (hn : Number s.secondBits b n) : s.Gives (some v) m n

/-- What can be wrong with a section: it is no record, or a field is no natural number of so many bits, whatever
the other field may be. -/
inductive Fault (s : Section) (v : Json) : Prop
  | noRecord (h : NoRecord [s.first, s.second] v)
  | first {w : Json} (hw : Has [s.first, s.second] v s.first w) (h : ∀ n < 2 ^ s.firstBits, w ≠ .natural n)
  | second {w : Json} (hw : Has [s.first, s.second] v s.second w) (h : ∀ n < 2 ^ s.secondBits, w ≠ .natural n)

variable {s : Section} {γ : Type} {d e : Nat} {make : Nat → Nat → γ} {z : γ} {v : Json}

def read? (s : Section) (d e : Nat) (make : Nat → Nat → γ) (v : Json) : Option γ :=
  Json.record? s.first s.second d (Json.natural? s.firstBits) e (Json.natural? s.secondBits) make v

theorem orDefault_read?_eq_some_iff (d e : Nat) (make : Nat → Nat → γ) {a : Option Json} :
    Json.orDefault (make d e) (s.read? d e make) a = some z ↔
      ∃ m n, s.Gives a m n ∧ make (m.getD d) (n.getD e) = z := by
  constructor
  · intro h
    cases a with
    | none =>
      cases h
      exact ⟨none, none, .nothing, rfl⟩
    | some v =>
      obtain ⟨a, b, x, y, hrecord, hx, hy, rfl⟩ := Json.record?_eq_some_iff.mp h
      obtain ⟨m, hm, rfl⟩ := Json.orDefault_natural?_eq_some_iff.mp hx
      obtain ⟨n, hn, rfl⟩ := Json.orDefault_natural?_eq_some_iff.mp hy
      exact ⟨m, n, .given hrecord hm hn, rfl⟩
  · rintro ⟨m, n, hgives, rfl⟩
    cases hgives with
    | nothing => rfl
    | given hrecord hm hn =>
      refine Json.record?_eq_some_iff.mpr ⟨_, _, m.getD d, n.getD e, hrecord, ?_, ?_, rfl⟩
      · exact Json.orDefault_natural?_eq_some_iff.mpr ⟨m, hm, rfl⟩
      · exact Json.orDefault_natural?_eq_some_iff.mpr ⟨n, hn, rfl⟩

theorem read?_eq_none_iff : s.read? d e make v = none ↔ s.Fault v := by
  simp only [read?, Json.record?_eq_none_iff s.distinct, Json.natural?_eq_none_iff]
  constructor
  · rintro (h | ⟨w, hw, h⟩ | ⟨w, hw, h⟩)
    · exact .noRecord h
    · exact .first hw h
    · exact .second hw h
  · rintro (h | ⟨hw, h⟩ | ⟨hw, h⟩)
    · exact Or.inl h
    · exact Or.inr (Or.inl ⟨_, hw, h⟩)
    · exact Or.inr (Or.inr ⟨_, hw, h⟩)

theorem Gives.first_lt {a : Option Json} {m n : Option Nat} (h : s.Gives a m n) :
    m.getD 0 < 2 ^ s.firstBits := by
  cases h with
  | nothing => exact Nat.two_pow_pos _
  | given _ hm =>
    cases hm with
    | nothing => exact Nat.two_pow_pos _
    | given hm => exact hm

end Section

def memory : Section := ⟨"memory", "ram_base", 32, "ram_size", 64, by decide⟩

def mmu : Section := ⟨"mmu", "itlb_size", 64, "dtlb_size", 64, by decide⟩

variable {v : Json} {c : Config} {text : String}

theorem memoryOfJson?_eq :
    memoryOfJson? = memory.read? 0 default.ramSize fun base size => (BitVec.ofNat 32 base, size) := rfl

theorem capacitiesOfJson?_eq :
    capacitiesOfJson? = mmu.read? default.instructionCapacity default.dataCapacity Prod.mk := rfl

theorem ofJson?_eq : ofJson? =
    Json.record? memory.name mmu.name (default.ramBase, default.ramSize) memoryOfJson?
      (default.instructionCapacity, default.dataCapacity) capacitiesOfJson?
      fun place sizes => ⟨place.1, place.2, sizes.1, sizes.2⟩ := rfl

theorem orDefault_memoryOfJson?_eq_some_iff {a : Option Json} {place : Word × Nat} :
    Json.orDefault (default.ramBase, default.ramSize) memoryOfJson? a = some place ↔
      ∃ m n, memory.Gives a m n ∧ (BitVec.ofNat 32 (m.getD 0), n.getD default.ramSize) = place := by
  rw [memoryOfJson?_eq]
  exact Section.orDefault_read?_eq_some_iff 0 default.ramSize fun base size => (BitVec.ofNat 32 base, size)

theorem orDefault_capacitiesOfJson?_eq_some_iff {a : Option Json} {sizes : Nat × Nat} :
    Json.orDefault (default.instructionCapacity, default.dataCapacity) capacitiesOfJson? a = some sizes ↔
      ∃ m n, mmu.Gives a m n ∧ (m.getD default.instructionCapacity, n.getD default.dataCapacity) = sizes := by
  rw [capacitiesOfJson?_eq]
  exact Section.orDefault_read?_eq_some_iff _ _ Prod.mk

structure Given where
  ramBase : Option Nat
  ramSize : Option Nat
  instructionCapacity : Option Nat
  dataCapacity : Option Nat

def Given.HeldBy (g : Given) (v : Json) : Prop :=
  ∃ a b, Record memory.name mmu.name v a b ∧ memory.Gives a g.ramBase g.ramSize ∧
    mmu.Gives b g.instructionCapacity g.dataCapacity

def Given.WrittenIn (g : Given) (text : String) : Prop := ∃ v, Spells text v ∧ g.HeldBy v

/-- The configuration has the numbers that are given, and for the others the defaults. -/
structure Given.Describes (g : Given) (c : Config) : Prop where
  ramBase : c.ramBase.toNat = g.ramBase.getD 0
  ramSize : c.ramSize = g.ramSize.getD (512 * 1024 * 1024)
  instructionCapacity : c.instructionCapacity = g.instructionCapacity.getD 32
  dataCapacity : c.dataCapacity = g.dataCapacity.getD 32

/-- What can be wrong with the value of a text. The rest of it may be anything. -/
inductive Fault (v : Json) : Prop
  | noRecord (h : NoRecord [memory.name, mmu.name] v)
  | inSection {s : Section} {w : Json} (hs : s = memory ∨ s = mmu)
      (hw : Json.Has [memory.name, mmu.name] v s.name w) (h : s.Fault w)

/-- A text without a value, or with a fault in its value. -/
inductive Faulty (text : String) : Prop
  | malformed (h : ∀ v, ¬ Spells text v)
  | fault {v : Json} (ht : Spells text v) (h : Fault v)

variable {g : Given}

theorem Given.HeldBy.exists_describes (h : g.HeldBy v) : ∃ c, g.Describes c := by
  obtain ⟨a, b, -, hmemory, -⟩ := h
  have hbase : g.ramBase.getD 0 < 2 ^ 32 := hmemory.first_lt
  exact ⟨⟨BitVec.ofNat 32 (g.ramBase.getD 0), _, _, _⟩, Nat.mod_eq_of_lt hbase, rfl, rfl, rfl⟩

theorem ofJson?_eq_some_iff : ofJson? v = some c ↔ ∃ g : Given, g.HeldBy v ∧ g.Describes c := by
  rw [ofJson?_eq, Json.record?_eq_some_iff]
  constructor
  · rintro ⟨a, b, place, sizes, hrecord, hplace, hsizes, rfl⟩
    obtain ⟨m, n, hmemory, rfl⟩ := orDefault_memoryOfJson?_eq_some_iff.mp hplace
    obtain ⟨k, l, hmmu, rfl⟩ := orDefault_capacitiesOfJson?_eq_some_iff.mp hsizes
    have hbase : m.getD 0 < 2 ^ 32 := hmemory.first_lt
    exact ⟨⟨m, n, k, l⟩, ⟨a, b, hrecord, hmemory, hmmu⟩, Nat.mod_eq_of_lt hbase, rfl, rfl, rfl⟩
  · rintro ⟨g, ⟨a, b, hrecord, hmemory, hmmu⟩, hc⟩
    have hplace := orDefault_memoryOfJson?_eq_some_iff.mpr ⟨_, _, hmemory, rfl⟩
    have hsizes := orDefault_capacitiesOfJson?_eq_some_iff.mpr ⟨_, _, hmmu, rfl⟩
    refine ⟨a, b, _, _, hrecord, hplace, hsizes, ?_⟩
    obtain ⟨base, size, instruction, data⟩ := c
    obtain ⟨hbase, rfl, rfl, rfl⟩ := hc
    rw [← hbase, BitVec.ofNat_toNat, BitVec.setWidth_eq]
    rfl

theorem ofJson?_eq_none_iff : ofJson? v = none ↔ Fault v := by
  have hnames : [memory.name, mmu.name].Nodup := by decide
  rw [ofJson?_eq, Json.record?_eq_none_iff hnames]
  simp only [memoryOfJson?_eq, capacitiesOfJson?_eq, Section.read?_eq_none_iff]
  constructor
  · rintro (h | ⟨w, hw, h⟩ | ⟨w, hw, h⟩)
    · exact .noRecord h
    · exact .inSection (Or.inl rfl) hw h
    · exact .inSection (Or.inr rfl) hw h
  · rintro (h | ⟨rfl | rfl, hw, h⟩)
    · exact Or.inl h
    · exact Or.inr (Or.inl ⟨_, hw, h⟩)
    · exact Or.inr (Or.inr ⟨_, hw, h⟩)

theorem bind_ofJson?_eq_none_iff : (Json.parse? text).bind ofJson? = none ↔ Faulty text := by
  constructor
  · intro h
    cases hparse : Json.parse? text with
    | none =>
      refine .malformed fun v hv => ?_
      rw [Json.parse?_eq_some_iff.mpr hv] at hparse
      cases hparse
    | some v =>
      rw [hparse] at h
      exact .fault (Json.parse?_eq_some_iff.mp hparse) (ofJson?_eq_none_iff.mp h)
  · intro h
    cases h with
    | malformed h =>
      rw [Option.bind_eq_none_iff]
      exact fun v hv => absurd (Json.parse?_eq_some_iff.mp hv) (h v)
    | fault ht h =>
      rw [Json.parse?_eq_some_iff.mpr ht]
      exact ofJson?_eq_none_iff.mpr h

/-- If the numbers are written in the text, it gives the configuration that they describe, or the first of
its sizes that is zero; if they cannot be read from it, it is malformed, also where some other size is zero.
-/
theorem ofText_reads_what_is_written (text : String) :
    (∀ g : Given, g.WrittenIn text → ∃ c, g.Describes c ∧
      ofText text =
        if c.instructionCapacity = 0 then .error (.zeroCapacity .instruction)
        else if c.dataCapacity = 0 then .error (.zeroCapacity .data)
        else if c.ramSize = 0 then .error .zeroRamSize
        else .ok c) ∧
    (Faulty text → ofText text = .error .malformed) ∧
    (Faulty text ∨ ∃ g : Given, g.WrittenIn text) := by
  refine ⟨?_, ?_, ?_⟩
  · rintro g ⟨v, ht, hg⟩
    obtain ⟨c, hc⟩ := hg.exists_describes
    refine ⟨c, hc, ?_⟩
    have hread : (Json.parse? text).bind ofJson? = some c := by
      rw [Json.parse?_eq_some_iff.mpr ht]
      exact ofJson?_eq_some_iff.mpr ⟨g, hg, hc⟩
    rw [ofText, hread]
    simp only [validate]
    split_ifs <;> rfl
  · intro h
    rw [ofText, bind_ofJson?_eq_none_iff.mpr h]
  · cases hread : (Json.parse? text).bind ofJson? with
    | none => exact Or.inl (bind_ofJson?_eq_none_iff.mp hread)
    | some c =>
      obtain ⟨v, hparse, hv⟩ := Option.bind_eq_some_iff.mp hread
      obtain ⟨g, hg, -⟩ := ofJson?_eq_some_iff.mp hv
      exact Or.inr ⟨g, v, Json.parse?_eq_some_iff.mp hparse, hg⟩

set_option maxRecDepth 4000 in
theorem ofText_reads_odd_layouts :
    ofText ("\n\x7b \"id\" : [1.5e-3, \x7b\"memory\" : null\x7d] ,\t\"mm\\u0075\":\x7b\"dtlb_size\":1, " ++
        "\"\":\"\\ud800\",\"itlb_size\":18446744073709551615\x7d, \"memory\":\x7b\"ram_base\":4294967295\x7d\x7d\r\n") =
      .ok ⟨4294967295, 536870912, 18446744073709551615, 1⟩ ∧
    ofText "\x7b\"mmu\":\x7b\"itlb_size\":0\x7d,\"memory\":\x7b\"ram_base\":4294967296\x7d\x7d" =
      .error .malformed := by
  constructor
  · let sizes : List (Option String × Json) :=
      [(some "dtlb_size", .natural 1), (some "", .string none), (some "itlb_size", .natural 18446744073709551615)]
    let place : List (Option String × Json) := [(some "ram_base", .natural 4294967295)]
    have hmmu : mmu.Gives (some (.object sizes)) (some 18446744073709551615) (some 1) :=
      .given (Json.fields?_eq_some_iff.mp rfl) (.given (by decide)) (.given (by decide))
    have hmemory : memory.Gives (some (.object place)) (some 4294967295) none :=
      .given (Json.fields?_eq_some_iff.mp rfl) (.given (by decide)) .nothing
    have hrecord : Record "memory" "mmu" (.object [(some "id", .array [.number, .object [(some "memory", .null)]]),
        (some "mmu", .object sizes), (some "memory", .object place)]) (some (.object place))
          (some (.object sizes)) := Json.fields?_eq_some_iff.mp rfl
    refine ((ofText_reads_what_is_written _).1 ⟨some 4294967295, none, some 18446744073709551615, some 1⟩
      ⟨_, Json.parse?_eq_some_iff.mp (by rfl), _, _, hrecord, hmemory, hmmu⟩).elim fun c ⟨hc, h⟩ => h.trans ?_
    obtain ⟨base, size, instruction, data⟩ := c
    obtain ⟨hbase, rfl, rfl, rfl⟩ := hc
    cases (BitVec.eq_of_toNat_eq hbase : base = 4294967295#32)
    rfl
  · apply (ofText_reads_what_is_written _).2.1
    have hmemory : memory.Fault (.object [(some "ram_base", .natural 4294967296)]) := by
      refine .first (.member List.mem_cons_self) ?_
      rintro n hn ⟨⟩
      exact absurd hn (by decide)
    have hfault : Fault (.object [(some "mmu", .object [(some "itlb_size", .natural 0)]),
        (some "memory", .object [(some "ram_base", .natural 4294967296)])]) :=
      .inSection (Or.inl rfl) (.member (List.mem_cons_of_mem _ List.mem_cons_self)) hmemory
    exact .fault (Json.parse?_eq_some_iff.mp (by rfl)) hfault

end Config

end Sv32
