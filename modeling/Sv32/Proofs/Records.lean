import Mathlib.Algebra.Group.Nat.Defs
import Sv32.Json.Value

/-! # Records

What can be found in a value under the names of two fields: nothing, one value for each of them, or something
that stands in the way. Where a field stands does not matter, nor what else there is; but none may be there twice. -/
namespace Sv32

namespace Json

def Lacks (members : List (Option String × Json)) (name : String) : Prop :=
  ∀ m ∈ members, m.1 ≠ some name

/-- What the members say of a name: nothing, or the value of the one member that has the name, before and
after which there may be any others. -/
inductive Gives (name : String) : List (Option String × Json) → Option Json → Prop
  | nothing {members : List (Option String × Json)} (h : Lacks members name) : Gives name members none
  | value {before after : List (Option String × Json)} {v : Json} (hb : Lacks before name)
      (ha : Lacks after name) : Gives name (before ++ (some name, v) :: after) (some v)

def Repeats (members : List (Option String × Json)) (name : String) : Prop :=
  2 ≤ (members.map Prod.fst).count (some name)

variable {members : List (Option String × Json)} {name first second : String} {v w : Json}
  {a b : Option Json}

theorem filter_eq_nil_iff_lacks : members.filter (·.1 == some name) = [] ↔ Lacks members name := by
  simp only [List.filter_eq_nil_iff, beq_iff_eq, Lacks, ne_eq]

theorem count_eq_length_filter :
    (members.map Prod.fst).count (some name) = (members.filter (·.1 == some name)).length := by
  rw [List.count, List.countP_map, List.countP_eq_length_filter]
  rfl

theorem member?_eq_some_iff : member? name members = some a ↔ Gives name members a := by
  constructor
  · intro h
    rw [member?] at h
    cases hf : members.filter (·.1 == some name) with
    | nil =>
      rw [hf] at h
      cases h
      exact .nothing (filter_eq_nil_iff_lacks.mp hf)
    | cons m ms =>
      rw [hf] at h
      cases ms with
      | nil =>
        cases h
        obtain ⟨before, after, rfl, hb, hm, ha⟩ := List.filter_eq_cons_iff.mp hf
        obtain ⟨key, v⟩ := m
        cases eq_of_beq hm
        have hbefore : Lacks before name := fun m hm heq => hb m hm (beq_iff_eq.mpr heq)
        exact .value hbefore (filter_eq_nil_iff_lacks.mp ha)
      | cons => cases h
  · intro h
    cases h with
    | nothing h => rw [member?, filter_eq_nil_iff_lacks.mpr h]
    | @value before after v hb ha =>
      have hfilter : (before ++ (some name, v) :: after).filter (·.1 == some name) = [(some name, v)] := by
        rw [List.filter_append, filter_eq_nil_iff_lacks.mpr hb, List.filter_cons,
          if_pos (beq_self_eq_true _), filter_eq_nil_iff_lacks.mpr ha]
        rfl
      rw [member?, hfilter]

theorem member?_eq_none_iff : member? name members = none ↔ Repeats members name := by
  rw [Repeats, count_eq_length_filter, member?]
  cases members.filter (·.1 == some name) with
  | nil => simp
  | cons m ms =>
    cases ms with
    | nil => simp
    | cons => simp

theorem Gives.eq_some_iff (h : Gives name members a) : a = some v ↔ (some name, v) ∈ members := by
  constructor
  · intro ha
    cases h with
    | nothing => cases ha
    | value =>
      cases ha
      exact List.mem_append_right _ List.mem_cons_self
  · intro hv
    cases h with
    | nothing h => exact absurd rfl (h _ hv)
    | value hb ha =>
      rcases List.mem_append.mp hv with hv | hv
      · exact absurd rfl (hb _ hv)
      · rcases List.mem_cons.mp hv with heq | hv
        · cases heq
          rfl
        · exact absurd rfl (ha _ hv)

/-- A record of two fields: an object that may have other members as well, all of them with names that are text
(half of a surrogate pair is none), or an array of the fields in order, of which the last ones may be missing. -/
inductive Record (first second : String) : Json → Option Json → Option Json → Prop
  | object {members : List (Option String × Json)} {a b : Option Json} (keys : ∀ m ∈ members, m.1 ≠ none)
      (ha : Gives first members a) (hb : Gives second members b) : Record first second (.object members) a b
  | array {items : List Json} (h : items.length ≤ 2) :
      Record first second (.array items) items[0]? items[1]?

/-- A value from which no record of fields with these names can be read. -/
inductive NoRecord (names : List String) : Json → Prop
  | other {v : Json} (hobject : ∀ members, v ≠ .object members) (harray : ∀ items, v ≠ .array items) :
      NoRecord names v
  | long {items : List Json} (h : names.length < items.length) : NoRecord names (.array items)
  | key {members : List (Option String × Json)} {v : Json} (h : (none, v) ∈ members) :
      NoRecord names (.object members)
  | repeated {members : List (Option String × Json)} {name : String} (hn : name ∈ names)
      (h : Repeats members name) : NoRecord names (.object members)

/-- The value holds another one for a field: under its name, or in its place. -/
inductive Has (names : List String) : Json → String → Json → Prop
  | member {members : List (Option String × Json)} {name : String} {v : Json} (h : (some name, v) ∈ members) :
      Has names (.object members) name v
  | element {items : List Json} {i : Nat} {name : String} {v : Json} (hn : names[i]? = some name)
      (hv : items[i]? = some v) : Has names (.array items) name v

theorem fields?_object : (object members).fields? first second =
    if ∀ m ∈ members, m.1 ≠ none then
      (member? first members).bind fun a => (member? second members).bind fun b => some (a, b)
    else none := by
  have hkeys : members.all (·.1.isSome) = true ↔ ∀ m ∈ members, m.1 ≠ none := by
    simp only [List.all_eq_true, Option.isSome_iff_ne_none]
  by_cases h : ∀ m ∈ members, m.1 ≠ none
  · rw [if_pos h, fields?, hkeys.mpr h]
    rfl
  · rw [if_neg h, fields?, Bool.eq_false_iff.mpr (h ∘ hkeys.mp)]
    rfl

theorem fields?_object_eq_none_iff : (object members).fields? first second = none ↔
    (∃ v, (none, v) ∈ members) ∨ Repeats members first ∨ Repeats members second := by
  rw [fields?_object, ← member?_eq_none_iff, ← member?_eq_none_iff]
  by_cases hkeys : ∀ m ∈ members, m.1 ≠ none
  · have hno : ¬ ∃ v, (none, v) ∈ members := fun ⟨v, hv⟩ => hkeys _ hv rfl
    rw [if_pos hkeys, or_iff_right hno]
    cases member? first members with
    | none => simp
    | some a => cases member? second members <;> simp
  · obtain ⟨⟨key, v⟩, hm, hkey⟩ : ∃ m ∈ members, m.1 = none := by simpa using hkeys
    cases hkey
    exact iff_of_true (if_neg hkeys) (Or.inl ⟨v, hm⟩)

theorem fields?_array (items : List Json) : (array items).fields? first second =
    if items.length ≤ 2 then some (items[0]?, items[1]?) else none := by
  rcases items with _ | ⟨a, _ | ⟨b, _ | ⟨c, items⟩⟩⟩
  · rfl
  · rfl
  · rfl
  · rw [if_neg (by simp)]
    rfl

theorem fields?_eq_some_iff : v.fields? first second = some (a, b) ↔ Record first second v a b := by
  constructor
  · intro h
    cases v with
    | object members =>
      rw [fields?_object] at h
      split at h
      case isTrue hkeys =>
        obtain ⟨a', ha, h⟩ := Option.bind_eq_some_iff.mp h
        obtain ⟨b', hb, h⟩ := Option.bind_eq_some_iff.mp h
        cases h
        exact .object hkeys (member?_eq_some_iff.mp ha) (member?_eq_some_iff.mp hb)
      case isFalse => cases h
    | array items =>
      rw [fields?_array] at h
      split at h
      case isTrue hlength =>
        cases h
        exact .array hlength
      case isFalse => cases h
    | null | bool | natural | number | string => cases h
  · intro h
    cases h with
    | object hkeys ha hb =>
      rw [fields?_object, if_pos hkeys, member?_eq_some_iff.mpr ha, member?_eq_some_iff.mpr hb]
      rfl
    | array hlength => rw [fields?_array, if_pos hlength]

theorem fields?_eq_none_iff : v.fields? first second = none ↔ NoRecord [first, second] v := by
  constructor
  · intro h
    cases v with
    | object members =>
      rcases fields?_object_eq_none_iff.mp h with ⟨v, h⟩ | h | h
      · exact .key h
      · exact .repeated List.mem_cons_self h
      · exact .repeated (List.mem_cons_of_mem _ List.mem_cons_self) h
    | array items =>
      rw [fields?_array] at h
      split at h
      case isTrue => cases h
      case isFalse hlength => exact .long (Nat.lt_of_not_le hlength)
    | null | bool | natural | number | string =>
      exact .other (fun _ h => Json.noConfusion h) (fun _ h => Json.noConfusion h)
  · intro h
    cases h with
    | other hobject harray =>
      cases v with
      | object members => exact absurd rfl (hobject members)
      | array items => exact absurd rfl (harray items)
      | null | bool | natural | number | string => rfl
    | long h => exact (fields?_array _).trans (if_neg (Nat.not_le_of_lt h))
    | key h => exact fields?_object_eq_none_iff.mpr (Or.inl ⟨_, h⟩)
    | repeated hn h =>
      rw [fields?_object_eq_none_iff]
      rcases List.mem_cons.mp hn with rfl | hn
      · exact Or.inr (Or.inl h)
      · cases List.mem_singleton.mp hn
        exact Or.inr (Or.inr h)

theorem has_object_iff {names : List String} : Has names (.object members) name w ↔ (some name, w) ∈ members :=
  ⟨fun | .member h => h, .member⟩

theorem has_array_iff {names : List String} {items : List Json} {i : Nat} (hnames : names.Nodup)
    (hi : i < names.length) : Has names (.array items) names[i] w ↔ items[i]? = some w := by
  constructor
  · intro h
    cases h with
    | element hn hw =>
      rw [← List.getElem?_eq_getElem hi] at hn
      rwa [(List.getElem?_inj hi hnames).mp hn.symm]
  · exact .element (List.getElem?_eq_getElem hi)

theorem Record.has_first_iff (h : Record first second v a b) (hnames : [first, second].Nodup) :
    Has [first, second] v first w ↔ a = some w := by
  cases h with
  | object keys ha hb => rw [has_object_iff, ha.eq_some_iff]
  | array => exact has_array_iff hnames Nat.zero_lt_two

theorem Record.has_second_iff (h : Record first second v a b) (hnames : [first, second].Nodup) :
    Has [first, second] v second w ↔ b = some w := by
  cases h with
  | object keys ha hb => rw [has_object_iff, hb.eq_some_iff]
  | array => exact has_array_iff hnames Nat.one_lt_two

section

variable {α β γ : Type} {d : α} {e : β} {readFirst : Json → Option α} {readSecond : Json → Option β}
  {make : α → β → γ} {z : γ}

def record? (first second : String) (d : α) (readFirst : Json → Option α) (e : β)
    (readSecond : Json → Option β) (make : α → β → γ) (v : Json) : Option γ := do
  let (a, b) ← v.fields? first second
  let x ← orDefault d readFirst a
  let y ← orDefault e readSecond b
  return make x y

theorem orDefault_eq_none_iff :
    orDefault d readFirst a = none ↔ ∃ w, a = some w ∧ readFirst w = none := by
  cases a with
  | none => simp [orDefault]
  | some w => simp [orDefault]

theorem record?_eq_some_iff : record? first second d readFirst e readSecond make v = some z ↔
    ∃ a b x y, Record first second v a b ∧ orDefault d readFirst a = some x ∧
      orDefault e readSecond b = some y ∧ make x y = z := by
  simp only [record?, Option.bind_eq_bind, Option.bind_eq_some_iff, Prod.exists, fields?_eq_some_iff]
  constructor
  · rintro ⟨a, b, h, x, hx, y, hy, hz⟩
    exact ⟨a, b, x, y, h, hx, hy, Option.some.inj hz⟩
  · rintro ⟨a, b, x, y, h, hx, hy, rfl⟩
    exact ⟨a, b, h, x, hx, y, hy, rfl⟩

/-- Nothing can be read if there is no record, or else if one of the fields is there and cannot be read, whatever
the other one may be. -/
theorem record?_eq_none_iff (hnames : [first, second].Nodup) :
    record? first second d readFirst e readSecond make v = none ↔ NoRecord [first, second] v ∨
      (∃ w, Has [first, second] v first w ∧ readFirst w = none) ∨
      (∃ w, Has [first, second] v second w ∧ readSecond w = none) := by
  cases hv : v.fields? first second with
  | none =>
    have hread : record? first second d readFirst e readSecond make v = none := by
      rw [record?, hv]
      rfl
    exact iff_of_true hread (Or.inl (fields?_eq_none_iff.mp hv))
  | some p =>
    obtain ⟨a, b⟩ := p
    have hrecord := fields?_eq_some_iff.mp hv
    have hno : ¬ NoRecord [first, second] v := by
      rw [← fields?_eq_none_iff, hv]
      exact nofun
    have hread : record? first second d readFirst e readSecond make v =
        (orDefault d readFirst a).bind fun x => (orDefault e readSecond b).bind fun y => some (make x y) := by
      rw [record?, hv]
      rfl
    have hfirst : (∃ w, Has [first, second] v first w ∧ readFirst w = none) ↔
        orDefault d readFirst a = none := by
      simp only [hrecord.has_first_iff hnames, orDefault_eq_none_iff]
    have hsecond : (∃ w, Has [first, second] v second w ∧ readSecond w = none) ↔
        orDefault e readSecond b = none := by
      simp only [hrecord.has_second_iff hnames, orDefault_eq_none_iff]
    rw [hread, hfirst, hsecond, or_iff_right hno]
    cases orDefault d readFirst a with
    | none => simp
    | some x => cases orDefault e readSecond b <;> simp

end

inductive Number (bits : Nat) : Option Json → Option Nat → Prop
  | nothing : Number bits none none
  | given {n : Nat} (h : n < 2 ^ bits) : Number bits (some (.natural n)) (some n)

theorem natural?_eq_some_iff {bits n : Nat} : natural? bits v = some n ↔ v = .natural n ∧ n < 2 ^ bits := by
  cases v with
  | natural m =>
    rw [natural?, Nat.one_shiftLeft]
    split
    case isTrue h =>
      rw [Option.some_inj, natural.injEq]
      exact ⟨fun heq => ⟨heq, heq ▸ h⟩, And.left⟩
    case isFalse h =>
      rw [natural.injEq]
      exact ⟨nofun, fun ⟨heq, hn⟩ => absurd (heq ▸ hn) h⟩
  | null | bool | number | string | array | object => simp [natural?]

theorem natural?_eq_none_iff {bits : Nat} : natural? bits v = none ↔ ∀ n < 2 ^ bits, v ≠ .natural n := by
  simp only [Option.eq_none_iff_forall_ne_some, ne_eq, natural?_eq_some_iff, not_and']

theorem orDefault_natural?_eq_some_iff {bits d n : Nat} :
    orDefault d (natural? bits) a = some n ↔ ∃ m, Number bits a m ∧ m.getD d = n := by
  constructor
  · intro h
    cases a with
    | none =>
      cases h
      exact ⟨none, .nothing, rfl⟩
    | some v =>
      obtain ⟨rfl, hn⟩ := natural?_eq_some_iff.mp h
      exact ⟨some n, .given hn, rfl⟩
  · rintro ⟨m, h, rfl⟩
    cases h with
    | nothing => rfl
    | given h => exact natural?_eq_some_iff.mpr ⟨rfl, h⟩

end Json

end Sv32
