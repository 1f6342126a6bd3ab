import Sv32.Json.Parser
import Sv32.Proofs.Lexemes

/-! # Phrases

Which sequences of tokens form a value: a scalar, or elements or members with commas between them. The
tokens that the parser takes to the end are exactly those of one value. -/
namespace Sv32.Json

/-- What a phrase stands for: a value, the elements of an array, a member or all members of an object. -/
inductive Form where
  | value (v : Json)
  | elements (vs : List Json)
  | member (m : Option String × Json)
  | members (ms : List (Option String × Json))

/-- The tokens of a phrase. There is a comma between two elements or members, and none anywhere else. -/
inductive Phrase : Form → List Token → Prop
  | scalar (v : Json) : Phrase (.value v) [.scalar v]
  | emptyArray : Phrase (.value (.array [])) [.openBracket, .closeBracket]
  | array {vs : List Json} {ts : List Token} (h : Phrase (.elements vs) ts) :
      Phrase (.value (.array vs)) (.openBracket :: ts ++ [.closeBracket])
  | emptyObject : Phrase (.value (.object [])) [.openBrace, .closeBrace]
  | object {ms : List (Option String × Json)} {ts : List Token} (h : Phrase (.members ms) ts) :
      Phrase (.value (.object ms)) (.openBrace :: ts ++ [.closeBrace])
  | element {v : Json} {ts : List Token} (h : Phrase (.value v) ts) : Phrase (.elements [v]) ts
  | nextElement {vs : List Json} {v : Json} {ts us : List Token} (before : Phrase (.elements vs) ts)
      (h : Phrase (.value v) us) : Phrase (.elements (vs ++ [v])) (ts ++ .comma :: us)
  | member {key : Option String} {v : Json} {ts : List Token} (h : Phrase (.value v) ts) :
      Phrase (.member (key, v)) (.scalar (.string key) :: .colon :: ts)
  | firstMember {m : Option String × Json} {ts : List Token} (h : Phrase (.member m) ts) :
      Phrase (.members [m]) ts
  | nextMember {ms : List (Option String × Json)} {m : Option String × Json} {ts us : List Token}
      (before : Phrase (.members ms) ts) (h : Phrase (.member m) us) :
      Phrase (.members (ms ++ [m])) (ts ++ .comma :: us)

namespace Parser

theorem run_of_step {p q : Parser} {t : Token} (h : p.step t = some q) (ts : List Token) :
    p.run (t :: ts) = q.run ts := by
  rw [run, h]

theorem run_singleton (p : Parser) (t : Token) : p.run [t] = p.step t := by
  rw [run]
  cases p.step t <;> rfl

theorem run_append {p q : Parser} {ts : List Token} (h : p.run ts = some q) (us : List Token) :
    p.run (ts ++ us) = q.run us := by
  induction ts generalizing p with
  | nil => rw [List.nil_append, Option.some.inj h]
  | cons t ts ih =>
    rw [List.cons_append, run]
    rw [run] at h
    cases hs : p.step t with
    | none => simp only [hs, reduceCtorEq] at h
    | some r =>
      rw [hs] at h
      exact ih h

def Expect.IsValue (e : Expect) : Prop := e = .value ∨ e = .valueOrClose

def Expect.IsKey (e : Expect) : Prop := e = .key ∨ e = .keyOrClose

variable {e : Expect} {stack : List Frame} {t : Token}

theorem step_eq_begin? (he : Expect.IsValue e) (ht : close? t stack = none) :
    step ⟨e, stack⟩ t = begin? stack t := by
  rcases he with rfl | rfl
  · rfl
  · simp only [step, ht, Option.none_or]

theorem step_eq_key? (he : Expect.IsKey e) (ht : close? t stack = none) :
    step ⟨e, stack⟩ t = key? stack t := by
  rcases he with rfl | rfl
  · rfl
  · simp only [step, ht, Option.none_or]

/-- The tokens bring the parser to the end of the phrase, wherever the phrase may begin. -/
def Takes (ts : List Token) : Form → Prop
  | .value v => ∀ stack e, Expect.IsValue e → run ⟨e, stack⟩ ts = complete v stack
  | .elements vs => ∀ stack,
      run ⟨.valueOrClose, .array [] :: stack⟩ ts = some ⟨.separator, .array vs.reverse :: stack⟩
  | .member m => ∀ ms stack e, Expect.IsKey e →
      run ⟨e, .object ms :: stack⟩ ts = some ⟨.separator, .object (m :: ms) :: stack⟩
  | .members ms => ∀ stack,
      run ⟨.keyOrClose, .object [] :: stack⟩ ts = some ⟨.separator, .object ms.reverse :: stack⟩

theorem takes_of_phrase {form : Form} {ts : List Token} (h : Phrase form ts) : Takes ts form := by
  induction h with
  | scalar v =>
    intro stack e he
    rw [run_singleton, step_eq_begin? he rfl, begin?]
  | emptyArray =>
    intro stack e he
    rw [run_of_step (step_eq_begin? he rfl), run_singleton]
    exact Option.or_none
  | array h ih =>
    intro stack e he
    rw [List.cons_append, run_of_step (step_eq_begin? he rfl), run_append (ih stack), run_singleton]
    simp only [step, close?, List.reverse_reverse]
  | emptyObject =>
    intro stack e he
    rw [run_of_step (step_eq_begin? he rfl), run_singleton]
    exact Option.or_none
  | object h ih =>
    intro stack e he
    rw [List.cons_append, run_of_step (step_eq_begin? he rfl), run_append (ih stack), run_singleton]
    simp only [step, close?, List.reverse_reverse]
  | element h ih => exact fun stack => ih _ _ (Or.inr rfl)
  | @nextElement vs v ts us before h ihs ih =>
    intro stack
    have hcomma : step ⟨.separator, .array vs.reverse :: stack⟩ .comma =
        some ⟨.value, .array vs.reverse :: stack⟩ := rfl
    rw [run_append (ihs stack), run_of_step hcomma, ih _ _ (Or.inl rfl), List.reverse_concat]
    rfl
  | @member key v ts h ih =>
    intro ms stack e he
    have hcolon : step ⟨.colon key, .object ms :: stack⟩ .colon =
        some ⟨.value, .member ms key :: stack⟩ := rfl
    rw [run_of_step (step_eq_key? he rfl), run_of_step hcolon, ih _ _ (Or.inl rfl)]
    rfl
  | firstMember h ih => exact fun stack => ih _ _ _ (Or.inr rfl)
  | @nextMember ms m ts us before h ihs ih =>
    intro stack
    have hcomma : step ⟨.separator, .object ms.reverse :: stack⟩ .comma =
        some ⟨.key, .object ms.reverse :: stack⟩ := rfl
    rw [run_append (ihs stack), run_of_step hcomma, ih _ _ _ (Or.inl rfl), List.reverse_concat]

inductive Awaits : Frame → List Token → Prop
  | element : Awaits (.array []) [.openBracket]
  | nextElement {vs : List Json} {ts : List Token} (h : Phrase (.elements vs.reverse) ts) :
      Awaits (.array vs) (.openBracket :: ts ++ [.comma])
  | member : Awaits (.object []) [.openBrace]
  | nextMember {ms : List (Option String × Json)} {ts : List Token}
      (h : Phrase (.members ms.reverse) ts) : Awaits (.object ms) (.openBrace :: ts ++ [.comma])

/-- The tokens up to a place where a value belongs, inside of all the containers on the stack. -/
inductive Opens : List Frame → List Token → Prop
  | nil : Opens [] []
  | array {stack : List Frame} {vs : List Json} {ts us : List Token} (outer : Opens stack ts)
      (inner : Awaits (.array vs) us) : Opens (.array vs :: stack) (ts ++ us)
  | member {stack : List Frame} {ms : List (Option String × Json)} {key : Option String}
      {ts us : List Token} (outer : Opens stack ts) (inner : Awaits (.object ms) us) :
      Opens (.member ms key :: stack) (ts ++ us ++ [.scalar (.string key), .colon])

inductive Reached : Parser → List Token → Prop
  | value {stack : List Frame} {ts : List Token} (h : Opens stack ts) : Reached ⟨.value, stack⟩ ts
  | valueOrClose {stack : List Frame} {ts : List Token} (h : Opens stack ts) :
      Reached ⟨.valueOrClose, .array [] :: stack⟩ (ts ++ [.openBracket])
  | key {stack : List Frame} {ms : List (Option String × Json)} {ts us : List Token}
      (h : Opens stack ts) (inner : Awaits (.object ms) us) :
      Reached ⟨.key, .object ms :: stack⟩ (ts ++ us)
  | keyOrClose {stack : List Frame} {ts : List Token} (h : Opens stack ts) :
      Reached ⟨.keyOrClose, .object [] :: stack⟩ (ts ++ [.openBrace])
  | colon {stack : List Frame} {ms : List (Option String × Json)} {key : Option String}
      {ts us : List Token} (h : Opens stack ts) (inner : Awaits (.object ms) us) :
      Reached ⟨.colon key, .object ms :: stack⟩ (ts ++ us ++ [.scalar (.string key)])
  | array {stack : List Frame} {vs : List Json} {ts us : List Token} (h : Opens stack ts)
      (inner : Phrase (.elements vs.reverse) us) :
      Reached ⟨.separator, .array vs :: stack⟩ (ts ++ .openBracket :: us)
  | object {stack : List Frame} {ms : List (Option String × Json)} {ts us : List Token}
      (h : Opens stack ts) (inner : Phrase (.members ms.reverse) us) :
      Reached ⟨.separator, .object ms :: stack⟩ (ts ++ .openBrace :: us)
  | nothing {v : Json} {ts : List Token} (h : Phrase (.value v) ts) : Reached ⟨.nothing v, []⟩ ts

variable {p q : Parser} {ts us : List Token} {v : Json} {vs : List Json}
  {ms : List (Option String × Json)}

theorem Awaits.elements (h : Awaits (.array vs) us) (hv : Phrase (.value v) ts) :
    ∃ ws, us ++ ts = .openBracket :: ws ∧ Phrase (.elements (v :: vs).reverse) ws := by
  cases h with
  | element => exact ⟨ts, rfl, .element hv⟩
  | nextElement h =>
    rw [List.reverse_cons]
    refine ⟨_, ?_, .nextElement h hv⟩
    simp only [List.cons_append, List.append_assoc, List.nil_append]

theorem Awaits.members {m : Option String × Json} (h : Awaits (.object ms) us)
    (hm : Phrase (.member m) ts) :
    ∃ ws, us ++ ts = .openBrace :: ws ∧ Phrase (.members (m :: ms).reverse) ws := by
  cases h with
  | member => exact ⟨ts, rfl, .firstMember hm⟩
  | nextMember h =>
    rw [List.reverse_cons]
    refine ⟨_, ?_, .nextMember h hm⟩
    simp only [List.cons_append, List.append_assoc, List.nil_append]

theorem Opens.complete (h : Opens stack ts) (hv : Phrase (.value v) us)
    (hp : Parser.complete v stack = some p) : Reached p (ts ++ us) := by
  cases h with
  | nil =>
    cases hp
    exact .nothing hv
  | array outer inner =>
    cases hp
    obtain ⟨ws, hws, helements⟩ := inner.elements hv
    rw [List.append_assoc, hws]
    exact .array outer helements
  | member outer inner =>
    cases hp
    obtain ⟨ws, hws, hmembers⟩ := inner.members (.member hv)
    rw [List.append_assoc, List.append_assoc, List.cons_append, List.singleton_append, hws]
    exact .object outer hmembers

theorem Opens.begin? (h : Opens stack ts) (hp : Parser.begin? stack t = some p) :
    Reached p (ts ++ [t]) := by
  cases t with
  | scalar v => exact h.complete (.scalar v) hp
  | openBracket =>
    cases hp
    exact .valueOrClose h
  | openBrace =>
    cases hp
    exact .keyOrClose h
  | closeBrace | closeBracket | colon | comma => cases hp

theorem Opens.key? (h : Opens stack ts) (inner : Awaits (.object ms) us)
    (hp : Parser.key? (.object ms :: stack) t = some p) : Reached p (ts ++ us ++ [t]) := by
  cases t with
  | scalar v =>
    cases v with
    | string key =>
      cases hp
      exact .colon h inner
    | null | bool | natural | number | array | object => cases hp
  | openBrace | closeBrace | openBracket | closeBracket | colon | comma => cases hp

theorem Opens.closeArray (h : Opens stack ts)
    (hv : Phrase (.value (.array vs.reverse)) (us ++ [.closeBracket]))
    (hp : close? t (.array vs :: stack) = some p) : Reached p (ts ++ us ++ [t]) := by
  cases t with
  | closeBracket =>
    rw [List.append_assoc]
    exact h.complete hv hp
  | openBrace | closeBrace | openBracket | colon | comma | scalar => cases hp

theorem Opens.closeObject (h : Opens stack ts)
    (hv : Phrase (.value (.object ms.reverse)) (us ++ [.closeBrace]))
    (hp : close? t (.object ms :: stack) = some p) : Reached p (ts ++ us ++ [t]) := by
  cases t with
  | closeBrace =>
    rw [List.append_assoc]
    exact h.complete hv hp
  | openBrace | openBracket | closeBracket | colon | comma | scalar => cases hp

theorem Reached.step (h : Reached p ts) (hs : p.step t = some q) : Reached q (ts ++ [t]) := by
  cases h with
  | value h => exact h.begin? hs
  | valueOrClose h =>
    rcases Option.or_eq_some_iff.mp hs with hclose | ⟨-, hbegin⟩
    · have hempty : Phrase (.value (.array [].reverse)) [.openBracket, .closeBracket] := .emptyArray
      exact h.closeArray hempty hclose
    · exact (Opens.array h .element).begin? hbegin
  | key h inner => exact h.key? inner hs
  | keyOrClose h =>
    rcases Option.or_eq_some_iff.mp hs with hclose | ⟨-, hkey⟩
    · have hempty : Phrase (.value (.object [].reverse)) [.openBrace, .closeBrace] := .emptyObject
      exact h.closeObject hempty hclose
    · exact h.key? .member hkey
  | colon h inner =>
    cases t with
    | colon =>
      cases hs
      rw [List.append_assoc _ [_] [_]]
      exact .value (.member h inner)
    | openBrace | closeBrace | openBracket | closeBracket | comma | scalar => cases hs
  | array h inner =>
    cases t with
    | comma =>
      cases hs
      rw [List.append_assoc]
      exact .value (.array h (.nextElement inner))
    | openBrace | closeBrace | openBracket | closeBracket | colon | scalar =>
      exact h.closeArray (.array inner) hs
  | object h inner =>
    cases t with
    | comma =>
      cases hs
      rw [List.append_assoc]
      exact .key h (.nextMember inner)
    | openBrace | closeBrace | openBracket | closeBracket | colon | scalar =>
      exact h.closeObject (.object inner) hs
  | nothing h => cases hs

theorem Reached.run (h : Reached p ts) (hr : p.run us = some q) : Reached q (ts ++ us) := by
  induction us generalizing p ts with
  | nil =>
    cases hr
    rwa [List.append_nil]
  | cons t us ih =>
    rw [Parser.run] at hr
    cases hs : p.step t with
    | none => simp only [hs, reduceCtorEq] at hr
    | some r =>
      rw [hs] at hr
      rw [List.append_cons]
      exact ih (h.step hs) hr

end Parser

theorem ofTokens?_eq_some_iff {ts : List Token} {v : Json} :
    ofTokens? ts = some v ↔ Phrase (.value v) ts := by
  constructor
  · intro h
    obtain ⟨⟨e, stack⟩, hrun, hend⟩ := Option.bind_eq_some_iff.mp h
    have hreached := Parser.Reached.run (.value .nil) hrun
    cases e with
    | nothing w =>
      cases hend
      cases hreached
      assumption
    | value | valueOrClose | key | keyOrClose | colon | separator => cases hend
  · intro h
    have hrun := Parser.takes_of_phrase h [] .value (Or.inl rfl)
    rw [ofTokens?, hrun]
    rfl

theorem Separated.glue {ts us : List Token} {t : Token} (before : Separated ts) (ht : ¬ t.IsScalar)
    (after : Separated us) : Separated (ts ++ t :: us) := by
  apply List.isChain_append.mpr
  refine ⟨before, List.isChain_cons.mpr ⟨fun _ _ h => ht h.1, after⟩, ?_⟩
  rintro _ - _ ⟨⟩ h
  exact ht h.2

theorem Phrase.separated {form : Form} {ts : List Token} (h : Phrase form ts) : Separated ts := by
  have empty : Separated [] := .nil
  induction h with
  | scalar v => exact .singleton _
  | emptyArray => exact empty.glue id (.singleton _)
  | array h ih => exact empty.glue id (ih.glue id empty)
  | emptyObject => exact empty.glue id (.singleton _)
  | object h ih => exact empty.glue id (ih.glue id empty)
  | element h ih | firstMember h ih => exact ih
  | nextElement before h ihs ih | nextMember before h ihs ih => exact ihs.glue id ih
  | member h ih => exact Separated.glue (.singleton _) id ih

/-- The text is a value, written as the tokens of a phrase with blanks between them. -/
def Spells (text : String) (v : Json) : Prop := ∃ ts, Lexes ts text.toList ∧ Phrase (.value v) ts

/-- The texts that can be parsed are those that spell a value, and it is this value that they are parsed to. -/
theorem parse?_eq_some_iff {text : String} {v : Json} : parse? text = some v ↔ Spells text v := by
  constructor
  · intro h
    obtain ⟨ts, htokens, hvalue⟩ := Option.bind_eq_some_iff.mp h
    exact ⟨ts, lexes_of_ofChars? htokens, ofTokens?_eq_some_iff.mp hvalue⟩
  · rintro ⟨ts, hlexes, hphrase⟩
    have htokens := ofChars?_of_lexes hlexes hphrase.separated
    rw [parse?, htokens]
    exact ofTokens?_eq_some_iff.mpr hphrase

end Sv32.Json
