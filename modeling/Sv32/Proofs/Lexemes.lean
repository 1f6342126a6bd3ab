import Mathlib.Data.List.Chain
import Sv32.Json.Token

/-! # Lexemes

How tokens are written, with blanks anywhere between two of them. The lexer finds no tokens but those that
are written there; and it finds them all, if no two scalars follow each other. -/
namespace Sv32.Json

def IsDigits (cs : List Char) : Prop := cs ≠ [] ∧ ∀ c ∈ cs, c.isDigit = true

/-- The digits of a natural number with the value, or a minus before them and no value. -/
inductive Whole : Option Nat → Nat → List Char → Prop
  | natural (n : Nat) : Whole (some n) n (Nat.toDigits 10 n)
  | negative (n : Nat) : Whole none n ('-' :: Nat.toDigits 10 n)

inductive Fraction : List Char → Prop
  | absent : Fraction []
  | given {ds : List Char} (h : IsDigits ds) : Fraction ('.' :: ds)

inductive Exponent : List Char → Prop
  | absent : Exponent []
  | given {e : Char} {sign ds : List Char} (mark : e = 'e' ∨ e = 'E')
      (hsign : sign = [] ∨ sign = ['+'] ∨ sign = ['-']) (h : IsDigits ds) :
      Exponent (e :: sign ++ ds)

/-- A numeral, with its value if it is a plain natural one. -/
inductive Numeral : Option Nat → List Char → Prop
  | whole {value : Option Nat} {n : Nat} {cs : List Char} (h : Whole value n cs) : Numeral value cs
  | fractional {value : Option Nat} {n : Nat} {cs fs xs : List Char} (h : Whole value n cs)
      (fraction : Fraction fs) (exponent : Exponent xs) (some_part : fs ++ xs ≠ []) :
      Numeral none (cs ++ fs ++ xs)

inductive HexCode : List Char → Nat → Prop
  | nil : HexCode [] 0
  | snoc {cs : List Char} {n : Nat} {c : Char} {d : Nat} (before : HexCode cs n)
      (h : Lexer.hexValue? c = some d) : HexCode (cs ++ [c]) (16 * n + d)

/-- A character by itself, unless it is a quote, a backslash or a control character; a short escape; or a
code unit by its number. -/
inductive Piece.Written : Piece → List Char → Prop
  | plain {c : Char} (visible : ' ' ≤ c) (quote : c ≠ '"') (backslash : c ≠ '\\') :
      Written (.char c) [c]
  | short {c d : Char} (h : Lexer.escaped? d = some c) : Written (.char c) ['\\', d]
  | code {n : Nat} {hs : List Char} (h : HexCode hs n) (four : hs.length = 4) :
      Written (.unit n) ('\\' :: 'u' :: hs)

inductive Pieces : List Piece → List Char → Prop
  | nil : Pieces [] []
  | snoc {ps : List Piece} {p : Piece} {cs l : List Char} (before : Pieces ps cs) (h : p.Written l) :
      Pieces (ps ++ [p]) (cs ++ l)

/-- The characters that the pieces stand for. A code unit stands for a character by itself or, if it is half
of a surrogate pair, together with the other half. -/
inductive Denotes : List Piece → List Char → Prop
  | nil : Denotes [] []
  | char {c : Char} {ps : List Piece} {cs : List Char} (h : Denotes ps cs) :
      Denotes (.char c :: ps) (c :: cs)
  | unit {n : Nat} {ps : List Piece} {cs : List Char} (high : isHighSurrogate n = false)
      (low : isLowSurrogate n = false) (h : Denotes ps cs) :
      Denotes (.unit n :: ps) (Char.ofNat n :: cs)
  | pair {n m : Nat} {ps : List Piece} {cs : List Char} (high : isHighSurrogate n = true)
      (low : isLowSurrogate m = true) (h : Denotes ps cs) :
      Denotes (.unit n :: .unit m :: ps)
        (Char.ofNat (0x10000 + (n - 0xd800) * 0x400 + (m - 0xdc00)) :: cs)

/-- The characters of one token. A string of which the pieces stand for no text has none. -/
inductive Lexeme : Token → List Char → Prop
  | openBrace : Lexeme .openBrace ['{']
  | closeBrace : Lexeme .closeBrace ['}']
  | openBracket : Lexeme .openBracket ['[']
  | closeBracket : Lexeme .closeBracket [']']
  | colon : Lexeme .colon [':']
  | comma : Lexeme .comma [',']
  | null : Lexeme (.scalar .null) ['n', 'u', 'l', 'l']
  | true : Lexeme (.scalar (.bool true)) ['t', 'r', 'u', 'e']
  | false : Lexeme (.scalar (.bool false)) ['f', 'a', 'l', 's', 'e']
  | natural {n : Nat} {cs : List Char} (h : Numeral (some n) cs) : Lexeme (.scalar (.natural n)) cs
  | number {cs : List Char} (h : Numeral none cs) : Lexeme (.scalar .number) cs
  | string {text : Option String} {ps : List Piece} {cs : List Char} (h : Pieces ps cs)
      (denotes : ∀ s, text = some s ↔ Denotes ps s.toList) :
      Lexeme (.scalar (.string text)) ('"' :: cs ++ ['"'])

/-- Tokens in a row, and blanks anywhere before, between and behind them. -/
inductive Lexes : List Token → List Char → Prop
  | nil : Lexes [] []
  | blank {ts : List Token} {cs : List Char} {c : Char} (before : Lexes ts cs)
      (h : c ∈ [' ', '\t', '\n', '\r']) : Lexes ts (cs ++ [c])
  | token {ts : List Token} {t : Token} {cs l : List Char} (before : Lexes ts cs) (h : Lexeme t l) :
      Lexes (ts ++ [t]) (cs ++ l)

theorem exists_digit {c : Char} (h : c.isDigit = true) : ∃ d < 10, c = Nat.digitChar d := by
  obtain ⟨hlow, hhigh⟩ := Char.isDigit_iff_toNat.mp h
  have h0 : '0'.toNat = 48 := rfl
  have h9 : '9'.toNat = 57 := rfl
  refine ⟨c.toNat - 48, by omega, ?_⟩
  apply Char.toNat_inj.mp
  rw [Nat.toNat_digitChar_of_lt_ten (by omega)]
  omega

theorem digitValue_digitChar {d : Nat} (h : d < 10) : Lexer.digitValue d.digitChar = d :=
  Nat.toNat_digitChar_sub_48_of_lt_ten h

theorem toDigits_snoc {n d : Nat} (hn : 0 < n) (hd : d < 10) :
    Nat.toDigits 10 n ++ [d.digitChar] = Nat.toDigits 10 (10 * n + d) := by
  rw [← Nat.toDigits_of_lt_base hd]
  exact Nat.toDigits_append_toDigits (by decide) hn hd

theorem IsDigits.single {c : Char} (h : c.isDigit = true) : IsDigits [c] :=
  ⟨List.cons_ne_nil _ _, by simpa using h⟩

theorem IsDigits.snoc {ds : List Char} {c : Char} (h : IsDigits ds) (hc : c.isDigit = true) :
    IsDigits (ds ++ [c]) := by
  refine ⟨by simp, ?_⟩
  intro b hb
  rcases List.mem_append.mp hb with hb | hb
  · exact h.2 b hb
  · rwa [List.mem_singleton.mp hb]

theorem Whole.snoc {value : Option Nat} {n d : Nat} {cs : List Char} (h : Whole value n cs)
    (hn : 0 < n) (hd : d < 10) :
    Whole (value.map (10 * · + d)) (10 * n + d) (cs ++ [d.digitChar]) := by
  cases h with
  | natural =>
    rw [toDigits_snoc hn hd]
    exact .natural _
  | negative =>
    rw [List.cons_append, toDigits_snoc hn hd]
    exact .negative _

/-- The characters of a numeral up to a part of it, and their value if they are a plain natural number. -/
inductive Part.Begun : Part → Option Nat → List Char → Prop
  | sign : Begun .sign none ['-']
  | zero {value : Option Nat} {cs : List Char} (h : Whole value 0 cs) : Begun .zero value cs
  | whole {value : Option Nat} {n : Nat} {cs : List Char} (h : Whole value n cs) (pos : 0 < n) :
      Begun .whole value cs
  | point {value : Option Nat} {n : Nat} {cs : List Char} (h : Whole value n cs) :
      Begun .point none (cs ++ ['.'])
  | fraction {value : Option Nat} {n : Nat} {cs ds : List Char} (h : Whole value n cs)
      (digits : IsDigits ds) : Begun .fraction none (cs ++ '.' :: ds)
  | mark {value : Option Nat} {n : Nat} {cs fs : List Char} {e : Char} (h : Whole value n cs)
      (fraction : Fraction fs) (he : e = 'e' ∨ e = 'E') : Begun .mark none (cs ++ fs ++ [e])
  | markSign {value : Option Nat} {n : Nat} {cs fs : List Char} {e s : Char} (h : Whole value n cs)
      (fraction : Fraction fs) (he : e = 'e' ∨ e = 'E') (hs : s = '+' ∨ s = '-') :
      Begun .markSign none (cs ++ fs ++ [e, s])
  | exponent {value : Option Nat} {n : Nat} {cs fs ds sign : List Char} {e : Char}
      (h : Whole value n cs) (fraction : Fraction fs) (he : e = 'e' ∨ e = 'E')
      (hsign : sign = [] ∨ sign = ['+'] ∨ sign = ['-']) (digits : IsDigits ds) :
      Begun .exponent none (cs ++ fs ++ (e :: sign ++ ds))

section

variable {part after : Part} {value : Option Nat} {cs : List Char} {c : Char}

theorem Part.Begun.numeral (h : part.Begun value cs) (hc : part.isComplete = true) :
    Numeral value cs := by
  cases h with
  | zero h => exact .whole h
  | whole h pos => exact .whole h
  | fraction h digits =>
    have hnumeral := Numeral.fractional h (.given digits) .absent (List.cons_ne_nil _ _)
    rwa [List.append_nil] at hnumeral
  | exponent h fraction he hsign digits =>
    exact .fractional h fraction (.given he hsign digits) (by simp)
  | sign | point | mark | markSign => cases hc

theorem Part.Begun.mark_of_whole {n : Nat} (h : Whole value n cs) (hc : c = 'e' ∨ c = 'E') :
    Part.mark.Begun none (cs ++ [c]) := by
  have hbegun := Part.Begun.mark h .absent hc
  rwa [List.append_nil] at hbegun

/-- The parts of a numeral in their order, each with the characters that lead to it. -/
inductive Part.Next : Part → Char → Part → Prop
  | zero : Next .sign '0' .zero
  | first {c : Char} (hc : c.isDigit = true) (hzero : c ≠ '0') : Next .sign c .whole
  | more {c : Char} (hc : c.isDigit = true) : Next .whole c .whole
  | point {part : Part} (hpart : part = .zero ∨ part = .whole) : Next part '.' .point
  | fraction {part : Part} {c : Char} (hpart : part = .point ∨ part = .fraction) (hc : c.isDigit = true) :
      Next part c .fraction
  | mark {part : Part} {c : Char} (hpart : part = .zero ∨ part = .whole ∨ part = .fraction)
      (hc : c = 'e' ∨ c = 'E') : Next part c .mark
  | markSign {c : Char} (hc : c = '+' ∨ c = '-') : Next .mark c .markSign
  | exponent {part : Part} {c : Char} (hpart : part = .mark ∨ part = .markSign ∨ part = .exponent)
      (hc : c.isDigit = true) : Next part c .exponent

theorem Part.next_of_next? (h : part.next? c = some after) : part.Next c after := by
  unfold next? at h
  grind [Part.Next]

theorem Part.Begun.step (h : part.Begun value cs) (hn : part.Next c after) :
    after.Begun (Lexer.numberValue after value c) (cs ++ [c]) := by
  cases hn with
  | zero =>
    cases h with
    | sign => exact .zero (.negative 0)
  | first hdigit hzero =>
    cases h with
    | sign =>
      obtain ⟨d, hd, rfl⟩ := exists_digit hdigit
      have hpos : 0 < d := by
        apply Nat.pos_of_ne_zero
        rintro rfl
        exact hzero rfl
      have hwhole := Whole.negative d
      rw [Nat.toDigits_of_lt_base hd] at hwhole
      exact .whole hwhole hpos
  | more hdigit =>
    cases h with
    | whole h pos =>
      obtain ⟨d, hd, rfl⟩ := exists_digit hdigit
      rw [Lexer.numberValue, digitValue_digitChar hd]
      exact .whole (h.snoc pos hd) (by omega)
  | point hpart =>
    rcases hpart with rfl | rfl
    · cases h with
      | zero h => exact .point h
    · cases h with
      | whole h => exact .point h
  | fraction hpart hdigit =>
    rcases hpart with rfl | rfl
    · cases h with
      | point h =>
        rw [List.append_assoc]
        exact .fraction h (.single hdigit)
    · cases h with
      | fraction h digits =>
        rw [List.append_assoc]
        exact .fraction h (digits.snoc hdigit)
  | mark hpart hmark =>
    rcases hpart with rfl | rfl | rfl
    · cases h with
      | zero h => exact mark_of_whole h hmark
    · cases h with
      | whole h => exact mark_of_whole h hmark
    · cases h with
      | fraction h digits => exact .mark h (.given digits) hmark
  | markSign hsign =>
    cases h with
    | mark h fraction he =>
      rw [List.append_assoc]
      exact .markSign h fraction he hsign
  | exponent hpart hdigit =>
    rcases hpart with rfl | rfl | rfl
    · cases h with
      | mark h fraction he =>
        rw [List.append_assoc]
        exact .exponent h fraction he (Or.inl rfl) (.single hdigit)
    · cases h with
      | @markSign _ _ _ _ _ s h fraction he hs =>
        have hsign : [s] = [] ∨ [s] = ['+'] ∨ [s] = ['-'] := by
          rcases hs with rfl | rfl
          · exact Or.inr (Or.inl rfl)
          · exact Or.inr (Or.inr rfl)
        rw [List.append_assoc]
        exact .exponent h fraction he hsign (.single hdigit)
    · cases h with
      | exponent h fraction he hsign digits =>
        rw [List.append_assoc, List.append_assoc (_ :: _)]
        exact .exponent h fraction he hsign (digits.snoc hdigit)

end

theorem denotes_char_iff {c : Char} {ps : List Piece} {cs : List Char} :
    Denotes (.char c :: ps) cs ↔ ∃ rest, cs = c :: rest ∧ Denotes ps rest := by
  constructor
  · rintro ⟨⟩
    exact ⟨_, rfl, by assumption⟩
  · rintro ⟨rest, rfl, h⟩
    exact .char h

theorem denotes_unit_iff {n : Nat} {ps : List Piece} {cs : List Char}
    (hn : (isHighSurrogate n || isLowSurrogate n) = false) :
    Denotes (.unit n :: ps) cs ↔ ∃ rest, cs = Char.ofNat n :: rest ∧ Denotes ps rest := by
  obtain ⟨hhigh, hlow⟩ := Bool.or_eq_false_iff.mp hn
  constructor
  · intro h
    cases h with
    | unit high low h => exact ⟨_, rfl, h⟩
    | pair high low h => simp only [hhigh, Bool.false_eq_true] at high
  · rintro ⟨rest, rfl, h⟩
    exact .unit hhigh hlow h

theorem denotes_pair_iff {n m : Nat} {ps : List Piece} {cs : List Char}
    (hn : (isHighSurrogate n && isLowSurrogate m) = true) :
    Denotes (.unit n :: .unit m :: ps) cs ↔
      ∃ rest, cs = Char.ofNat (0x10000 + (n - 0xd800) * 0x400 + (m - 0xdc00)) :: rest ∧
        Denotes ps rest := by
  obtain ⟨hhigh, hlow⟩ := Bool.and_eq_true_iff.mp hn
  constructor
  · intro h
    cases h with
    | unit high low h => simp only [hhigh, Bool.true_eq_false] at high
    | pair high low h => exact ⟨_, rfl, h⟩
  · rintro ⟨rest, rfl, h⟩
    exact .pair hhigh hlow h

theorem not_denotes_half {n : Nat} {ps : List Piece} {cs : List Char}
    (hn : (isHighSurrogate n || isLowSurrogate n) = true)
    (alone : ∀ m rest, ps = .unit m :: rest → (isHighSurrogate n && isLowSurrogate m) = false) :
    ¬ Denotes (.unit n :: ps) cs := by
  intro h
  cases h with
  | unit high low h => simp only [high, low, Bool.or_false, Bool.false_eq_true] at hn
  | pair high low h =>
    have := alone _ _ rfl
    simp only [high, low, Bool.and_true, Bool.true_eq_false] at this

/-- Decoding finds the text that the pieces stand for. The characters that came before the pieces are kept in
front of it, last first. -/
theorem decode_eq_some_iff_append {before : List Char} {ps : List Piece} {s : String} :
    decode before ps = some s ↔
      ∃ cs, Denotes ps cs ∧ s = String.ofList (before.reverse ++ cs) := by
  have move : ∀ {c : Char} {before : List Char} {P Q : List Char → Prop},
      (∀ cs, Q cs ↔ ∃ rest, cs = c :: rest ∧ P rest) →
      ((∃ cs, P cs ∧ s = String.ofList ((c :: before).reverse ++ cs)) ↔
        ∃ cs, Q cs ∧ s = String.ofList (before.reverse ++ cs)) := by
    intro c before P Q h
    constructor
    · rintro ⟨cs, hP, hs⟩
      exact ⟨c :: cs, (h _).mpr ⟨cs, rfl, hP⟩, by rwa [List.reverse_cons, List.append_assoc] at hs⟩
    · rintro ⟨cs, hQ, hs⟩
      obtain ⟨rest, rfl, hP⟩ := (h _).mp hQ
      exact ⟨rest, hP, by rwa [List.reverse_cons, List.append_assoc]⟩
  fun_induction decode before ps with
  | case1 before =>
    constructor
    · intro h
      cases h
      exact ⟨[], .nil, by rw [List.append_nil]⟩
    · rintro ⟨cs, ⟨⟩, rfl⟩
      rw [List.append_nil]
  | case2 before c ps ih => exact ih.trans (move fun _ => denotes_char_iff)
  | case3 before n m ps hpair ih => exact ih.trans (move fun _ => denotes_pair_iff hpair)
  | case4 before n m ps hpair hhalf =>
    have alone : ∀ k rest, Piece.unit m :: ps = .unit k :: rest →
        (isHighSurrogate n && isLowSurrogate k) = false := by
      rintro k rest ⟨⟩
      exact Bool.eq_false_iff.mpr hpair
    exact iff_of_false nofun fun ⟨cs, h, _⟩ => not_denotes_half hhalf alone h
  | case5 before n m ps hpair hhalf ih =>
    exact ih.trans (move fun _ => denotes_unit_iff (Bool.eq_false_iff.mpr hhalf))
  | case6 before n ps hlast hhalf =>
    have alone : ∀ k rest, ps = .unit k :: rest → (isHighSurrogate n && isLowSurrogate k) = false :=
      fun k rest h => (hlast k rest h).elim
    exact iff_of_false nofun fun ⟨cs, h, _⟩ => not_denotes_half hhalf alone h
  | case7 before n ps hlast hhalf ih =>
    exact ih.trans (move fun _ => denotes_unit_iff (Bool.eq_false_iff.mpr hhalf))

theorem decode_eq_some_iff {ps : List Piece} {s : String} :
    decode [] ps = some s ↔ Denotes ps s.toList := by
  rw [decode_eq_some_iff_append]
  constructor
  · rintro ⟨cs, h, rfl⟩
    rwa [List.reverse_nil, List.nil_append, String.toList_ofList]
  · intro h
    exact ⟨s.toList, h, by rw [List.reverse_nil, List.nil_append, String.ofList_toList]⟩

/-- The characters of the token that is being read. -/
inductive Reading.Begun : Reading → List Char → Prop
  | nothing : Begun .nothing []
  | word {v : Json} {cs missing : List Char} (h : Lexeme (.scalar v) (cs ++ missing)) :
      Begun (.word missing v) cs
  | number {part : Part} {value : Option Nat} {cs : List Char} (h : part.Begun value cs) :
      Begun (.number part value) cs
  | string {ps : List Piece} {cs : List Char} (h : Pieces ps.reverse cs) :
      Begun (.string ps) ('"' :: cs)
  | escape {ps : List Piece} {cs : List Char} (h : Pieces ps.reverse cs) :
      Begun (.escape ps) ('"' :: cs ++ ['\\'])
  | code {ps : List Piece} {cs hs : List Char} {missing n : Nat} (h : Pieces ps.reverse cs)
      (hex : HexCode hs n) (four : hs.length + missing = 4) (pos : 0 < missing) :
      Begun (.code ps missing n) ('"' :: cs ++ '\\' :: 'u' :: hs)

namespace Lexer

/-- The characters that the lexer has read: those of the tokens that are complete, and of one that is not. -/
def Reads (l : Lexer) (cs : List Char) : Prop :=
  ∃ before last, Lexes l.tokens.reverse before ∧ l.reading.Begun last ∧ cs = before ++ last

variable {l l' : Lexer} {ts : List Token} {t : Token} {cs : List Char} {c : Char}

theorem reads_of_lexes (h : Lexes ts.reverse cs) : Reads ⟨ts, .nothing⟩ cs :=
  ⟨cs, [], h, .nothing, (List.append_nil cs).symm⟩

theorem reads_token (h : Lexes ts.reverse cs) {last : List Char} (ht : Lexeme t last) :
    Reads ⟨t :: ts, .nothing⟩ (cs ++ last) := by
  apply reads_of_lexes
  rw [List.reverse_cons]
  exact .token h ht

theorem numberToken_lexeme {value : Option Nat} (h : Numeral value cs) :
    Lexeme (numberToken value) cs := by
  cases value with
  | none => exact .number h
  | some n => exact .natural h

theorem mem_of_isBlank (h : isBlank c = true) : c ∈ [' ', '\t', '\n', '\r'] := by
  simpa only [isBlank, Bool.or_eq_true, beq_iff_eq, or_assoc, List.mem_cons, List.not_mem_nil,
    or_false] using h

theorem reads_start (h : Lexes ts.reverse cs) (hs : start ts c = some l) : Reads l (cs ++ [c]) := by
  have begins : ∀ {reading : Reading}, reading.Begun [c] → Reads ⟨ts, reading⟩ (cs ++ [c]) :=
    fun hc => ⟨cs, [c], h, hc, rfl⟩
  unfold start at hs
  split at hs
  · cases hs
    exact reads_token h .openBrace
  · cases hs
    exact reads_token h .closeBrace
  · cases hs
    exact reads_token h .openBracket
  · cases hs
    exact reads_token h .closeBracket
  · cases hs
    exact reads_token h .colon
  · cases hs
    exact reads_token h .comma
  · cases hs
    exact begins (.string .nil)
  · cases hs
    exact begins (.word .null)
  · cases hs
    exact begins (.word .true)
  · cases hs
    exact begins (.word .false)
  · cases hs
    exact begins (.number .sign)
  · cases hs
    exact begins (.number (.zero (.natural 0)))
  · rename_i hzero
    split at hs
    · rename_i hblank
      cases hs
      exact reads_of_lexes (.blank h (mem_of_isBlank hblank))
    · split at hs
      · rename_i hdigit
        cases hs
        obtain ⟨d, hd, rfl⟩ := exists_digit hdigit
        have hpos : 0 < d := by
          apply Nat.pos_of_ne_zero
          rintro rfl
          exact hzero rfl
        have hwhole := Whole.natural d
        rw [Nat.toDigits_of_lt_base hd] at hwhole
        rw [digitValue_digitChar hd]
        exact begins (.number (.whole hwhole hpos))
      · cases hs

section

variable {before : List Char} {ps : List Piece} (hbefore : Lexes ts.reverse before)

include hbefore

theorem reads_more {last : List Char} {reading : Reading} (h : reading.Begun (last ++ [c])) :
    Reads ⟨ts, reading⟩ (before ++ last ++ [c]) :=
  ⟨before, last ++ [c], hbefore, h, List.append_assoc ..⟩

theorem reads_word {v : Json} {missing : List Char} (h : Lexeme (.scalar v) (cs ++ missing))
    (hs : step ⟨ts, .word missing v⟩ c = some l) : Reads l (before ++ cs ++ [c]) := by
  simp only [Lexer.step] at hs
  split at hs
  · split at hs
    · rename_i hc
      cases hs
      rw [List.append_assoc, beq_iff_eq.mp hc]
      exact reads_token hbefore h
    · cases hs
  · split at hs
    · rename_i d rest _ hc
      cases hs
      rw [beq_iff_eq] at hc
      subst hc
      rw [List.append_cons] at h
      exact reads_more hbefore (.word h)
    · cases hs
  · cases hs

theorem reads_number {part : Part} {value : Option Nat} (h : part.Begun value cs)
    (hs : step ⟨ts, .number part value⟩ c = some l) : Reads l (before ++ cs ++ [c]) := by
  simp only [Lexer.step] at hs
  split at hs
  · rename_i next hnext
    cases hs
    exact reads_more hbefore (.number (h.step (Part.next_of_next? hnext)))
  · split at hs
    · rename_i hcomplete
      have htoken := numberToken_lexeme (h.numeral hcomplete)
      refine reads_start ?_ hs
      rw [List.reverse_cons]
      exact .token hbefore htoken
    · cases hs

theorem reads_string (h : Pieces ps.reverse cs) (hs : step ⟨ts, .string ps⟩ c = some l) :
    Reads l (before ++ '"' :: cs ++ [c]) := by
  simp only [Lexer.step] at hs
  split at hs
  · rename_i hquote
    cases hs
    rw [List.append_assoc, beq_iff_eq.mp hquote]
    exact reads_token hbefore (.string h fun s => decode_eq_some_iff)
  · rename_i hquote
    split at hs
    · rename_i hbackslash
      cases hs
      rw [beq_iff_eq] at hbackslash
      subst hbackslash
      exact reads_more hbefore (.escape h)
    · rename_i hbackslash
      split at hs
      · cases hs
      · rename_i hvisible
        cases hs
        have hplain : (Piece.char c).Written [c] :=
          .plain (Char.not_lt.mp hvisible) (by simpa using hquote) (by simpa using hbackslash)
        refine reads_more hbefore (.string ?_)
        rw [List.reverse_cons]
        exact .snoc h hplain

theorem reads_escape (h : Pieces ps.reverse cs) (hs : step ⟨ts, .escape ps⟩ c = some l) :
    Reads l (before ++ ('"' :: cs ++ ['\\']) ++ [c]) := by
  simp only [Lexer.step] at hs
  split at hs
  · rename_i hu
    cases hs
    rw [beq_iff_eq] at hu
    subst hu
    apply reads_more hbefore
    rw [List.append_assoc]
    exact .code h .nil rfl (by decide)
  · obtain ⟨d, hd, rfl⟩ := Option.map_eq_some_iff.mp hs
    apply reads_more hbefore
    rw [List.append_assoc]
    refine .string ?_
    rw [List.reverse_cons]
    exact .snoc h (.short hd)

theorem reads_code {hs' : List Char} {missing n : Nat} (h : Pieces ps.reverse cs) (hex : HexCode hs' n)
    (four : hs'.length + missing = 4) (pos : 0 < missing) (hs : step ⟨ts, .code ps missing n⟩ c = some l) :
    Reads l (before ++ ('"' :: cs ++ '\\' :: 'u' :: hs') ++ [c]) := by
  simp only [Lexer.step] at hs
  obtain ⟨d, hd, hl⟩ := Option.map_eq_some_iff.mp hs
  have hcode := HexCode.snoc hex hd
  have hlength : (hs' ++ [c]).length = hs'.length + 1 := List.length_append
  have assoc : '"' :: cs ++ '\\' :: 'u' :: hs' ++ [c] = '"' :: cs ++ '\\' :: 'u' :: (hs' ++ [c]) := by
    rw [List.append_assoc]
    rfl
  split at hl
  · subst hl
    have hfour : (hs' ++ [c]).length = 4 := by omega
    apply reads_more hbefore
    rw [assoc]
    refine .string ?_
    rw [List.reverse_cons]
    exact .snoc h (.code hcode hfour)
  · subst hl
    apply reads_more hbefore
    rw [assoc]
    exact .code h hcode (by omega) (by omega)

end

theorem Reads.step (h : l.Reads cs) (hs : l.step c = some l') : l'.Reads (cs ++ [c]) := by
  obtain ⟨before, last, hbefore, hlast, rfl⟩ := h
  obtain ⟨ts, reading⟩ := l
  cases hlast with
  | nothing =>
    rw [List.append_nil]
    exact reads_start hbefore hs
  | word h => exact reads_word hbefore h hs
  | number h => exact reads_number hbefore h hs
  | string h => exact reads_string hbefore h hs
  | escape h => exact reads_escape hbefore h hs
  | code h hex four pos => exact reads_code hbefore h hex four pos hs

theorem Reads.run {rest : List Char} (h : l.Reads cs) (hr : l.run rest = some l') :
    l'.Reads (cs ++ rest) := by
  induction rest generalizing l cs with
  | nil =>
    cases hr
    rwa [List.append_nil]
  | cons c rest ih =>
    rw [Lexer.run] at hr
    cases hs : l.step c with
    | none => simp only [hs, reduceCtorEq] at hr
    | some k =>
      rw [hs] at hr
      rw [List.append_cons]
      exact ih (h.step hs) hr

theorem Reads.finish (h : l.Reads cs) (hf : l.finish? = some ts) : Lexes ts cs := by
  obtain ⟨before, last, hbefore, hlast, rfl⟩ := h
  obtain ⟨us, reading⟩ := l
  cases hlast with
  | nothing =>
    cases hf
    rwa [List.append_nil]
  | number h =>
    simp only [finish?] at hf
    split at hf
    · rename_i hcomplete
      cases hf
      rw [List.reverse_cons]
      exact .token hbefore (numberToken_lexeme (h.numeral hcomplete))
    · cases hf
  | word | string | escape | code => cases hf

theorem run_of_step (h : l.step c = some l') (cs : List Char) : l.run (c :: cs) = l'.run cs := by
  rw [Lexer.run, h]

theorem run_singleton (l : Lexer) (c : Char) : l.run [c] = l.step c := by
  rw [Lexer.run]
  cases l.step c <;> rfl

theorem run_append (h : l.run cs = some l') (rest : List Char) : l.run (cs ++ rest) = l'.run rest := by
  induction cs generalizing l with
  | nil => rw [List.nil_append, Option.some.inj h]
  | cons c cs ih =>
    rw [List.cons_append, Lexer.run]
    rw [Lexer.run] at h
    cases hs : l.step c with
    | none => simp only [hs, reduceCtorEq] at h
    | some k =>
      rw [hs] at h
      exact ih h

variable (ts)

def wholePart (n : Nat) : Part := if n = 0 then .zero else .whole

theorem step_number {part after : Part} {value : Option Nat} (h : part.next? c = some after) :
    step ⟨ts, .number part value⟩ c = some ⟨ts, .number after (numberValue after value c)⟩ := by
  simp only [Lexer.step, h]

theorem start_digit {d : Nat} (hd : d < 10) :
    start ts d.digitChar = some ⟨ts, .number (wholePart d) (some d)⟩ := by
  match d with
  | 0 | 1 | 2 | 3 | 4 | 5 | 6 | 7 | 8 | 9 => rfl

theorem next?_sign {d : Nat} (hd : d < 10) : Part.sign.next? d.digitChar = some (wholePart d) := by
  match d with
  | 0 | 1 | 2 | 3 | 4 | 5 | 6 | 7 | 8 | 9 => rfl

theorem numberValue_none (part : Part) (c : Char) : numberValue part none c = none := by
  cases part <;> rfl

theorem numberValue_of_ne {part : Part} (h : part ≠ .whole) (value : Option Nat) (c : Char) :
    numberValue part value c = none := by
  cases part with
  | whole => exact absurd rfl h
  | sign | zero | point | fraction | mark | markSign | exponent => rfl

/-- Reading the digits of a number, from wherever the first of them is read. -/
theorem run_toDigits {reading : Reading} {value : Nat → Option Nat}
    (first : ∀ d < 10, step ⟨ts, reading⟩ d.digitChar = some ⟨ts, .number (wholePart d) (value d)⟩)
    (more : ∀ n d, (value n).map (10 * · + d) = value (10 * n + d)) (n : Nat) :
    run ⟨ts, reading⟩ (Nat.toDigits 10 n) = some ⟨ts, .number (wholePart n) (value n)⟩ := by
  induction n using Nat.strongRecOn with
  | ind n ih =>
    by_cases hn : n < 10
    · rw [Nat.toDigits_of_lt_base hn, run_singleton, first n hn]
    · have hd : n % 10 < 10 := Nat.mod_lt n (by decide)
      have hwhole : wholePart (n / 10) = .whole := if_neg (by omega)
      have hwhole' : wholePart n = .whole := if_neg (by omega)
      have hdigit : (n % 10).digitChar.isDigit = true := by
        rw [Nat.isDigit_digitChar]
        exact decide_eq_true hd
      have hnext : Part.whole.next? (n % 10).digitChar = some .whole := by
        simp only [Part.next?, hdigit, ↓reduceIte]
      rw [Nat.toDigits_of_base_le (by decide) (by omega), run_append (ih (n / 10) (by omega)), hwhole,
        run_singleton, step_number ts hnext, numberValue, digitValue_digitChar hd, more,
        Nat.div_add_mod, hwhole']

theorem run_whole {value : Option Nat} {n : Nat} (h : Whole value n cs) :
    run ⟨ts, .nothing⟩ cs = some ⟨ts, .number (wholePart n) value⟩ := by
  cases h with
  | natural =>
    have first : ∀ d < 10,
        step ⟨ts, .nothing⟩ d.digitChar = some ⟨ts, .number (wholePart d) (some d)⟩ :=
      fun d hd => start_digit ts hd
    exact run_toDigits ts first (fun _ _ => rfl) n
  | negative =>
    have hminus : step ⟨ts, .nothing⟩ '-' = some ⟨ts, .number .sign none⟩ := rfl
    have first : ∀ d < 10,
        step ⟨ts, .number .sign none⟩ d.digitChar = some ⟨ts, .number (wholePart d) none⟩ := by
      intro d hd
      rw [step_number ts (next?_sign hd), numberValue_none]
    rw [run_of_step hminus]
    exact run_toDigits ts first (fun _ _ => rfl) n

theorem run_digits {part after : Part} (first : ∀ c, c.isDigit = true → part.next? c = some after)
    (more : ∀ c, c.isDigit = true → after.next? c = some after) {ds : List Char} (h : IsDigits ds) :
    run ⟨ts, .number part none⟩ ds = some ⟨ts, .number after none⟩ := by
  obtain ⟨hne, hall⟩ := h
  cases ds with
  | nil => exact absurd rfl hne
  | cons d ds =>
    rw [run_of_step (step_number ts (first d (hall d (.head ds)))), numberValue_none]
    have hrest : ∀ c ∈ ds, c.isDigit = true := fun c hc => hall c (.tail d hc)
    clear hne hall
    induction ds with
    | nil => rfl
    | cons c ds ih =>
      rw [run_of_step (step_number ts (more c (hrest c (.head ds)))), numberValue_none]
      exact ih fun b hb => hrest b (.tail c hb)

theorem next?_digit (h : c.isDigit = true) :
    Part.point.next? c = some .fraction ∧ Part.fraction.next? c = some .fraction ∧
      Part.mark.next? c = some .exponent ∧ Part.markSign.next? c = some .exponent ∧
      Part.exponent.next? c = some .exponent := by
  simp only [Part.next?, h, ↓reduceIte, and_self]

def Part.MayEnd (part : Part) : Prop := part = .zero ∨ part = .whole ∨ part = .fraction

theorem wholePart_mayEnd (n : Nat) : Part.MayEnd (wholePart n) := by
  unfold wholePart
  split
  · exact Or.inl rfl
  · exact Or.inr (Or.inl rfl)

theorem run_fraction {fs : List Char} (h : Fraction fs) (n : Nat) (value : Option Nat) :
    ∃ part, Part.MayEnd part ∧ run ⟨ts, .number (wholePart n) value⟩ fs =
      some ⟨ts, .number part (if fs = [] then value else none)⟩ := by
  cases h with
  | absent => exact ⟨_, wholePart_mayEnd n, rfl⟩
  | given digits =>
    have hpoint : (wholePart n).next? '.' = some .point := by
      unfold wholePart
      split <;> rfl
    refine ⟨.fraction, Or.inr (Or.inr rfl), ?_⟩
    rw [run_of_step (step_number ts hpoint), numberValue_of_ne (by decide),
      if_neg (List.cons_ne_nil _ _)]
    exact run_digits ts (fun _ hc => (next?_digit hc).1) (fun _ hc => (next?_digit hc).2.1) digits

theorem run_exponent {xs : List Char} (h : Exponent xs) {part : Part} (hpart : Part.MayEnd part)
    (value : Option Nat) :
    ∃ after : Part, after.isComplete = true ∧ run ⟨ts, .number part value⟩ xs =
      some ⟨ts, .number after (if xs = [] then value else none)⟩ := by
  cases h with
  | absent =>
    refine ⟨part, ?_, rfl⟩
    rcases hpart with rfl | rfl | rfl <;> rfl
  | @given e sign ds mark hsign digits =>
    have hmark : part.next? e = some .mark := by
      rcases hpart with rfl | rfl | rfl <;> rcases mark with rfl | rfl <;> rfl
    refine ⟨.exponent, rfl, ?_⟩
    rw [List.cons_append, run_of_step (step_number ts hmark), numberValue_of_ne (by decide),
      if_neg (List.cons_ne_nil _ _)]
    have hmore : ∀ c, c.isDigit = true → Part.exponent.next? c = some .exponent :=
      fun _ hc => (next?_digit hc).2.2.2.2
    have hsigned : ∀ s, Part.mark.next? s = some .markSign →
        run ⟨ts, .number .mark none⟩ (s :: ds) = some ⟨ts, .number .exponent none⟩ := by
      intro s hs
      rw [run_of_step (step_number ts hs), numberValue_none]
      exact run_digits ts (fun _ hc => (next?_digit hc).2.2.2.1) hmore digits
    rcases hsign with rfl | rfl | rfl
    · exact run_digits ts (fun _ hc => (next?_digit hc).2.2.1) hmore digits
    · exact hsigned '+' rfl
    · exact hsigned '-' rfl

theorem run_numeral {value : Option Nat} (h : Numeral value cs) :
    ∃ part : Part, part.isComplete = true ∧
      run ⟨ts, .nothing⟩ cs = some ⟨ts, .number part value⟩ := by
  cases h with
  | @whole value n cs h =>
    refine ⟨wholePart n, ?_, run_whole ts h⟩
    unfold wholePart
    split <;> rfl
  | @fractional value n cs fs xs h fraction exponent some_part =>
    obtain ⟨part, hpart, hfraction⟩ := run_fraction ts fraction n value
    obtain ⟨after, hafter, hexponent⟩ :=
      run_exponent ts exponent hpart (if fs = [] then value else none)
    refine ⟨after, hafter, ?_⟩
    rw [List.append_assoc, run_append (run_whole ts h), run_append hfraction, hexponent]
    by_cases hx : xs = []
    · have hf : fs ≠ [] := by
        rintro rfl
        exact some_part hx
      rw [if_pos hx, if_neg hf]
    · rw [if_neg hx]

variable {ps : List Piece}

theorem run_hexCode {hs : List Char} {n missing : Nat} (h : HexCode hs n)
    (four : hs.length + missing = 4) (pos : 0 < missing) :
    run ⟨ts, .code ps 4 0⟩ hs = some ⟨ts, .code ps missing n⟩ := by
  induction h generalizing missing with
  | nil =>
    obtain rfl : missing = 4 := by simpa using four
    rfl
  | snoc before hd ih =>
    rw [List.length_append, List.length_singleton] at four
    have hmore : ¬ missing + 1 ≤ 1 := by omega
    have hbefore := @ih (missing + 1) (by omega) (by omega)
    rw [run_append hbefore, run_singleton]
    simp only [Lexer.step, hd, Option.map_some, hmore, ↓reduceIte, Nat.add_sub_cancel]

theorem run_piece {p : Piece} {l : List Char} (h : p.Written l) :
    run ⟨ts, .string ps⟩ l = some ⟨ts, .string (p :: ps)⟩ := by
  cases h with
  | @plain c visible quote backslash =>
    have hvisible : ¬ c < ' ' := Char.not_lt.mpr visible
    rw [run_singleton]
    simp only [Lexer.step, beq_iff_eq, quote, backslash, hvisible, ↓reduceIte]
  | @short c d h =>
    have hu : d ≠ 'u' := by
      rintro rfl
      cases h
    have hescape : step ⟨ts, .string ps⟩ '\\' = some ⟨ts, .escape ps⟩ := rfl
    rw [run_of_step hescape, run_singleton]
    simp only [Lexer.step, beq_iff_eq, hu, h, ↓reduceIte, Option.map_some]
  | @code n hs h four =>
    have hescape : step ⟨ts, .string ps⟩ '\\' = some ⟨ts, .escape ps⟩ := rfl
    have hcode : step ⟨ts, .escape ps⟩ 'u' = some ⟨ts, .code ps 4 0⟩ := rfl
    rw [run_of_step hescape, run_of_step hcode]
    cases h with
    | nil => cases four
    | snoc before hd =>
      rw [List.length_append, List.length_singleton] at four
      rw [run_append (run_hexCode ts before four (by decide)), run_singleton]
      simp only [Lexer.step, hd, Option.map_some, Nat.le_refl, ↓reduceIte]

theorem run_pieces (h : Pieces ps cs) :
    run ⟨ts, .string []⟩ cs = some ⟨ts, .string ps.reverse⟩ := by
  induction h with
  | nil => rfl
  | snoc before hp ih =>
    rw [run_append ih, run_piece ts hp, List.reverse_concat]

/-- The lexer has read these tokens, the last of which may be a numeral that could still go on. -/
inductive Shows : Lexer → List Token → Prop
  | settled (ts : List Token) : Shows ⟨ts, .nothing⟩ ts.reverse
  | numeral (ts : List Token) {part : Part} (value : Option Nat) (h : part.isComplete = true) :
      Shows ⟨ts, .number part value⟩ (numberToken value :: ts).reverse

theorem shows_lexeme (h : Lexeme t cs) :
    ∃ l, run ⟨ts, .nothing⟩ cs = some l ∧ l.Shows (t :: ts).reverse := by
  cases h with
  | openBrace | closeBrace | openBracket | closeBracket | colon | comma | null | true | false =>
    exact ⟨_, rfl, .settled _⟩
  | natural h =>
    obtain ⟨part, hcomplete, hrun⟩ := run_numeral ts h
    exact ⟨_, hrun, .numeral ts _ hcomplete⟩
  | number h =>
    obtain ⟨part, hcomplete, hrun⟩ := run_numeral ts h
    exact ⟨_, hrun, .numeral ts _ hcomplete⟩
  | @string text ps cs h denotes =>
    have hquote : step ⟨ts, .nothing⟩ '"' = some ⟨ts, .string []⟩ := rfl
    have htext : decode [] ps = text := by
      ext s
      rw [decode_eq_some_iff, denotes]
    refine ⟨⟨.scalar (.string text) :: ts, .nothing⟩, ?_, .settled _⟩
    rw [List.cons_append, run_of_step hquote, run_append (run_pieces ts h), run_singleton]
    simp only [Lexer.step, BEq.rfl, ↓reduceIte, List.reverse_reverse, htext]

variable {ts}

theorem next?_eq_none {part : Part} (h : part.isComplete = true) :
    ∀ c ∈ [' ', '\t', '\n', '\r', '{', '}', '[', ']', ':', ','], part.next? c = none := by
  cases part with
  | zero | whole | fraction | exponent =>
    intro c hc
    simp only [List.mem_cons, List.not_mem_nil, or_false] at hc
    rcases hc with rfl | rfl | rfl | rfl | rfl | rfl | rfl | rfl | rfl | rfl <;> rfl
  | sign | point | mark | markSign => cases h

theorem Shows.step_eq_start (h : l.Shows ts)
    (hc : c ∈ [' ', '\t', '\n', '\r', '{', '}', '[', ']', ':', ',']) :
    l.step c = start ts.reverse c := by
  cases h with
  | settled us =>
    rw [List.reverse_reverse]
    rfl
  | numeral us value hcomplete =>
    rw [List.reverse_reverse]
    simp only [Lexer.step, next?_eq_none hcomplete c hc, hcomplete, ↓reduceIte]

theorem Shows.finish (h : l.Shows ts) : l.finish? = some ts := by
  cases h with
  | settled us => rfl
  | numeral us value hcomplete => simp only [finish?, hcomplete, ↓reduceIte]

end Lexer

def Token.IsScalar : Token → Prop
  | .scalar _ => True
  | _ => False

/-- No two scalars follow each other: without a blank between them they could be taken for one. -/
def Separated (ts : List Token) : Prop := ts.IsChain fun t u => ¬ (t.IsScalar ∧ u.IsScalar)

namespace Lexer

variable {ts : List Token} {t : Token} {cs : List Char} {l : Lexer}

theorem numberToken_isScalar (value : Option Nat) : (numberToken value).IsScalar := by
  cases value <;> trivial

theorem Shows.token (h : l.Shows ts) (separated : Separated (ts ++ [t])) (ht : Lexeme t cs) :
    ∃ l', l.run cs = some l' ∧ l'.Shows (ts ++ [t]) := by
  cases h with
  | settled us =>
    rw [← List.reverse_cons]
    exact shows_lexeme us ht
  | @numeral us part value hcomplete =>
    have hshows := Shows.numeral us value hcomplete
    rw [List.reverse_cons, List.append_assoc] at separated
    have hpair := (List.isChain_append_cons_cons.mp separated).2.1
    have single : ∀ {u : Token} {c : Char},
        c ∈ [' ', '\t', '\n', '\r', '{', '}', '[', ']', ':', ','] →
        (∀ vs, start vs c = some ⟨u :: vs, .nothing⟩) →
        ∃ l', run ⟨us, .number part value⟩ [c] = some l' ∧
          l'.Shows ((numberToken value :: us).reverse ++ [u]) := by
      intro u c hc hstart
      refine ⟨⟨u :: numberToken value :: us, .nothing⟩, ?_, ?_⟩
      · rw [run_singleton, hshows.step_eq_start hc, List.reverse_reverse, hstart]
      · rw [← List.reverse_cons]
        exact .settled _
    cases ht with
    | openBrace => exact single (by decide) fun _ => rfl
    | closeBrace => exact single (by decide) fun _ => rfl
    | openBracket => exact single (by decide) fun _ => rfl
    | closeBracket => exact single (by decide) fun _ => rfl
    | colon => exact single (by decide) fun _ => rfl
    | comma => exact single (by decide) fun _ => rfl
    | null | true | false | natural | number | string =>
      exact absurd ⟨numberToken_isScalar value, trivial⟩ hpair

theorem Shows.blank (h : l.Shows ts) {c : Char} (hc : c ∈ [' ', '\t', '\n', '\r']) :
    l.step c = some ⟨ts.reverse, .nothing⟩ := by
  have hends : c ∈ [' ', '\t', '\n', '\r', '{', '}', '[', ']', ':', ','] :=
    List.mem_append_left ['{', '}', '[', ']', ':', ','] hc
  rw [h.step_eq_start hends]
  simp only [List.mem_cons, List.not_mem_nil, or_false] at hc
  rcases hc with rfl | rfl | rfl | rfl <;> rfl

theorem shows_of_lexes (h : Lexes ts cs) (separated : Separated ts) :
    ∃ l, run ⟨[], .nothing⟩ cs = some l ∧ l.Shows ts := by
  induction h with
  | nil => exact ⟨_, rfl, .settled []⟩
  | @blank ts cs c before hc ih =>
    obtain ⟨l, hrun, hl⟩ := ih separated
    refine ⟨⟨ts.reverse, .nothing⟩, ?_, ?_⟩
    · rw [run_append hrun, run_singleton, hl.blank hc]
    · have hsettled := Shows.settled ts.reverse
      rwa [List.reverse_reverse] at hsettled
  | token before ht ih =>
    obtain ⟨l, hrun, hl⟩ := ih (List.isChain_append.mp separated).1
    obtain ⟨l', hrun', hl'⟩ := hl.token separated ht
    exact ⟨l', (run_append hrun _).trans hrun', hl'⟩

end Lexer

theorem lexes_of_ofChars? {ts : List Token} {cs : List Char} (h : Token.ofChars? cs = some ts) :
    Lexes ts cs := by
  obtain ⟨l, hrun, hfinish⟩ := Option.bind_eq_some_iff.mp h
  have hreads : Lexer.Reads ⟨[], .nothing⟩ [] := Lexer.reads_of_lexes .nil
  exact (hreads.run hrun).finish hfinish

theorem ofChars?_of_lexes {ts : List Token} {cs : List Char} (h : Lexes ts cs)
    (separated : Separated ts) : Token.ofChars? cs = some ts := by
  obtain ⟨l, hrun, hl⟩ := Lexer.shows_of_lexes h separated
  rw [Token.ofChars?, hrun]
  exact hl.finish

end Sv32.Json
