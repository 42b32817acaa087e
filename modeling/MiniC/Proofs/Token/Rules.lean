import Mathlib.Computability.Language
import Mathlib.Data.List.DropRight
import MiniC.Token.Lexer
/-!
The lexical rules. Each rule accepts a language, which is written as a regular expression over classes of
characters, and reads what it accepts as blank or as a token. Main statements: what the texts of the rules
look like; a block comment is closed at its end and nowhere before, and the scanner stops at the same place.
-/

/-- A set of texts. In `MiniC` the name `Language` stands for a source language. -/
abbrev TextLanguage := Language Char

namespace MiniC.Lexer

open Computability

/-! Regular expressions. -/

/-- One character of a class. -/
def one (p : Char → Bool) : TextLanguage := {w | ∃ c, w = [c] ∧ p c = true}

/-- This text and no other. -/
def exactly (cs : List Char) : TextLanguage := {cs}

def plus (L : TextLanguage) : TextLanguage := L * L∗

def optional (L : TextLanguage) : TextLanguage := 1 + L

section Expressions

variable {p : Char → Bool} {cs w : List Char} {L : TextLanguage}

@[simp]
theorem mem_exactly : w ∈ exactly cs ↔ w = cs := Iff.rfl

@[simp]
theorem mem_optional : w ∈ optional L ↔ w = [] ∨ w ∈ L := Iff.rfl

theorem mem_one : w ∈ one p ↔ ∃ c, w = [c] ∧ p c = true := Iff.rfl

@[simp]
theorem mem_exactly_mul : w ∈ exactly cs * L ↔ ∃ v ∈ L, w = cs ++ v := by
  rw [Language.mem_mul]
  constructor
  · rintro ⟨_, rfl, v, hv, rfl⟩
    exact ⟨v, hv, rfl⟩
  · rintro ⟨v, hv, rfl⟩
    exact ⟨cs, rfl, v, hv, rfl⟩

@[simp]
theorem mem_one_mul : w ∈ one p * L ↔ ∃ c, p c = true ∧ ∃ v ∈ L, w = c :: v := by
  rw [Language.mem_mul]
  constructor
  · rintro ⟨_, ⟨c, rfl, hc⟩, v, hv, rfl⟩
    exact ⟨c, hc, v, hv, rfl⟩
  · rintro ⟨c, hc, v, hv, rfl⟩
    exact ⟨[c], ⟨c, rfl, hc⟩, v, hv, rfl⟩

@[simp]
theorem mem_many : w ∈ (one p)∗ ↔ ∀ c ∈ w, p c = true := by
  rw [Language.mem_kstar]
  constructor
  · rintro ⟨units, rfl, hunits⟩ c hc
    obtain ⟨unit, hunit, hmem⟩ := List.mem_flatten.mp hc
    obtain ⟨d, rfl, hd⟩ := hunits unit hunit
    obtain rfl := List.mem_singleton.mp hmem
    exact hd
  · intro h
    refine ⟨w.map fun c => [c], ?_, ?_⟩
    · rw [← List.flatMap_def, List.flatMap_singleton']
    · intro unit hunit
      obtain ⟨c, hc, rfl⟩ := List.mem_map.mp hunit
      exact ⟨c, rfl, h c hc⟩

@[simp]
theorem mem_plus_one : w ∈ plus (one p) ↔ w ≠ [] ∧ ∀ c ∈ w, p c = true := by
  rw [plus, mem_one_mul]
  constructor
  · rintro ⟨c, hc, v, hv, rfl⟩
    exact ⟨nofun, List.forall_mem_cons.mpr ⟨hc, mem_many.mp hv⟩⟩
  · rintro ⟨hne, hall⟩
    cases w with
    | nil => exact absurd rfl hne
    | cons c v =>
      obtain ⟨hc, hv⟩ := List.forall_mem_cons.mp hall
      exact ⟨c, hc, v, mem_many.mpr hv, rfl⟩

/-- One more unit in front. -/
theorem append_mem_kstar {v : List Char} (hw : w ∈ L) (hv : v ∈ L∗) : w ++ v ∈ L∗ := by
  rw [← Language.one_add_self_mul_kstar_eq_kstar]
  exact .inr (Language.append_mem_mul hw hv)

/-- A repetition is nothing, or a unit and a repetition. -/
theorem mem_kstar_iff : w ∈ L∗ ↔ w = [] ∨ ∃ u ∈ L, ∃ v ∈ L∗, w = u ++ v := by
  conv_lhs => rw [← Language.one_add_self_mul_kstar_eq_kstar, Language.mem_add, Language.mem_mul]
  refine or_congr Iff.rfl ?_
  constructor
  · rintro ⟨u, hu, v, hv, rfl⟩
    exact ⟨u, hu, v, hv, rfl⟩
  · rintro ⟨u, hu, v, hv, rfl⟩
    exact ⟨u, hu, v, hv, rfl⟩

end Expressions

/-! The rules. -/

def isHexMark (c : Char) : Bool := c = 'x' || c = 'X'

def isBinaryMark (c : Char) : Bool := c = 'b' || c = 'B'

def isExponentMark (c : Char) : Bool := c = 'e' || c = 'E'

def isSign (c : Char) : Bool := c = '+' || c = '-'

def isRealSuffix (c : Char) : Bool := c = 'f' || c = 'F' || c = 'l' || c = 'L'

inductive Rule where
  | blank | lineComment | blockComment
  | keyword (k : Keyword)
  | reserved (word : String)
  | identifier
  | hexadecimal | binary | octal | decimal
  | real | fraction
  | character | string
  | punct (p : Punct)
  deriving DecidableEq, Repr

/-- Characters up to some asterisks. -/
def starred : TextLanguage := (one (· != '*'))∗ * plus (one (· == '*'))

def exponent : TextLanguage :=
  one isExponentMark * (optional (one isSign) * plus (one Char.isDigit))

/-- What may follow the digits behind a decimal point. -/
def realEnd : TextLanguage := optional exponent * optional (one isRealSuffix)

/-- What may stand between quotes: characters other than the quote, and backslashes with a character of the
same line. -/
def quotable (quote : Char) : TextLanguage :=
  (one (fun c => c != quote && c != '\\') + exactly ['\\'] * one (· != '\n'))∗

def suffixes : TextLanguage := (one Literal.isSuffix)∗

/-- A number whose radix shows in a mark behind its first zero. -/
def marked (mark digit : Char → Bool) : TextLanguage :=
  exactly ['0'] * (one mark * (plus (one digit) * suffixes))

namespace Rule

def language : Rule → TextLanguage
  | blank => plus (one isBlank)
  | lineComment => exactly ['/', '/'] * (one (· != '\n'))∗
  | blockComment => exactly ['/', '*'] *
      (starred * ((one (fun c => c != '/' && c != '*') * starred)∗ * exactly ['/']))
  | keyword k => exactly k.text.toList
  | reserved word => if reservedWords.contains word then exactly word.toList else 0
  | identifier => one isWordStart * (one isWordRest)∗
  | hexadecimal => marked isHexMark Literal.isHex
  | binary => marked isBinaryMark Literal.isBinary
  | octal => exactly ['0'] * (plus (one Literal.isOctal) * suffixes)
  | decimal => plus (one Char.isDigit) * suffixes
  | real => plus (one Char.isDigit) * (exactly ['.'] * ((one Char.isDigit)∗ * realEnd))
  | fraction => exactly ['.'] * (plus (one Char.isDigit) * realEnd)
  | character => exactly ['\x27'] * (quotable '\x27' * exactly ['\x27'])
  | string => exactly ['"'] * (quotable '"' * exactly ['"'])
  | punct p => exactly p.chars

/-- The number before the suffixes, behind a number of characters that only say the radix. -/
def number (radix marks : Nat) (w : List Char) : Option (Except Unit TokenKind) :=
  (Lexeme.valued ((Literal.word? (Literal.ofDigits radix
    ((w.rdropWhile Literal.isSuffix).drop marks))).map .integer) 0).reading

def between (value : List Char → Option TokenKind) (w : List Char) : Option (Except Unit TokenKind) :=
  (Lexeme.valued (value w.tail.dropLast) 0).reading

/-- What a text means to the rule that accepts it. -/
def reading : Rule → List Char → Option (Except Unit TokenKind)
  | blank, _ | lineComment, _ | blockComment, _ => none
  | keyword k, _ => some (.ok (.keyword k))
  | reserved word, _ => some (.ok (.reserved word))
  | identifier, w => some (.ok (.identifier (String.ofList w)))
  | hexadecimal, w => number 16 2 w
  | binary, w => number 2 2 w
  | octal, w => number 8 1 w
  | decimal, w => number 10 0 w
  | real, w | fraction, w => some (.ok (.real (String.ofList w)))
  | character, w => between (fun body => (Literal.character? body).map .character) w
  | string, w => between (fun body => (Literal.string? body).map .string) w
  | punct p, _ => some (.ok (.punct p))

/-- Of two rules that accept the same text, the one that counts. -/
def outranks : Rule → Rule → Bool
  | keyword _, identifier | reserved _, identifier | octal, decimal => true
  | _, _ => false

end Rule

/-! What the texts look like. -/

section Texts

variable {w : List Char} {quote : Char}

def Digits (w : List Char) : Prop := ∀ c ∈ w, c.isDigit = true

theorem mem_marked {mark digit : Char → Bool} : w ∈ marked mark digit ↔
    ∃ x ds s, w = '0' :: x :: (ds ++ s) ∧ mark x = true ∧ ds ≠ [] ∧ (∀ c ∈ ds, digit c = true) ∧
      ∀ c ∈ s, Literal.isSuffix c = true := by
  simp only [marked, mem_exactly_mul, mem_one_mul]
  simp only [Language.mem_mul, mem_plus_one, suffixes, mem_many]
  constructor
  · rintro ⟨_, ⟨x, hx, _, ⟨ds, ⟨hne, hds⟩, s, hs, rfl⟩, rfl⟩, rfl⟩
    exact ⟨x, ds, s, rfl, hx, hne, hds, hs⟩
  · rintro ⟨x, ds, s, rfl, hx, hne, hds, hs⟩
    exact ⟨_, ⟨x, hx, _, ⟨ds, ⟨hne, hds⟩, s, hs, rfl⟩, rfl⟩, rfl⟩

theorem mem_octal : w ∈ Rule.octal.language ↔
    ∃ ds s, w = '0' :: (ds ++ s) ∧ ds ≠ [] ∧ (∀ c ∈ ds, Literal.isOctal c = true) ∧
      ∀ c ∈ s, Literal.isSuffix c = true := by
  simp only [Rule.language, mem_exactly_mul]
  simp only [Language.mem_mul, mem_plus_one, suffixes, mem_many]
  constructor
  · rintro ⟨_, ⟨ds, ⟨hne, hds⟩, s, hs, rfl⟩, rfl⟩
    exact ⟨ds, s, rfl, hne, hds, hs⟩
  · rintro ⟨ds, s, rfl, hne, hds, hs⟩
    exact ⟨_, ⟨ds, ⟨hne, hds⟩, s, hs, rfl⟩, rfl⟩

theorem mem_decimal : w ∈ Rule.decimal.language ↔
    ∃ ds s, w = ds ++ s ∧ ds ≠ [] ∧ Digits ds ∧ ∀ c ∈ s, Literal.isSuffix c = true := by
  simp only [Rule.language, Language.mem_mul, mem_plus_one, suffixes, mem_many]
  constructor
  · rintro ⟨ds, ⟨hne, hds⟩, s, hs, rfl⟩
    exact ⟨ds, s, rfl, hne, hds, hs⟩
  · rintro ⟨ds, s, rfl, hne, hds, hs⟩
    exact ⟨ds, ⟨hne, hds⟩, s, hs, rfl⟩

theorem mem_real : w ∈ Rule.real.language ↔
    ∃ ds fs t, w = ds ++ '.' :: (fs ++ t) ∧ ds ≠ [] ∧ Digits ds ∧ Digits fs ∧ t ∈ realEnd := by
  simp only [Rule.language, mem_exactly_mul, Language.mem_mul (l := plus _), Language.mem_mul (l := _∗),
    mem_plus_one, mem_many]
  constructor
  · rintro ⟨ds, ⟨hne, hds⟩, _, ⟨_, ⟨fs, hfs, t, ht, rfl⟩, rfl⟩, rfl⟩
    exact ⟨ds, fs, t, rfl, hne, hds, hfs, ht⟩
  · rintro ⟨ds, fs, t, rfl, hne, hds, hfs, ht⟩
    exact ⟨ds, ⟨hne, hds⟩, _, ⟨_, ⟨fs, hfs, t, ht, rfl⟩, rfl⟩, rfl⟩

theorem mem_fraction : w ∈ Rule.fraction.language ↔
    ∃ fs t, w = '.' :: (fs ++ t) ∧ fs ≠ [] ∧ Digits fs ∧ t ∈ realEnd := by
  simp only [Rule.language, mem_exactly_mul]
  simp only [Language.mem_mul, mem_plus_one]
  constructor
  · rintro ⟨_, ⟨fs, ⟨hne, hfs⟩, t, ht, rfl⟩, rfl⟩
    exact ⟨fs, t, rfl, hne, hfs, ht⟩
  · rintro ⟨fs, t, rfl, hne, hfs, ht⟩
    exact ⟨_, ⟨fs, ⟨hne, hfs⟩, t, ht, rfl⟩, rfl⟩

theorem mem_exponent : w ∈ exponent ↔
    ∃ e sign ds, w = e :: (sign ++ ds) ∧ isExponentMark e = true ∧
      (sign = [] ∨ ∃ c, sign = [c] ∧ isSign c = true) ∧ ds ≠ [] ∧ Digits ds := by
  simp only [exponent, mem_one_mul]
  simp only [Language.mem_mul, mem_optional, mem_plus_one, mem_one]
  constructor
  · rintro ⟨e, he, _, ⟨sign, hsign, ds, ⟨hne, hds⟩, rfl⟩, rfl⟩
    exact ⟨e, sign, ds, rfl, he, hsign, hne, hds⟩
  · rintro ⟨e, sign, ds, rfl, he, hsign, hne, hds⟩
    exact ⟨e, he, _, ⟨sign, hsign, ds, ⟨hne, hds⟩, rfl⟩, rfl⟩

theorem mem_quoted : w ∈ exactly [quote] * (quotable quote * exactly [quote]) ↔
    ∃ body ∈ quotable quote, w = quote :: (body ++ [quote]) := by
  simp only [mem_exactly_mul]
  simp only [Language.mem_mul, mem_exactly]
  constructor
  · rintro ⟨_, ⟨body, hbody, _, rfl, rfl⟩, rfl⟩
    exact ⟨body, hbody, rfl⟩
  · rintro ⟨body, hbody, rfl⟩
    exact ⟨_, ⟨body, hbody, _, rfl, rfl⟩, rfl⟩

end Texts

open Computability

/-- Nothing closes a comment here. -/
def Unclosed (cs : List Char) : Prop := ¬ ['*', '/'] <:+: cs

section Unclosed

variable {c : Char} {cs ds : List Char}

theorem unclosed_nil : Unclosed [] := by
  intro h
  cases List.eq_nil_of_infix_nil h

theorem unclosed_cons : Unclosed (c :: cs) ↔ ¬ (c = '*' ∧ cs.head? = some '/') ∧ Unclosed cs := by
  unfold Unclosed
  rw [List.infix_cons_iff, not_or]
  refine and_congr_left fun _ => not_congr ?_
  rw [List.cons_prefix_cons]
  cases cs with
  | nil => simp
  | cons d cs => simp [List.cons_prefix_cons, eq_comm]

theorem unclosed_append (hcs : Unclosed cs) (hds : Unclosed ds) (hne : ds.head? ≠ some '/') :
    Unclosed (cs ++ ds) := by
  induction cs with
  | nil => exact hds
  | cons c cs ih =>
    obtain ⟨hc, hcs⟩ := unclosed_cons.mp hcs
    rw [List.cons_append, unclosed_cons]
    refine ⟨?_, ih hcs⟩
    rintro ⟨rfl, hhead⟩
    cases cs with
    | nil => exact hne hhead
    | cons d cs => exact hc ⟨rfl, hhead⟩

theorem unclosed_of_notMem (h : '/' ∉ cs) : Unclosed cs := by
  intro hinside
  exact h (hinside.subset (by simp))

end Unclosed

/-! The regular expression. -/

/-- A group behind the first asterisks: a character that does not close the comment, and characters up to
the next asterisks. -/
def group : TextLanguage := one (fun c => c != '/' && c != '*') * starred

section Groups

variable {u v w : List Char}

theorem mem_starred : u ∈ starred ↔ ∃ xs ss, u = xs ++ ss ∧ (∀ c ∈ xs, c ≠ '*') ∧ ss ≠ [] ∧ ∀ c ∈ ss, c = '*' := by
  rw [starred, Language.mem_mul]
  simp only [mem_many, mem_plus_one, bne_iff_ne, beq_iff_eq]
  constructor
  · rintro ⟨xs, hxs, ss, ⟨hne, hss⟩, rfl⟩
    exact ⟨xs, ss, rfl, hxs, hne, hss⟩
  · rintro ⟨xs, ss, rfl, hxs, hne, hss⟩
    exact ⟨xs, hxs, ss, ⟨hne, hss⟩, rfl⟩

theorem unclosed_of_starred (h : u ∈ starred) : Unclosed u ∧ u.getLast? = some '*' := by
  obtain ⟨xs, ss, rfl, hxs, hne, hss⟩ := mem_starred.mp h
  have hlast : ss.getLast hne = '*' := hss _ (List.getLast_mem hne)
  constructor
  · have hstars : Unclosed ss := unclosed_of_notMem fun hmem => absurd (hss _ hmem) (by decide)
    induction xs with
    | nil => exact hstars
    | cons x xs ih =>
      obtain ⟨hx, hxs⟩ := List.forall_mem_cons.mp hxs
      rw [List.cons_append, unclosed_cons]
      exact ⟨fun heq => hx heq.1, ih (mem_starred.mpr ⟨xs, ss, rfl, hxs, hne, hss⟩) hxs⟩
  · rw [List.getLast?_append, List.getLast?_eq_some_getLast hne, hlast]
    rfl

theorem unclosed_of_group (h : u ∈ group) : Unclosed u ∧ u.getLast? = some '*' ∧ u.head? ≠ some '/' := by
  obtain ⟨c, hc, v, hv, rfl⟩ := mem_one_mul.mp h
  obtain ⟨hslash, hstar⟩ : c ≠ '/' ∧ c ≠ '*' := by simpa using hc
  obtain ⟨hunclosed, hlast⟩ := unclosed_of_starred hv
  refine ⟨unclosed_cons.mpr ⟨fun heq => hstar heq.1, hunclosed⟩, ?_, ?_⟩
  · rw [List.getLast?_cons, hlast]
    rfl
  · simpa using hslash

/-- By induction on the groups. -/
theorem unclosed_of_groups (h : v ∈ group∗) :
    Unclosed v ∧ v.head? ≠ some '/' ∧ (v = [] ∨ v.getLast? = some '*') := by
  obtain ⟨groups, rfl, hgroups⟩ := Language.mem_kstar.mp h
  clear h
  induction groups with
  | nil => exact ⟨unclosed_nil, nofun, .inl rfl⟩
  | cons g groups ih =>
    obtain ⟨hg, hrest⟩ := List.forall_mem_cons.mp hgroups
    obtain ⟨hunclosed, hlast, hhead⟩ := unclosed_of_group hg
    obtain ⟨hunclosed', hhead', hlast'⟩ := ih hrest
    have hne : g ≠ [] := by
      rintro rfl
      cases hlast
    rw [List.flatten_cons]
    refine ⟨unclosed_append hunclosed hunclosed' hhead', ?_, .inr ?_⟩
    · rwa [List.head?_append_of_ne_nil _ hne]
    · rcases hlast' with hnil | hlast'
      · rw [hnil, List.append_nil, hlast]
      · rw [List.getLast?_append, hlast']
        rfl

theorem cons_mem_starred {c : Char} (hc : c ≠ '*') (h : u ∈ starred * group∗) : c :: u ∈ starred * group∗ := by
  obtain ⟨x, hx, v, hv, rfl⟩ := Language.mem_mul.mp h
  obtain ⟨xs, ss, rfl, hxs, hne, hss⟩ := mem_starred.mp hx
  have hcons : c :: xs ++ ss ∈ starred :=
    mem_starred.mpr ⟨c :: xs, ss, rfl, List.forall_mem_cons.mpr ⟨hc, hxs⟩, hne, hss⟩
  exact Language.append_mem_mul hcons hv

/-- By induction on the text, which is read either before the first asterisk or behind one. -/
theorem mem_groups_of_unclosed (u : List Char) :
    (Unclosed u → u.getLast? = some '*' → u ∈ starred * group∗) ∧
    (Unclosed ('*' :: u) → (u = [] ∨ u.getLast? = some '*') →
      ∃ ss v, u = ss ++ v ∧ (∀ c ∈ ss, c = '*') ∧ v ∈ group∗) := by
  induction u with
  | nil => exact ⟨nofun, fun _ _ => ⟨[], [], rfl, List.forall_mem_nil _, Language.nil_mem_kstar _⟩⟩
  | cons c u ih =>
    obtain ⟨ihbefore, ihbehind⟩ := ih
    have hrest (h : (c :: u).getLast? = some '*') (hc : c ≠ '*') : u.getLast? = some '*' := by
      cases u with
      | nil => exact absurd (by simpa using h) hc
      | cons d u => rwa [List.getLast?_cons_cons] at h
    have hrest' (h : (c :: u).getLast? = some '*') : u = [] ∨ u.getLast? = some '*' := by
      cases u with
      | nil => exact .inl rfl
      | cons d u => exact .inr (by rwa [List.getLast?_cons_cons] at h)
    constructor
    · intro hunclosed hlast
      by_cases hc : c = '*'
      · subst hc
        obtain ⟨ss, v, rfl, hss, hv⟩ := ihbehind hunclosed (hrest' hlast)
        have hstars : '*' :: ss ∈ starred :=
          mem_starred.mpr ⟨[], '*' :: ss, rfl, List.forall_mem_nil _, nofun,
            List.forall_mem_cons.mpr ⟨rfl, hss⟩⟩
        exact Language.append_mem_mul hstars hv
      · exact cons_mem_starred hc (ihbefore (unclosed_cons.mp hunclosed).2 (hrest hlast hc))
    · intro hunclosed hlast
      obtain ⟨hfirst, hunclosed⟩ := unclosed_cons.mp hunclosed
      have hlast : (c :: u).getLast? = some '*' := hlast.resolve_left nofun
      by_cases hc : c = '*'
      · subst hc
        obtain ⟨ss, v, rfl, hss, hv⟩ := ihbehind hunclosed (hrest' hlast)
        exact ⟨'*' :: ss, v, rfl, List.forall_mem_cons.mpr ⟨rfl, hss⟩, hv⟩
      · have hslash : c ≠ '/' := fun heq => hfirst ⟨rfl, congrArg some heq⟩
        have hgroups := ihbefore (unclosed_cons.mp hunclosed).2 (hrest hlast hc)
        obtain ⟨x, hx, v, hv, rfl⟩ := Language.mem_mul.mp hgroups
        have hgroup : c :: x ∈ group := mem_one_mul.mpr ⟨c, by simp [hslash, hc], x, hx, rfl⟩
        exact ⟨[], c :: (x ++ v), rfl, List.forall_mem_nil _, append_mem_kstar hgroup hv⟩

theorem mem_groups_iff : u ∈ starred * group∗ ↔ Unclosed u ∧ u.getLast? = some '*' := by
  constructor
  · intro h
    obtain ⟨x, hx, v, hv, rfl⟩ := Language.mem_mul.mp h
    obtain ⟨hunclosed, hlast⟩ := unclosed_of_starred hx
    obtain ⟨hunclosed', hhead, hlast'⟩ := unclosed_of_groups hv
    refine ⟨unclosed_append hunclosed hunclosed' hhead, ?_⟩
    rcases hlast' with rfl | hlast'
    · rw [List.append_nil, hlast]
    · rw [List.getLast?_append, hlast']
      rfl
  · rintro ⟨hunclosed, hlast⟩
    exact (mem_groups_of_unclosed u).1 hunclosed hlast

/-- A block comment is closed at its end and, once it is open, nowhere before. -/
theorem mem_blockComment : w ∈ Rule.blockComment.language ↔
    ∃ body, w = '/' :: '*' :: (body ++ ['*', '/']) ∧ Unclosed (body ++ ['*']) := by
  have hlanguage : Rule.blockComment.language =
      exactly ['/', '*'] * ((starred * group∗) * exactly ['/']) := by
    rw [mul_assoc]
    rfl
  rw [hlanguage, mem_exactly_mul]
  simp only [Language.mem_mul (m := exactly _), mem_exactly, mem_groups_iff, List.getLast?_eq_some_iff]
  constructor
  · rintro ⟨_, ⟨_, ⟨hunclosed, body, rfl⟩, _, rfl, rfl⟩, rfl⟩
    exact ⟨body, by simp, hunclosed⟩
  · rintro ⟨body, rfl, hunclosed⟩
    exact ⟨_, ⟨_, ⟨hunclosed, body, rfl⟩, _, rfl, rfl⟩, by simp⟩

end Groups

/-! The scanner. -/

section Scanner

variable {cs : List Char} {n : Nat}

theorem commentRest?_append {body : List Char} (h : Unclosed (body ++ ['*'])) (more : List Char) :
    commentRest? (body ++ '*' :: '/' :: more) = some (body.length + 2) := by
  induction body with
  | nil => rfl
  | cons c body ih =>
    obtain ⟨hc, hbody⟩ := unclosed_cons.mp h
    have hopen : ∀ rest, c = '*' → body ++ '*' :: '/' :: more = '/' :: rest → False := by
      rintro rest rfl heq
      apply hc
      refine ⟨rfl, ?_⟩
      cases body with
      | nil => exact absurd (List.cons.inj heq).1 (by decide)
      | cons d body =>
        rw [(List.cons.inj heq).1]
        rfl
    rw [List.cons_append, commentRest?.eq_2 _ _ hopen, ih hbody]
    rfl

theorem exists_of_commentRest? (h : commentRest? cs = some n) :
    ∃ body more, cs = body ++ '*' :: '/' :: more ∧ n = body.length + 2 ∧ Unclosed (body ++ ['*']) := by
  fun_induction commentRest? cs generalizing n with
  | case1 more =>
    cases h
    exact ⟨[], more, rfl, rfl, unclosed_of_notMem (by simp)⟩
  | case2 c rest hopen ih =>
    obtain ⟨k, hk, rfl⟩ := Option.map_eq_some_iff.mp h
    obtain ⟨body, more, rfl, rfl, hbody⟩ := ih hk
    refine ⟨c :: body, more, rfl, rfl, unclosed_cons.mpr ⟨?_, hbody⟩⟩
    rintro ⟨rfl, hhead⟩
    cases body with
    | nil => cases hhead
    | cons d body =>
      obtain rfl : d = '/' := by simpa using hhead
      exact hopen _ rfl rfl
  | case3 => cases h

theorem unclosed_of_commentRest? (h : commentRest? cs = none) : Unclosed cs := by
  fun_induction commentRest? cs with
  | case1 more => cases h
  | case2 c rest hopen ih =>
    refine unclosed_cons.mpr ⟨?_, ih (Option.map_eq_none_iff.mp h)⟩
    rintro ⟨rfl, hhead⟩
    obtain ⟨more, rfl⟩ := List.head?_eq_some_iff.mp hhead
    exact hopen more rfl rfl
  | case3 => exact unclosed_nil

end Scanner

end MiniC.Lexer
