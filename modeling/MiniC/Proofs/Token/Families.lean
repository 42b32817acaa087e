import MiniC.Proofs.Token.Rules
import MiniC.Proofs.Token.Spelling
/-!
What the first characters of a text decide. Main statements: the first character of a text decides which
rules can accept it, and a run of characters of one class ends in one place.
-/
namespace MiniC.Lexer

open Computability

/-! Runs. -/

/-- A text that does not go on with a class of characters. -/
def Stops (p : Char → Bool) (cs : List Char) : Prop := ∀ c, cs.head? = some c → p c = false

section Runs

variable {p : Char → Bool} {c : Char} {cs ds ds' t t' : List Char}

theorem stops_nil (p : Char → Bool) : Stops p [] := nofun

theorem stops_cons : Stops p (c :: cs) ↔ p c = false := by
  constructor
  · exact fun h => h c rfl
  · rintro h d hd
    cases hd
    exact h

theorem Stops.of_all {q : Char → Bool} (h : ∀ c ∈ cs, q c = true) (hq : ∀ c, q c = true → p c = false) :
    Stops p cs := by
  intro c hc
  exact hq c (h c (List.mem_of_mem_head? hc))

theorem exists_run (p : Char → Bool) (cs : List Char) :
    ∃ ds t, cs = ds ++ t ∧ (∀ c ∈ ds, p c = true) ∧ Stops p t := by
  refine ⟨cs.takeWhile p, cs.dropWhile p, List.takeWhile_append_dropWhile.symm,
    fun c hc => List.mem_takeWhile_imp hc, fun c hc => ?_⟩
  have hnot := List.head?_dropWhile_not p cs
  rw [hc] at hnot
  simpa using hnot

theorem runLength_eq (hds : ∀ c ∈ ds, p c = true) (ht : Stops p t) : runLength p (ds ++ t) = ds.length := by
  rw [runLength, List.takeWhile_append_of_pos hds]
  cases t with
  | nil => simp
  | cons c t => rw [List.takeWhile_cons_of_neg (by simp [stops_cons.mp ht]), List.append_nil]

/-- A run within a longer text ends with the text or with the run of the longer text. -/
theorem run_within (hds : ∀ c ∈ ds, p c = true) (ht : Stops p t) (hds' : ∀ c ∈ ds', p c = true)
    (ht' : Stops p t') (h : ds' ++ t' <+: ds ++ t) :
    (t' = [] ∧ ds'.length ≤ ds.length) ∨ (ds' = ds ∧ t' <+: t) := by
  have hfits : ds' <+: ds ++ t := (List.prefix_append ds' t').trans h
  rcases Nat.lt_or_ge ds'.length ds.length with hlt | hge
  · left
    obtain ⟨more, rfl⟩ := List.prefix_of_prefix_length_le hfits (List.prefix_append ds t) (Nat.le_of_lt hlt)
    refine ⟨?_, Nat.le_of_lt hlt⟩
    rw [List.append_assoc, List.prefix_append_right_inj] at h
    cases more with
    | nil => simp at hlt
    | cons d more =>
      have hd : p d = true := hds d (by simp)
      cases t' with
      | nil => rfl
      | cons c t' =>
        obtain rfl : c = d := (List.cons_prefix_cons.mp h).1
        rw [stops_cons.mp ht'] at hd
        cases hd
  · right
    obtain ⟨more, rfl⟩ := List.prefix_of_prefix_length_le (List.prefix_append ds t) hfits hge
    rw [List.append_assoc, List.prefix_append_right_inj] at h
    cases more with
    | nil => exact ⟨List.append_nil _, h⟩
    | cons d more =>
      have hd : p d = true := hds' d (by simp)
      have hhead : t.head? = some d := by
        obtain ⟨rest, rfl⟩ := h
        rfl
      rw [ht d hhead] at hd
      cases hd

theorem length_le_of_fits (hds : ∀ c ∈ ds, p c = true) (ht : Stops p t) (hds' : ∀ c ∈ ds', p c = true)
    (h : ds' <+: ds ++ t) : ds'.length ≤ ds.length := by
  rcases run_within hds ht hds' (stops_nil p) (by rwa [List.append_nil]) with ⟨-, hle⟩ | ⟨rfl, -⟩
  · exact hle
  · exact Nat.le_refl _

end Runs

/-! Families. -/

/-- Which rules a first character leaves. -/
inductive Family where
  | blank | word | number | character | string | other
  deriving DecidableEq, Repr

def family (c : Char) : Family :=
  if isBlank c then .blank
  else if isWordStart c then .word
  else if c.isDigit then .number
  else if c = '\x27' then .character
  else if c = '"' then .string
  else .other

def Rule.family : Rule → Family
  | blank => .blank
  | keyword _ | reserved _ | identifier => .word
  | hexadecimal | binary | octal | decimal | real => .number
  | character => .character
  | string => .string
  | lineComment | blockComment | fraction | punct _ => .other

section Families

variable {c : Char} {cs w : List Char} {R : Rule}

theorem family_of_isWordStart (h : isWordStart c = true) : family c = .word := by
  have hblank := not_isBlank h (by decide)
  simp [family, hblank, h]

theorem family_of_isDigit (h : c.isDigit = true) : family c = .number := by
  have hblank := not_isBlank h (by decide)
  simp [family, hblank, not_isWordStart_of_isDigit h, h]

theorem isDigit_of_isOctal (h : Literal.isOctal c = true) : c.isDigit = true := by
  obtain ⟨hge, hle⟩ : '0' ≤ c ∧ c ≤ '7' := by simpa [Literal.isOctal] using h
  have hlast : c.val ≤ '9'.val := UInt32.le_trans hle (by decide)
  exact Bool.and_eq_true_iff.mpr ⟨decide_eq_true hge, decide_eq_true hlast⟩

/-- The texts of keywords, like all words, are identifiers to the rule of identifiers. -/
theorem mem_identifier_of_word (hR : R.family = .word) (h : w ∈ R.language) :
    ∃ c cs, w = c :: cs ∧ isWordStart c = true ∧ ∀ d ∈ cs, isWordRest d = true := by
  have hstart {v : List Char} (hne : v ≠ []) (hall : v.all isWordStart = true) :
      ∃ c cs, v = c :: cs ∧ isWordStart c = true ∧ ∀ d ∈ cs, isWordRest d = true := by
    cases v with
    | nil => exact absurd rfl hne
    | cons c cs =>
      obtain ⟨hc, hcs⟩ := List.forall_mem_cons.mp (List.all_eq_true.mp hall)
      exact ⟨c, cs, rfl, hc, fun d hd => by simp [isWordRest, hcs d hd]⟩
  cases R with
  | keyword k =>
    obtain rfl : w = k.text.toList := h
    cases k <;> exact hstart (by decide) (by decide)
  | reserved word =>
    have hall : ∀ word ∈ reservedWords, word.toList ≠ [] ∧ word.toList.all isWordStart = true := by decide
    by_cases hword : reservedWords.contains word = true
    · rw [Rule.language, if_pos hword] at h
      obtain rfl : w = word.toList := h
      obtain ⟨hne, hstarts⟩ := hall word (by simpa using hword)
      exact hstart hne hstarts
    · rw [Rule.language, if_neg hword] at h
      exact absurd h (Language.notMem_zero w)
  | identifier =>
    obtain ⟨c, hc, cs, hcs, rfl⟩ := mem_one_mul.mp h
    exact ⟨c, cs, rfl, hc, mem_many.mp hcs⟩
  | _ => cases hR

/-- What a rule accepts is not empty, and begins as its family says. -/
theorem family_of_mem (h : w ∈ R.language) : ∃ c cs, w = c :: cs ∧ family c = R.family := by
  have hdigits {ds v : List Char} (hne : ds ≠ []) (hds : Digits ds) :
      ∃ c cs, ds ++ v = c :: cs ∧ family c = .number := by
    cases ds with
    | nil => exact absurd rfl hne
    | cons d ds => exact ⟨d, ds ++ v, rfl, family_of_isDigit (hds d List.mem_cons_self)⟩
  cases R with
  | blank =>
    obtain ⟨hne, hblank⟩ := mem_plus_one.mp h
    cases w with
    | nil => exact absurd rfl hne
    | cons c cs => exact ⟨c, cs, rfl, if_pos (hblank c List.mem_cons_self)⟩
  | keyword _ | reserved _ | identifier =>
    obtain ⟨c, cs, rfl, hc, -⟩ := mem_identifier_of_word rfl h
    exact ⟨c, cs, rfl, family_of_isWordStart hc⟩
  | lineComment =>
    obtain ⟨line, -, rfl⟩ := mem_exactly_mul.mp h
    exact ⟨_, _, rfl, by decide⟩
  | blockComment =>
    obtain ⟨body, rfl, -⟩ := mem_blockComment.mp h
    exact ⟨_, _, rfl, by decide⟩
  | hexadecimal | binary =>
    obtain ⟨x, ds, s, rfl, -⟩ := mem_marked.mp h
    exact ⟨_, _, rfl, by decide⟩
  | octal =>
    obtain ⟨ds, s, rfl, -⟩ := mem_octal.mp h
    exact ⟨_, _, rfl, by decide⟩
  | decimal =>
    obtain ⟨ds, s, rfl, hne, hds, -⟩ := mem_decimal.mp h
    exact hdigits hne hds
  | real =>
    obtain ⟨ds, fs, t, rfl, hne, hds, -⟩ := mem_real.mp h
    exact hdigits hne hds
  | fraction =>
    obtain ⟨fs, t, rfl, -⟩ := mem_fraction.mp h
    exact ⟨_, _, rfl, by decide⟩
  | character | string =>
    obtain ⟨body, -, rfl⟩ := mem_quoted.mp h
    exact ⟨_, _, rfl, by decide⟩
  | punct p =>
    obtain rfl : w = p.chars := h
    cases p <;> exact ⟨_, _, rfl, by decide⟩

theorem family_of_fits (hfits : w <+: c :: cs) (h : w ∈ R.language) : R.family = family c := by
  obtain ⟨d, ds, rfl, hd⟩ := family_of_mem h
  obtain rfl := (List.cons_prefix_cons.mp hfits).1
  exact hd.symm

end Families

end MiniC.Lexer
