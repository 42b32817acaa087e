import MiniC.Proofs.Token.Reals
/-!
Integers. Main statement: a lexeme that starts with a digit is the longest number there, and the rule that
counts gives its value.
-/
namespace MiniC.Lexer

open Computability Literal

section Integers

variable {x : Char} {cs w ds s t more : List Char} {mark digit : Char → Bool} {R : Rule}

theorem not_isHex_of_isSuffix {c : Char} (h : isSuffix c = true) : isHex c = false := by
  obtain rfl | rfl | rfl | rfl : c = 'u' ∨ c = 'U' ∨ c = 'l' ∨ c = 'L' := by
    simpa [isSuffix, or_assoc] using h
  all_goals decide

theorem not_isDigit_of_isSuffix {c : Char} (h : isSuffix c = true) : c.isDigit = false := by
  have hhex := not_isHex_of_isSuffix h
  simp only [isHex, Bool.or_eq_false_iff] at hhex
  exact hhex.1.1

theorem not_isSuffix_of_isHex {c : Char} (h : isHex c = true) : isSuffix c = false := by
  by_contra hsuffix
  rw [not_isHex_of_isSuffix (by simpa using hsuffix)] at h
  cases h

theorem not_isSuffix_of_isDigit {c : Char} (h : c.isDigit = true) : isSuffix c = false := by
  by_contra hsuffix
  rw [not_isDigit_of_isSuffix (by simpa using hsuffix)] at h
  cases h

theorem rdropWhile_append {p : Char → Bool} (hs : ∀ c ∈ s, p c = true)
    (hds : ∀ c ∈ ds, p c = false) : (ds ++ s).rdropWhile p = ds := by
  have hrun : (s.reverse ++ ds.reverse).dropWhile p = ds.reverse := by
    rw [List.dropWhile_append_of_pos fun c hc => hs c (List.mem_reverse.mp hc)]
    cases hreverse : ds.reverse with
    | nil => rfl
    | cons c v =>
      have hc : c ∈ ds := List.mem_reverse.mp (hreverse ▸ List.mem_cons_self)
      rw [List.dropWhile_cons_of_neg (by simp [hds c hc])]
  rw [List.rdropWhile, List.reverse_append, hrun, List.reverse_reverse]

/-- The suffixes do not count. -/
theorem number_append {radix marks : Nat} {front : List Char} (hfront : ∀ c ∈ front, isSuffix c = false)
    (hs : ∀ c ∈ s, isSuffix c = true) : Rule.number radix marks (front ++ s) =
      (Lexeme.valued ((word? (ofDigits radix (front.drop marks))).map .integer) 0).reading := by
  rw [Rule.number, rdropWhile_append hs hfront]

theorem valued_eq (kind : Option TokenKind) (extra : Nat) :
    Lexeme.valued kind extra = ⟨(Lexeme.valued kind 0).reading, extra⟩ := by
  cases kind <;> rfl

/-- A number that begins with a digit but has no point. -/
theorem number_of_length {d : Char} (hpoint : (d :: cs).drop (runLength Char.isDigit (d :: cs)) = t)
    (ht : Stops (· == '.') t) (hcs : d :: cs = ds ++ (s ++ more))
    (hlength : integerLength (d :: cs) = ds.length)
    (hs : ∀ c ∈ s, isSuffix c = true) (hstops : Stops isSuffix more) :
    number d cs = .valued ((integer? ds).map .integer) ((ds ++ s).length - 1) := by
  unfold number
  simp only [hpoint]
  split
  · have hdot := stops_cons.mp ht
    exact absurd hdot (by decide)
  · rw [hlength, hcs, List.drop_left, List.take_left, runLength_eq hs hstops, List.length_append]

/-! A radix in a mark. -/

theorem mark_cases (hx : isHexMark x = true ∨ isBinaryMark x = true) :
    x.isDigit = false ∧ isSuffix x = false ∧ x ≠ '.' := by
  rcases hx with hx | hx
  · rcases isHexMark_iff.mp hx with rfl | rfl <;> decide
  · rcases isBinaryMark_iff.mp hx with rfl | rfl <;> decide

theorem marked_cases (hx : isHexMark x = true ∨ isBinaryMark x = true) (hfits : w <+: '0' :: x :: cs)
    (h : w ∈ R.language) : (R = .hexadecimal ∧ isHexMark x = true) ∨
      (R = .binary ∧ isBinaryMark x = true) ∨ w.length ≤ 1 := by
  obtain ⟨hdigit, hsuffix, hdot⟩ := mark_cases hx
  have hfamily : R.family = .number := family_of_fits hfits h
  have hzero : Digits ['0'] := List.forall_mem_singleton.mpr (by decide)
  have hstops : Stops Char.isDigit (x :: cs) := stops_cons.mpr hdigit
  have hdecimal (h : w ∈ Rule.decimal.language) : w.length ≤ 1 := by
    obtain ⟨ds, s, rfl, -, hds, hs⟩ := mem_decimal.mp h
    rcases run_within hzero hstops hds (.of_all hs fun c => not_isDigit_of_isSuffix) hfits with
      ⟨rfl, hle⟩ | ⟨rfl, hrest⟩
    · rwa [List.append_nil]
    · cases s with
      | nil => exact Nat.le_refl _
      | cons c s =>
        obtain rfl := (List.cons_prefix_cons.mp hrest).1
        rw [hs c List.mem_cons_self] at hsuffix
        cases hsuffix
  cases R with
  | hexadecimal =>
    obtain ⟨x', ds, s, rfl, hx', -⟩ := mem_marked.mp h
    obtain rfl := (List.cons_prefix_cons.mp (List.cons_prefix_cons.mp hfits).2).1
    exact .inl ⟨rfl, hx'⟩
  | binary =>
    obtain ⟨x', ds, s, rfl, hx', -⟩ := mem_marked.mp h
    obtain rfl := (List.cons_prefix_cons.mp (List.cons_prefix_cons.mp hfits).2).1
    exact .inr (.inl ⟨rfl, hx'⟩)
  | octal => exact .inr (.inr (hdecimal (mem_decimal_of_octal h)))
  | decimal => exact .inr (.inr (hdecimal h))
  | real =>
    obtain ⟨ds, fs, e, rfl, -, hds, -⟩ := mem_real.mp h
    rcases run_within hzero hstops hds (stops_cons.mpr (by decide)) hfits with ⟨hnil, -⟩ | ⟨-, hrest⟩
    · cases hnil
    · exact absurd (List.cons_prefix_cons.mp hrest).1.symm hdot
  | _ => cases hfamily

theorem munch_marked (hR : R.language = marked mark digit) (hx : mark x = true)
    (hmark : isHexMark x = true ∨ isBinaryMark x = true)
    (honly : ∀ R' : Rule, (R' = .hexadecimal ∧ isHexMark x = true) ∨ (R' = .binary ∧ isBinaryMark x = true) →
      R' = R)
    (hsuffix : ∀ c, isSuffix c = true → digit c = false) (hds : ∀ c ∈ ds, digit c = true) (hne : ds ≠ [])
    (hstops : Stops digit (s ++ more)) (hs : ∀ c ∈ s, isSuffix c = true) (hmore : Stops isSuffix more) :
    Munch ('0' :: x :: (ds ++ s)) more R := by
  refine ⟨?_, fun R' hR' => ?_, fun w' R' hfits hR' => ?_⟩
  · rw [hR]
    exact mem_marked.mpr ⟨x, ds, s, rfl, hx, hne, hds, hs⟩
  · rcases marked_cases hmark (List.prefix_refl _) hR' with h | h | h
    · exact .inl (honly R' (.inl h))
    · exact .inl (honly R' (.inr h))
    · simp at h
  · have hshort (h : w'.length ≤ 1) : w'.length ≤ ('0' :: x :: (ds ++ s)).length := by
      simp only [List.length_cons]
      omega
    have hlong (h : R' = R) : w'.length ≤ ('0' :: x :: (ds ++ s)).length := by
      subst h
      rw [hR] at hR'
      obtain ⟨x', ds', s', rfl, -, -, hds', hs'⟩ := mem_marked.mp hR'
      have hrest := (List.cons_prefix_cons.mp (List.cons_prefix_cons.mp hfits).2).2
      rw [List.append_eq, List.append_assoc] at hrest
      simp only [List.length_cons, List.length_append]
      rcases run_within hds hstops hds' (.of_all hs' hsuffix) hrest with ⟨rfl, hle⟩ | ⟨rfl, htail⟩
      · simp only [List.length_nil]
        omega
      · have hle := length_le_of_fits hs hmore hs' htail
        omega
    rcases marked_cases hmark hfits hR' with h | h | h
    · exact hlong (honly R' (.inl h))
    · exact hlong (honly R' (.inr h))
    · exact hshort h

theorem marked_or_not (mark digit : Char → Bool) (cs : List Char) :
    (∃ x ds t, cs = '0' :: x :: (ds ++ t) ∧ mark x = true ∧ ds ≠ [] ∧ (∀ c ∈ ds, digit c = true) ∧
      Stops digit t) ∨ ∀ w, w <+: cs → w ∉ marked mark digit := by
  by_cases h : ∃ w, w <+: cs ∧ w ∈ marked mark digit
  · left
    obtain ⟨w, ⟨more, rfl⟩, hw⟩ := h
    obtain ⟨x, ds', s, rfl, hx, hne, hds', -⟩ := mem_marked.mp hw
    obtain ⟨ds, t, heq, hds, ht⟩ := exists_run digit (ds' ++ (s ++ more))
    refine ⟨x, ds, t, by simp [← heq], hx, ?_, hds, ht⟩
    rintro rfl
    obtain ⟨d, ds', rfl⟩ := List.exists_cons_of_ne_nil hne
    have hd := ht d (by rw [List.nil_append] at heq; rw [← heq]; rfl)
    rw [hds' d List.mem_cons_self] at hd
    cases hd
  · right
    exact fun w hfits hw => h ⟨w, hfits, hw⟩

theorem mem_marked_of_length {mark digit : Char → Bool} {rest : List Char} (hx : mark x = true)
    (h : runLength digit rest ≠ 0) : ∃ w, w <+: '0' :: x :: rest ∧ w ∈ marked mark digit := by
  refine ⟨'0' :: x :: rest.takeWhile digit, ?_, ?_⟩
  · rw [List.cons_prefix_cons, List.cons_prefix_cons]
    exact ⟨rfl, rfl, List.takeWhile_prefix _⟩
  · refine mem_marked.mpr ⟨x, rest.takeWhile digit, [], by simp, hx, ?_, ?_, List.forall_mem_nil _⟩
    · intro hnil
      exact h (by rw [runLength, hnil]; rfl)
    · exact fun c hc => List.mem_takeWhile_imp hc

/-- Without a mark only the digits count. -/
theorem integerLength_of_unmarked (hhex : ∀ w, w <+: cs → w ∉ Rule.hexadecimal.language)
    (hbinary : ∀ w, w <+: cs → w ∉ Rule.binary.language) : integerLength cs = runLength Char.isDigit cs := by
  unfold integerLength
  split
  · rename_i x rest
    have hn : (if (decide (x = 'x') || decide (x = 'X')) = true then runLength isHex rest
        else if (decide (x = 'b') || decide (x = 'B')) = true then runLength isBinary rest else 0) = 0 := by
      by_contra hne
      split_ifs at hne with hx hb
      · have hmark : isHexMark x = true := hx
        obtain ⟨w, hfits, hw⟩ := mem_marked_of_length hmark hne
        exact hhex w hfits hw
      · have hmark : isBinaryMark x = true := hb
        obtain ⟨w, hfits, hw⟩ := mem_marked_of_length hmark hne
        exact hbinary w hfits hw
      · exact hne rfl
    exact if_pos hn
  · rfl

theorem integerLength_hexadecimal (hx : isHexMark x = true) (hne : ds ≠ []) (hds : ∀ c ∈ ds, isHex c = true)
    (ht : Stops isHex t) : integerLength ('0' :: x :: (ds ++ t)) = ds.length + 2 := by
  have hx : (decide (x = 'x') || decide (x = 'X')) = true := hx
  have hpos : ds.length ≠ 0 := fun hzero => hne (List.length_eq_zero_iff.mp hzero)
  unfold integerLength
  simp only [if_pos hx, runLength_eq hds ht]
  exact if_neg hpos

theorem integerLength_binary (hx : isBinaryMark x = true) (hne : ds ≠ []) (hds : ∀ c ∈ ds, isBinary c = true)
    (ht : Stops isBinary t) : integerLength ('0' :: x :: (ds ++ t)) = ds.length + 2 := by
  have hx' : ¬ (decide (x = 'x') || decide (x = 'X')) = true := by
    rcases isBinaryMark_iff.mp hx with rfl | rfl <;> decide
  have hx : (decide (x = 'b') || decide (x = 'B')) = true := hx
  have hpos : ds.length ≠ 0 := fun hzero => hne (List.length_eq_zero_iff.mp hzero)
  unfold integerLength
  simp only [if_neg hx', if_pos hx, runLength_eq hds ht]
  exact if_neg hpos

theorem number_marked {radix : Nat} (hmark : isHexMark x = true ∨ isBinaryMark x = true)
    (hdigit : ∀ c ∈ ds, isSuffix c = false) (hs : ∀ c ∈ s, isSuffix c = true) :
    Rule.number radix 2 ('0' :: x :: (ds ++ s)) =
      (Lexeme.valued ((word? (ofDigits radix ds)).map .integer) 0).reading := by
  have hall : ∀ c ∈ '0' :: x :: ds, isSuffix c = false := by
    rw [List.forall_mem_cons, List.forall_mem_cons]
    exact ⟨by decide, (mark_cases hmark).2.1, hdigit⟩
  have hnumber : Rule.number radix 2 (('0' :: x :: ds) ++ s) =
      (Lexeme.valued ((word? (ofDigits radix ds)).map .integer) 0).reading := number_append hall hs
  exact hnumber

theorem scans_marked {radix : Nat} (hlength : integerLength ('0' :: x :: (ds ++ (s ++ more))) = ds.length + 2)
    (hmark : isHexMark x = true ∨ isBinaryMark x = true)
    (hmunch : Munch ('0' :: x :: (ds ++ s)) more R) (hreading : ∀ w, R.reading w = Rule.number radix 2 w)
    (hvalue : integer? ('0' :: x :: ds) = word? (ofDigits radix ds))
    (hdigit : ∀ c ∈ ds, isSuffix c = false) (hs : ∀ c ∈ s, isSuffix c = true)
    (hmore : Stops isSuffix more) : Scans '0' (x :: (ds ++ (s ++ more))) := by
  obtain ⟨hx, -, hdot⟩ := mark_cases hmark
  have hzero : Digits ['0'] := List.forall_mem_singleton.mpr (by decide)
  have hone : runLength Char.isDigit ('0' :: x :: (ds ++ (s ++ more))) = 1 :=
    runLength_eq hzero (stops_cons.mpr hx)
  have hnumber : number '0' (x :: (ds ++ (s ++ more))) =
      .valued ((integer? ('0' :: x :: ds)).map .integer) (('0' :: x :: ds ++ s).length - 1) :=
    number_of_length (t := x :: (ds ++ (s ++ more))) (by rw [hone]; rfl) (stops_cons.mpr (by simpa using hdot))
      rfl (by simpa using hlength) hs hmore
  refine .lexes _ ⟨'0' :: x :: (ds ++ s), more, by simp, hmunch, ?_⟩
  rw [lexeme_of_isDigit (by decide), hnumber, valued_eq, hreading, number_marked hmark hdigit hs, hvalue]
  rfl

theorem munch_hexadecimal (hx : isHexMark x = true) (hne : ds ≠ []) (hds : ∀ c ∈ ds, isHex c = true)
    (hstops : Stops isHex (s ++ more)) (hs : ∀ c ∈ s, isSuffix c = true) (hmore : Stops isSuffix more) :
    Munch ('0' :: x :: (ds ++ s)) more .hexadecimal := by
  have hclash : isBinaryMark x = false := by
    rcases isHexMark_iff.mp hx with rfl | rfl <;> decide
  refine munch_marked rfl hx (.inl hx) ?_ (fun c => not_isHex_of_isSuffix) hds hne hstops hs hmore
  rintro R' (⟨rfl, -⟩ | ⟨-, hbinary⟩)
  · rfl
  · rw [hclash] at hbinary
    cases hbinary

theorem scans_hexadecimal (hx : isHexMark x = true) (hne : ds ≠ []) (hds : ∀ c ∈ ds, isHex c = true)
    (ht : Stops isHex t) : Scans '0' (x :: (ds ++ t)) := by
  obtain ⟨s, more, rfl, hs, hmore⟩ := exists_run isSuffix t
  have hvalue : integer? ('0' :: x :: ds) = word? (ofDigits 16 ds) := if_pos hx
  exact scans_marked (integerLength_hexadecimal hx hne hds ht) (.inl hx)
    (munch_hexadecimal hx hne hds ht hs hmore) (fun _ => rfl) hvalue
    (fun c hc => not_isSuffix_of_isHex (hds c hc)) hs hmore

theorem not_isBinary_of_isSuffix {c : Char} (h : isSuffix c = true) : isBinary c = false := by
  by_contra hbinary
  have hdigit := isDigit_of_isBinary (by simpa using hbinary)
  rw [not_isDigit_of_isSuffix h] at hdigit
  cases hdigit

theorem not_isHexMark_of_isBinaryMark (hx : isBinaryMark x = true) : isHexMark x = false := by
  rcases isBinaryMark_iff.mp hx with rfl | rfl <;> decide

theorem munch_binary (hx : isBinaryMark x = true) (hne : ds ≠ []) (hds : ∀ c ∈ ds, isBinary c = true)
    (hstops : Stops isBinary (s ++ more)) (hs : ∀ c ∈ s, isSuffix c = true) (hmore : Stops isSuffix more) :
    Munch ('0' :: x :: (ds ++ s)) more .binary := by
  refine munch_marked rfl hx (.inr hx) ?_ (fun c => not_isBinary_of_isSuffix) hds hne hstops hs hmore
  rintro R' (⟨-, hhex⟩ | ⟨rfl, -⟩)
  · rw [not_isHexMark_of_isBinaryMark hx] at hhex
    cases hhex
  · rfl

theorem scans_binary (hx : isBinaryMark x = true) (hne : ds ≠ []) (hds : ∀ c ∈ ds, isBinary c = true)
    (ht : Stops isBinary t) : Scans '0' (x :: (ds ++ t)) := by
  obtain ⟨s, more, rfl, hs, hmore⟩ := exists_run isSuffix t
  have hvalue : integer? ('0' :: x :: ds) = word? (ofDigits 2 ds) := by
    have hx' : ¬ (decide (x = 'x') || decide (x = 'X')) = true := by
      simpa [isHexMark] using not_isHexMark_of_isBinaryMark hx
    exact (if_neg hx').trans (if_pos hx)
  exact scans_marked (integerLength_binary hx hne hds ht) (.inr hx) (munch_binary hx hne hds ht hs hmore)
    (fun _ => rfl) hvalue (fun c hc => not_isSuffix_of_isDigit (isDigit_of_isBinary (hds c hc))) hs hmore

/-! A radix in the digits. -/

/-- The rule that counts for digits without a mark. -/
def plainRule : List Char → Rule
  | '0' :: x :: ds => if (x :: ds).all isOctal then .octal else .decimal
  | _ => .decimal

theorem plainRule_cases (ds : List Char) : (∃ x v, ds = '0' :: x :: v ∧ (∀ c ∈ x :: v, isOctal c = true) ∧
    plainRule ds = .octal) ∨ (plainRule ds = .decimal ∧
      ∀ v, ds = '0' :: v → v ≠ [] → ∃ c ∈ v, isOctal c = false) := by
  unfold plainRule
  split
  · rename_i x v
    by_cases hall : (x :: v).all isOctal = true
    · exact .inl ⟨x, v, rfl, List.all_eq_true.mp hall, if_pos hall⟩
    · refine .inr ⟨if_neg hall, ?_⟩
      intro v' heq _
      obtain ⟨-, rfl⟩ := List.cons.inj heq
      obtain ⟨c, hc, hnot⟩ := List.all_eq_false.mp (Bool.eq_false_iff.mpr hall)
      exact ⟨c, hc, Bool.eq_false_iff.mpr hnot⟩
  · rename_i hshort
    refine .inr ⟨rfl, ?_⟩
    rintro v rfl hne
    obtain ⟨x, v, rfl⟩ := List.exists_cons_of_ne_nil hne
    exact absurd rfl (hshort x v)

theorem plainRule_reading (hds : Digits ds) (hs : ∀ c ∈ s, isSuffix c = true) :
    (plainRule ds).reading (ds ++ s) = (Lexeme.valued ((integer? ds).map .integer) 0).reading := by
  have hnumber (radix marks : Nat) : Rule.number radix marks (ds ++ s) =
      (Lexeme.valued ((word? (ofDigits radix (ds.drop marks))).map .integer) 0).reading :=
    number_append (fun c hc => not_isSuffix_of_isDigit (hds c hc)) hs
  have hmarks {x : Char} (hx : x.isDigit = true) : ¬ (decide (x = 'x') || decide (x = 'X')) = true ∧
      ¬ (decide (x = 'b') || decide (x = 'B')) = true := by
    constructor
    · intro hmark
      rw [(mark_cases (.inl hmark)).1] at hx
      cases hx
    · intro hmark
      rw [(mark_cases (.inr hmark)).1] at hx
      cases hx
  unfold plainRule
  split
  · rename_i x v
    obtain ⟨hhex, hbinary⟩ := hmarks (hds x (by simp))
    have hvalue : integer? ('0' :: x :: v) = if (x :: v).all isOctal then word? (ofDigits 8 (x :: v))
        else word? (ofDigits 10 ('0' :: x :: v)) := (if_neg hhex).trans (if_neg hbinary)
    rw [hvalue]
    by_cases hall : (x :: v).all isOctal = true
    · rw [if_pos hall, if_pos hall, Rule.reading, hnumber]
      rfl
    · rw [if_neg hall, if_neg hall, Rule.reading, hnumber]
      rfl
  · rename_i hshort
    have hvalue : integer? ds = word? (ofDigits 10 ds) := by
      unfold integer?
      split
      · exact absurd rfl (hshort _ _)
      · rfl
    rw [Rule.reading, hnumber, hvalue]
    rfl

theorem stops_suffixes (hs : ∀ c ∈ s, isSuffix c = true) : Stops Char.isDigit s :=
  .of_all hs fun _ => not_isDigit_of_isSuffix

/-- Digits and suffixes are told apart in one way. -/
theorem digits_unique {ds' s' : List Char} (hds : Digits ds) (hs : ∀ c ∈ s, isSuffix c = true)
    (hds' : Digits ds') (hs' : ∀ c ∈ s', isSuffix c = true) (h : ds ++ s = ds' ++ s') : ds = ds' := by
  have hdrop := rdropWhile_append hs fun c hc => not_isSuffix_of_isDigit (hds c hc)
  rw [h, rdropWhile_append hs' fun c hc => not_isSuffix_of_isDigit (hds' c hc)] at hdrop
  exact hdrop.symm

theorem plainRule_of_octal (hds : Digits ds) (hs : ∀ c ∈ s, isSuffix c = true)
    (h : ds ++ s ∈ Rule.octal.language) : plainRule ds = .octal := by
  obtain ⟨v, s', heq, hv, hall, hs'⟩ := mem_octal.mp h
  have hdigits : Digits ('0' :: v) :=
    List.forall_mem_cons.mpr ⟨by decide, fun c hc => isDigit_of_isOctal (hall c hc)⟩
  obtain rfl : ds = '0' :: v := digits_unique hds hs hdigits hs' heq
  rcases plainRule_cases ('0' :: v) with ⟨-, -, -, -, h⟩ | ⟨-, hnot⟩
  · exact h
  · obtain ⟨c, hc, hoctal⟩ := hnot v rfl hv
    rw [hall c hc] at hoctal
    cases hoctal

theorem length_le_of_decimal (hds : Digits ds) (hs : ∀ c ∈ s, isSuffix c = true)
    (hmore : Stops isSuffix more) (hstops : Stops Char.isDigit (s ++ more))
    (hfits : w <+: ds ++ (s ++ more)) (h : w ∈ Rule.decimal.language) : w.length ≤ (ds ++ s).length := by
  obtain ⟨ds', s', rfl, -, hds', hs'⟩ := mem_decimal.mp h
  rw [List.length_append, List.length_append]
  rcases run_within hds hstops hds' (stops_suffixes hs') hfits with ⟨rfl, hle⟩ | ⟨rfl, hrest⟩
  · simp only [List.length_nil]
    omega
  · have hle := length_le_of_fits hs hmore hs' hrest
    omega

theorem munch_plain (hds : Digits ds) (hne : ds ≠ []) (hs : ∀ c ∈ s, isSuffix c = true)
    (hmore : Stops isSuffix more) (hpoint : Stops (· == '.') (s ++ more))
    (hstops : Stops Char.isDigit (s ++ more))
    (hhex : ∀ w, w <+: ds ++ (s ++ more) → w ∉ Rule.hexadecimal.language)
    (hbinary : ∀ w, w <+: ds ++ (s ++ more) → w ∉ Rule.binary.language) :
    Munch (ds ++ s) more (plainRule ds) := by
  have hfamily : (plainRule ds).family = .number := by
    rcases plainRule_cases ds with ⟨-, -, -, -, h⟩ | ⟨h, -⟩ <;> rw [h] <;> rfl
  have hpoint {ds' v : List Char} (hds' : Digits ds') : ¬ ds' ++ '.' :: v <+: ds ++ (s ++ more) := by
    intro hfits
    rcases run_within hds hstops hds' (stops_cons.mpr (by decide)) hfits with ⟨hnil, -⟩ | ⟨-, hrest⟩
    · cases hnil
    · obtain ⟨v, hv⟩ := hrest
      have hdot := hpoint '.' (by rw [← hv]; rfl)
      exact absurd hdot (by decide)
  have hfits : ds ++ s <+: ds ++ (s ++ more) := ⟨more, List.append_assoc _ _ _⟩
  refine .of_family ?_ (fun R' hR' h => ?_) (fun w' R' hR' hfits h => ?_)
  · rcases plainRule_cases ds with ⟨x, v, rfl, hall, h⟩ | ⟨h, -⟩
    · rw [h]
      exact mem_octal.mpr ⟨x :: v, s, rfl, List.cons_ne_nil _ _, hall, hs⟩
    · rw [h]
      exact mem_decimal.mpr ⟨ds, s, rfl, hne, hds, hs⟩
  · rw [hfamily] at hR'
    cases R' with
    | hexadecimal => exact absurd h (hhex _ hfits)
    | binary => exact absurd h (hbinary _ hfits)
    | octal => exact .inl (plainRule_of_octal hds hs h).symm
    | decimal =>
      rcases plainRule_cases ds with ⟨-, -, -, -, h⟩ | ⟨h, -⟩
      · exact .inr (by rw [h]; rfl)
      · exact .inl h.symm
    | real =>
      obtain ⟨ds', fs, e, heq, -, hds', -⟩ := mem_real.mp h
      exact absurd (heq ▸ hfits) (hpoint hds')
    | _ => cases hR'
  · rw [hfamily] at hR'
    rw [List.append_assoc] at hfits
    cases R' with
    | hexadecimal => exact absurd h (hhex _ hfits)
    | binary => exact absurd h (hbinary _ hfits)
    | octal => exact length_le_of_decimal hds hs hmore hstops hfits (mem_decimal_of_octal h)
    | decimal => exact length_le_of_decimal hds hs hmore hstops hfits h
    | real =>
      obtain ⟨ds', fs, e, rfl, -, hds', -⟩ := mem_real.mp h
      exact absurd hfits (hpoint hds')
    | _ => cases hR'

theorem scans_plain {d : Char} (hd : d.isDigit = true) (hcs : d :: cs = ds ++ t) (hds : Digits ds) (hne : ds ≠ [])
    (hpoint : Stops (· == '.') t) (hstops : Stops Char.isDigit t)
    (hhex : ∀ w, w <+: d :: cs → w ∉ Rule.hexadecimal.language)
    (hbinary : ∀ w, w <+: d :: cs → w ∉ Rule.binary.language) : Scans d cs := by
  obtain ⟨s, more, rfl, hs, hmore⟩ := exists_run isSuffix t
  have hsplit : d :: cs = ds ++ s ++ more := by rw [hcs, List.append_assoc]
  have hmunch : Munch (ds ++ s) more (plainRule ds) :=
    munch_plain hds hne hs hmore hpoint hstops (hcs ▸ hhex) (hcs ▸ hbinary)
  have hlength : integerLength (d :: cs) = ds.length := by
    rw [integerLength_of_unmarked hhex hbinary, hcs, runLength_eq hds hstops]
  have hdrop : (d :: cs).drop (runLength Char.isDigit (d :: cs)) = s ++ more := by
    rw [hcs, runLength_eq hds hstops, List.drop_left]
  refine .lexes _ ⟨ds ++ s, more, hsplit, hmunch, ?_⟩
  rw [lexeme_of_isDigit hd, number_of_length hdrop hpoint hcs hlength hs hmore, valued_eq,
    plainRule_reading hds hs]

theorem scans_number {d : Char} (hd : d.isDigit = true) (cs : List Char) : Scans d cs := by
  obtain ⟨ds, t, heq, hds, hstops⟩ := exists_run Char.isDigit (d :: cs)
  have hne : ds ≠ [] := by
    rintro rfl
    rw [List.nil_append] at heq
    have hstop := hstops d (by rw [← heq]; rfl)
    rw [hd] at hstop
    cases hstop
  by_cases hpoint : t.head? = some '.'
  · obtain ⟨f, rfl⟩ := List.head?_eq_some_iff.mp hpoint
    exact scans_real hds hne heq hd
  · have hpoint : Stops (· == '.') t := by
      intro c hc
      by_contra hdot
      obtain rfl : c = '.' := by simpa using hdot
      exact hpoint hc
    rcases marked_or_not isHexMark isHex (d :: cs) with ⟨x, v, u, hcs, hx, hv, hall, hu⟩ | hhex
    · obtain ⟨rfl, rfl⟩ := List.cons.inj hcs
      exact scans_hexadecimal hx hv hall hu
    · rcases marked_or_not isBinaryMark isBinary (d :: cs) with ⟨x, v, u, hcs, hx, hv, hall, hu⟩ | hbinary
      · obtain ⟨rfl, rfl⟩ := List.cons.inj hcs
        exact scans_binary hx hv hall hu
      · exact scans_plain hd heq hds hne hpoint hstops hhex hbinary

end Integers

end MiniC.Lexer
