import MiniC.Proofs.Token.Families
/-!
The longest text. Main statements: for each first character but a digit, the lexeme is the longest text
that some rule accepts, read by the rule that counts.
-/
namespace MiniC.Lexer

open Computability

/-- A rule takes the text `w` in front of `more`. -/
structure Munch (w more : List Char) (R : Rule) : Prop where
  accepts : w ∈ R.language
  alone : ∀ R' : Rule, w ∈ R'.language → R' = R ∨ R.outranks R' = true
  longest : ∀ (w' : List Char) (R' : Rule), w' <+: w ++ more → w' ∈ R'.language → w'.length ≤ w.length

/-- Only the rules of the same family can compete. -/
theorem Munch.of_family {w more : List Char} {R : Rule} (hw : w ∈ R.language)
    (halone : ∀ R' : Rule, R'.family = R.family → w ∈ R'.language → R' = R ∨ R.outranks R' = true)
    (hlongest : ∀ (w' : List Char) (R' : Rule), R'.family = R.family → w' <+: w ++ more →
      w' ∈ R'.language → w'.length ≤ w.length) : Munch w more R := by
  obtain ⟨c, cs, rfl, hc⟩ := family_of_mem hw
  refine ⟨hw, fun R' hR' => halone R' ?_ hR', fun w' R' hfits hR' => hlongest w' R' ?_ hfits hR'⟩
  · rw [family_of_fits (List.prefix_refl _) hR', hc]
  · rw [family_of_fits hfits hR', hc]

/-- The lexeme at `c` is the longest text that a rule accepts. -/
def Lexes (c : Char) (rest : List Char) (R : Rule) : Prop :=
  ∃ w more, c :: rest = w ++ more ∧ Munch w more R ∧ lexeme c rest = ⟨R.reading w, w.length - 1⟩

/-- A comment that stays open, or nothing that any rule accepts. -/
def Stuck (cs : List Char) : Prop :=
  (∃ body, cs = '/' :: '*' :: body ∧ Unclosed body) ∨ ∀ (w : List Char) (R : Rule), w <+: cs → w ∉ R.language

/-- What the scanner makes of a text. -/
inductive Scans (c : Char) (rest : List Char) : Prop where
  | lexes (R : Rule) (h : Lexes c rest R)
  | stuck (herror : (lexeme c rest).reading = some (.error ())) (h : Stuck (c :: rest))

section Scans

variable {c : Char} {rest : List Char}

theorem lexeme_of_isBlank (hc : isBlank c = true) : lexeme c rest = .blank (runLength isBlank rest) := by
  unfold lexeme
  rw [if_pos hc]

theorem lexeme_of_isWordStart (hc : isWordStart c = true) : lexeme c rest =
    .token (word (String.ofList (c :: rest.take (runLength isWordRest rest)))) (runLength isWordRest rest) := by
  have hblank := not_isBlank hc (by decide)
  unfold lexeme
  rw [if_neg (by simp [hblank]), if_pos hc]

theorem lexeme_of_isDigit (hc : c.isDigit = true) : lexeme c rest = number c rest := by
  have hblank := not_isBlank hc (by decide)
  unfold lexeme
  rw [if_neg (by simp [hblank]), if_neg (by simp [not_isWordStart_of_isDigit hc]), if_pos hc]

/-! Blanks. -/

theorem scans_blank (hc : isBlank c = true) : Scans c rest := by
  obtain ⟨ds, t, rfl, hds, ht⟩ := exists_run isBlank rest
  have hall : ∀ d ∈ c :: ds, isBlank d = true := List.forall_mem_cons.mpr ⟨hc, hds⟩
  have hmunch : Munch (c :: ds) t .blank := by
    refine .of_family (mem_plus_one.mpr ⟨List.cons_ne_nil _ _, hall⟩) ?_ ?_
    · intro R' hfamily hR'
      cases R' <;> first | exact .inl rfl | cases hfamily
    · intro w' R' hfamily hfits hR'
      cases R' with
      | blank => exact length_le_of_fits hall ht (mem_plus_one.mp hR').2 hfits
      | _ => cases hfamily
  refine .lexes .blank ⟨c :: ds, t, rfl, hmunch, ?_⟩
  rw [lexeme_of_isBlank hc, runLength_eq hds ht]
  rfl

/-! Words. -/

/-- The rule that counts for a word. -/
def wordRule (s : String) : Rule :=
  match Keyword.ofText? s with
  | some k => .keyword k
  | none => if reservedWords.contains s then .reserved s else .identifier

theorem ofText?_text (k : Keyword) : Keyword.ofText? k.text = some k := by
  cases k <;> decide

theorem text_of_ofText? {s : String} {k : Keyword} (h : Keyword.ofText? s = some k) : k.text = s := by
  simpa using List.find?_some h

theorem ofText?_of_reserved {s : String} (h : reservedWords.contains s = true) : Keyword.ofText? s = none := by
  have hall : ∀ s ∈ reservedWords, Keyword.ofText? s = none := by decide
  exact hall s (by simpa using h)

theorem wordRule_reading (s : String) : (wordRule s).reading s.toList = some (.ok (word s)) := by
  unfold wordRule word
  cases Keyword.ofText? s with
  | some k => rfl
  | none =>
    by_cases hs : reservedWords.contains s = true
    · simp only [if_pos hs]
      rfl
    · simp only [if_neg hs]
      rw [Rule.reading, String.ofList_toList]

theorem mem_wordRule {s : String} {c : Char} {cs : List Char} (hs : s.toList = c :: cs)
    (hc : isWordStart c = true) (hcs : ∀ d ∈ cs, isWordRest d = true) : s.toList ∈ (wordRule s).language := by
  unfold wordRule
  cases htext : Keyword.ofText? s with
  | some k =>
    rw [← text_of_ofText? htext]
    exact mem_exactly.mpr rfl
  | none =>
    by_cases hreserved : reservedWords.contains s = true
    · simp only [if_pos hreserved, Rule.language]
      exact mem_exactly.mpr rfl
    · simp only [if_neg hreserved]
      exact mem_one_mul.mpr ⟨c, hc, cs, mem_many.mpr hcs, hs⟩

/-- Keywords and reserved words come before identifiers. -/
theorem wordRule_alone {s : String} {R : Rule} (hR : R.family = .word) (h : s.toList ∈ R.language) :
    R = wordRule s ∨ (wordRule s).outranks R = true := by
  cases R with
  | keyword k =>
    obtain rfl : s = k.text := String.toList_inj.mp h
    left
    rw [wordRule, ofText?_text]
  | reserved w =>
    by_cases hw : reservedWords.contains w = true
    · rw [Rule.language, if_pos hw] at h
      obtain rfl : s = w := String.toList_inj.mp h
      left
      simp only [wordRule, ofText?_of_reserved hw, if_pos hw]
    · rw [Rule.language, if_neg hw] at h
      exact absurd h (Language.notMem_zero _)
  | identifier =>
    unfold wordRule
    cases Keyword.ofText? s with
    | some k => exact .inr rfl
    | none =>
      by_cases hs : reservedWords.contains s = true
      · simp only [if_pos hs]
        exact .inr rfl
      · simp only [if_neg hs]
        exact .inl trivial
  | _ => cases hR

theorem wordRule_family (s : String) : (wordRule s).family = .word := by
  unfold wordRule
  cases Keyword.ofText? s with
  | some k => rfl
  | none =>
    by_cases hs : reservedWords.contains s = true
    · simp only [if_pos hs]
      rfl
    · simp only [if_neg hs]
      rfl

theorem scans_word (hc : isWordStart c = true) : Scans c rest := by
  obtain ⟨ds, t, rfl, hds, ht⟩ := exists_run isWordRest rest
  obtain ⟨s, hs⟩ : ∃ s : String, s.toList = c :: ds := ⟨String.ofList (c :: ds), String.toList_ofList⟩
  have hmunch : Munch s.toList t (wordRule s) := by
    refine .of_family (mem_wordRule hs hc hds) ?_ ?_
    · intro R' hfamily hR'
      exact wordRule_alone (hfamily.trans (wordRule_family s)) hR'
    · intro w' R' hfamily hfits hR'
      rw [hs] at hfits ⊢
      obtain ⟨c', cs', rfl, -, hcs'⟩ := mem_identifier_of_word (hfamily.trans (wordRule_family s)) hR'
      exact Nat.succ_le_succ (length_le_of_fits hds ht hcs' (List.cons_prefix_cons.mp hfits).2)
  refine .lexes _ ⟨s.toList, t, by rw [hs]; rfl, hmunch, ?_⟩
  rw [lexeme_of_isWordStart hc, runLength_eq hds ht, List.take_left, ← hs, String.ofList_toList,
    wordRule_reading, hs]
  rfl

/-! Quotes. -/

/-- By induction on what stands between the quotes. -/
theorem quotedRest_of_mem {quote : Char} (hquote : quote ≠ '\\') {body : List Char}
    (h : body ∈ quotable quote) (more : List Char) :
    quotedRest quote (body ++ quote :: more) = (body.length, true) := by
  obtain ⟨units, rfl, hunits⟩ := Language.mem_kstar.mp h
  clear h
  induction units with
  | nil => exact quotedRest_quote quote more
  | cons u units ih =>
    obtain ⟨hu, hrest⟩ := List.forall_mem_cons.mp hunits
    rw [List.flatten_cons, List.append_assoc]
    rcases (Language.mem_add _ _ _).mp hu with ⟨c, rfl, hc⟩ | hescape
    · obtain ⟨hne, hplain⟩ : c ≠ quote ∧ c ≠ '\\' := by simpa using hc
      rw [List.singleton_append, quotedRest_plain hne hplain, ih hrest, List.length_append]
      exact Prod.ext (Nat.add_comm _ _) rfl
    · obtain ⟨_, ⟨d, rfl, hd⟩, rfl⟩ := mem_exactly_mul.mp hescape
      have hd : d ≠ '\n' := by simpa using hd
      have hcons : ['\\'] ++ [d] ++ (units.flatten ++ quote :: more) =
          '\\' :: d :: (units.flatten ++ quote :: more) := rfl
      rw [hcons, quotedRest_escape hquote.symm hd, ih hrest, List.length_append]
      exact Prod.ext (Nat.add_comm _ _) rfl

theorem mem_of_quotedRest {quote : Char} {cs : List Char} (h : (quotedRest quote cs).2 = true) :
    ∃ body more, cs = body ++ quote :: more ∧ body ∈ quotable quote := by
  fun_induction quotedRest quote cs with
  | case1 => cases h
  | case2 more => exact ⟨[], more, rfl, Language.nil_mem_kstar _⟩
  | case3 => cases h
  | case4 => cases h
  | case5 d rest hd n closed heq hquote ih =>
    rw [heq] at ih
    obtain ⟨body, more, rfl, hbody⟩ := ih h
    have hunit : ['\\', d] ∈ one (fun c => c != quote && c != '\\') + exactly ['\\'] * one (· != '\n') :=
      .inr (mem_exactly_mul.mpr ⟨[d], ⟨d, rfl, by simpa using hd⟩, rfl⟩)
    exact ⟨'\\' :: d :: body, more, rfl, append_mem_kstar hunit hbody⟩
  | case6 c rest hquote hescape n closed heq ih =>
    rw [heq] at ih
    obtain ⟨body, more, rfl, hbody⟩ := ih h
    have hunit : [c] ∈ one (fun c => c != quote && c != '\\') + exactly ['\\'] * one (· != '\n') :=
      .inl ⟨c, rfl, by simp [hquote, hescape]⟩
    exact ⟨c :: body, more, rfl, append_mem_kstar hunit hbody⟩

theorem between_quoted (value : List Char → Option TokenKind) (quote : Char) (body : List Char) :
    Rule.between value (quote :: (body ++ [quote])) = (Lexeme.valued (value body) 0).reading := by
  rw [Rule.between, List.tail_cons, List.dropLast_concat]

/-- A literal ends at the first quote that is not part of an escape. -/
theorem munch_quoted {R : Rule} {body more : List Char} (hne : c ≠ '\\')
    (hlanguage : R.language = exactly [c] * (quotable c * exactly [c]))
    (honly : ∀ R' : Rule, R'.family = R.family → R' = R) (hbody : body ∈ quotable c) :
    Munch (c :: (body ++ [c])) more R := by
  refine .of_family ?_ (fun R' hR' _ => .inl (honly R' hR')) ?_
  · rw [hlanguage]
    exact mem_quoted.mpr ⟨body, hbody, rfl⟩
  · intro w' R' hfamily hfits hR'
    obtain rfl := honly R' hfamily
    rw [hlanguage] at hR'
    obtain ⟨body', hbody', rfl⟩ := mem_quoted.mp hR'
    obtain ⟨more', heq⟩ := (List.cons_prefix_cons.mp hfits).2
    have heq : body' ++ c :: more' = body ++ c :: more := by simpa using heq
    have hlength := quotedRest_of_mem hne hbody' more'
    rw [heq, quotedRest_of_mem hne hbody more] at hlength
    have hlength : body.length = body'.length := (Prod.mk.inj hlength).1
    simp [hlength]

theorem only_character (R : Rule) (h : R.family = Rule.character.family) : R = .character := by
  cases R <;> first | rfl | cases h

theorem only_string (R : Rule) (h : R.family = Rule.string.family) : R = .string := by
  cases R <;> first | rfl | cases h

theorem scans_quoted {R : Rule} {value : List Char → Option TokenKind} (hne : c ≠ '\\')
    (hlanguage : R.language = exactly [c] * (quotable c * exactly [c]))
    (hreading : ∀ w, R.reading w = Rule.between value w)
    (honly : ∀ R' : Rule, R'.family = R.family → R' = R) (hfamily : family c = R.family)
    (hlexeme : lexeme c rest = quoted c value rest) : Scans c rest := by
  cases hclosed : (quotedRest c rest).2 with
  | true =>
    obtain ⟨body, more, rfl, hbody⟩ := mem_of_quotedRest hclosed
    refine .lexes R ⟨c :: (body ++ [c]), more, by simp, munch_quoted hne hlanguage honly hbody, ?_⟩
    rw [hlexeme, quoted, quotedRest_of_mem hne hbody more, hreading, between_quoted]
    simp only [if_true, List.take_left, List.length_cons, List.length_append, List.length_nil]
    cases value body <;> rfl
  | false =>
    refine .stuck ?_ (.inr ?_)
    · rw [hlexeme, quoted]
      simp only [hclosed]
      rfl
    · intro w R' hfits hR'
      obtain rfl := honly R' ((family_of_fits hfits hR').trans hfamily)
      rw [hlanguage] at hR'
      obtain ⟨body, hbody, rfl⟩ := mem_quoted.mp hR'
      obtain ⟨more, heq⟩ := (List.cons_prefix_cons.mp hfits).2
      rw [← heq, List.append_assoc, List.singleton_append, quotedRest_of_mem hne hbody more] at hclosed
      cases hclosed

/-! Comments. -/

theorem punct_of_slash {p : Punct} (h : p.chars.head? = some '/') : p = .slash ∨ p = .slashEq := by
  cases p <;> first | exact .inl rfl | exact .inr rfl | exact absurd h (by decide)

/-- The second character tells the comments and the punctuators apart. -/
theorem slash_cases {d : Char} {cs w : List Char} {R : Rule} (hfits : w <+: '/' :: d :: cs)
    (h : w ∈ R.language) : (R = .lineComment ∧ d = '/') ∨ (R = .blockComment ∧ d = '*') ∨
      w = ['/'] ∨ d = '=' := by
  have hfamily : R.family = .other := family_of_fits hfits h
  cases R with
  | lineComment =>
    obtain ⟨line, -, rfl⟩ := mem_exactly_mul.mp h
    exact .inl ⟨rfl, (List.cons_prefix_cons.mp (List.cons_prefix_cons.mp hfits).2).1.symm⟩
  | blockComment =>
    obtain ⟨body, rfl, -⟩ := mem_blockComment.mp h
    exact .inr (.inl ⟨rfl, (List.cons_prefix_cons.mp (List.cons_prefix_cons.mp hfits).2).1.symm⟩)
  | fraction =>
    obtain ⟨fs, t, rfl, -⟩ := mem_fraction.mp h
    exact absurd (List.cons_prefix_cons.mp hfits).1 (by decide)
  | punct p =>
    obtain ⟨c, cs', heq, -⟩ := family_of_mem h
    obtain rfl : w = p.chars := h
    have hhead : p.chars.head? = some '/' := by
      rw [heq] at hfits ⊢
      rw [(List.cons_prefix_cons.mp hfits).1]
      rfl
    rcases punct_of_slash hhead with rfl | rfl
    · exact .inr (.inr (.inl rfl))
    · exact .inr (.inr (.inr (List.cons_prefix_cons.mp (List.cons_prefix_cons.mp hfits).2).1.symm))
  | _ => cases hfamily

theorem scans_lineComment (line : List Char) : Scans '/' ('/' :: line) := by
  obtain ⟨ds, t, rfl, hds, ht⟩ := exists_run (· != '\n') line
  have hw : '/' :: '/' :: ds ∈ Rule.lineComment.language :=
    mem_exactly_mul.mpr ⟨ds, mem_many.mpr hds, rfl⟩
  have hmunch : Munch ('/' :: '/' :: ds) t .lineComment := by
    refine ⟨hw, fun R' hR' => ?_, fun w' R' hfits hR' => ?_⟩
    · rcases slash_cases (List.prefix_refl _) hR' with ⟨rfl, -⟩ | ⟨-, hd⟩ | hw' | hd
      · exact .inl rfl
      · cases hd
      · cases hw'
      · cases hd
    · rcases slash_cases hfits hR' with ⟨rfl, -⟩ | ⟨-, hd⟩ | rfl | hd
      · obtain ⟨ds', hds', rfl⟩ := mem_exactly_mul.mp hR'
        have hrest : ds' <+: ds ++ t := (List.prefix_append_right_inj ['/', '/']).mp hfits
        have hle := length_le_of_fits hds ht (mem_many.mp hds') hrest
        exact Nat.succ_le_succ (Nat.succ_le_succ hle)
      · cases hd
      · exact Nat.succ_le_succ (Nat.zero_le _)
      · cases hd
  refine .lexes _ ⟨_, t, rfl, hmunch, ?_⟩
  show Lexeme.blank (1 + runLength (· != '\n') (ds ++ t)) = _
  rw [runLength_eq hds ht, Nat.add_comm]
  rfl

theorem lexeme_comment {body : List Char} {n : Nat} (h : commentRest? body = some n) :
    lexeme '/' ('*' :: body) = .blank (1 + n) := by
  have hblank : isBlank '/' = false := by decide
  have hword : isWordStart '/' = false := by decide
  simp [lexeme, hblank, hword, h]

theorem lexeme_unclosed {body : List Char} (h : commentRest? body = none) :
    lexeme '/' ('*' :: body) = .invalid ('*' :: body).length := by
  have hblank : isBlank '/' = false := by decide
  have hword : isWordStart '/' = false := by decide
  simp [lexeme, hblank, hword, h]

theorem scans_blockComment (body : List Char) : Scans '/' ('*' :: body) := by
  cases hrest : commentRest? body with
  | some n =>
    obtain ⟨body, more, rfl, rfl, hbody⟩ := exists_of_commentRest? hrest
    have hmunch : Munch ('/' :: '*' :: (body ++ ['*', '/'])) more .blockComment := by
      refine ⟨mem_blockComment.mpr ⟨body, rfl, hbody⟩, fun R' hR' => ?_, fun w' R' hfits hR' => ?_⟩
      · rcases slash_cases (List.prefix_refl _) hR' with ⟨-, hd⟩ | ⟨rfl, -⟩ | hw' | hd
        · cases hd
        · exact .inl rfl
        · cases hw'
        · cases hd
      · rcases slash_cases hfits hR' with ⟨-, hd⟩ | ⟨rfl, -⟩ | rfl | hd
        · cases hd
        · obtain ⟨body', rfl, hbody'⟩ := mem_blockComment.mp hR'
          obtain ⟨more', heq⟩ := hfits
          have heq : body' ++ '*' :: '/' :: more' = body ++ '*' :: '/' :: more := by simpa using heq
          -- the scanner finds the end of each of the two comments
          rw [← heq, commentRest?_append hbody' more'] at hrest
          have hlength : body'.length + 2 = body.length + 2 := Option.some.inj hrest
          simp only [List.length_cons, List.length_append, List.length_nil]
          omega
        · exact Nat.succ_le_succ (Nat.zero_le _)
        · cases hd
    refine .lexes _ ⟨_, more, by simp, hmunch, ?_⟩
    rw [lexeme_comment (commentRest?_append hbody more)]
    simp [Lexeme.blank, Rule.reading, Nat.add_comm]
  | none =>
    refine .stuck ?_ (.inl ⟨body, rfl, unclosed_of_commentRest? hrest⟩)
    rw [lexeme_unclosed hrest]
    rfl

/-! Punctuators. -/

theorem lexeme_of_other (hfamily : family c = .other) (hslash : c = '/' → ∀ d more, rest = d :: more →
    d ≠ '/' ∧ d ≠ '*') (hdot : c = '.' → ∀ d more, rest = d :: more → d.isDigit = false) :
    lexeme c rest = punct (c :: rest) := by
  unfold family at hfamily
  split_ifs at hfamily with hblank hword hdigit hcharacter hstring
  unfold lexeme
  rw [if_neg hblank, if_neg hword, if_neg hdigit, if_neg hcharacter, if_neg hstring]
  split
  · exact absurd rfl (hslash rfl _ _ rfl).1
  · exact absurd rfl (hslash rfl _ _ rfl).2
  · rw [hdot rfl _ _ rfl]
    rfl
  · rfl

/-- Longer punctuators come first. -/
theorem punct_sorted : Punct.all.Pairwise fun p q => q.chars.length ≤ p.chars.length := by decide

theorem punct_chars_injective {p q : Punct} (h : p.chars = q.chars) : p = q := by
  have hall : ∀ p ∈ Punct.all, ∀ q ∈ Punct.all, p.chars = q.chars → p = q := by decide +kernel
  exact hall p (Punct.mem_all p) q (Punct.mem_all q) h

theorem length_le_of_ofChars? {cs : List Char} {p q : Punct} (h : Punct.ofChars? cs = some p)
    (hq : q.chars <+: cs) : q.chars.length ≤ p.chars.length := by
  obtain ⟨-, before, after, heq, hbefore⟩ := List.find?_eq_some_iff_append.mp h
  have hmem := Punct.mem_all q
  have hsorted := punct_sorted
  rw [heq] at hmem hsorted
  rcases List.mem_append.mp hmem with hmem | hmem
  · have hnot := hbefore q hmem
    rw [List.isPrefixOf_iff_prefix.mpr hq] at hnot
    cases hnot
  · rcases List.mem_cons.mp hmem with rfl | hmem
    · exact Nat.le_refl _
    · exact (List.pairwise_cons.mp (List.pairwise_append.mp hsorted).2.1).1 q hmem

theorem scans_punct (hfamily : family c = .other) (hslash : c = '/' → ∀ d more, rest = d :: more →
    d ≠ '/' ∧ d ≠ '*') (hdot : c = '.' → ∀ d more, rest = d :: more → d.isDigit = false) :
    Scans c rest := by
  have hrule {w : List Char} {R : Rule} (hfits : w <+: c :: rest) (h : w ∈ R.language) :
      ∃ p, R = .punct p ∧ w = p.chars := by
    have hother := (family_of_fits hfits h).trans hfamily
    cases R with
    | lineComment =>
      obtain ⟨line, -, rfl⟩ := mem_exactly_mul.mp h
      obtain ⟨more, heq⟩ := hfits
      obtain ⟨rfl, rfl⟩ := List.cons.inj heq
      exact absurd rfl (hslash rfl _ _ rfl).1
    | blockComment =>
      obtain ⟨body, rfl, -⟩ := mem_blockComment.mp h
      obtain ⟨more, heq⟩ := hfits
      obtain ⟨rfl, rfl⟩ := List.cons.inj heq
      exact absurd rfl (hslash rfl _ _ rfl).2
    | fraction =>
      obtain ⟨fs, t, rfl, hne, hfs, -⟩ := mem_fraction.mp h
      obtain ⟨more, heq⟩ := hfits
      obtain ⟨rfl, rfl⟩ := List.cons.inj heq
      cases fs with
      | nil => exact absurd rfl hne
      | cons d fs =>
        have hd := hdot rfl _ _ rfl
        rw [hfs d List.mem_cons_self] at hd
        cases hd
    | punct p => exact ⟨p, rfl, h⟩
    | _ => cases hother
  have hlexeme := lexeme_of_other hfamily hslash hdot
  cases hp : Punct.ofChars? (c :: rest) with
  | some p =>
    have hfind : Punct.all.find? (fun p => p.chars.isPrefixOf (c :: rest)) = some p := hp
    have hfits : p.chars.isPrefixOf (c :: rest) = true := by simpa using List.find?_some hfind
    obtain ⟨more, hmore⟩ := List.isPrefixOf_iff_prefix.mp hfits
    have hmunch : Munch p.chars more (.punct p) := by
      refine ⟨mem_exactly.mpr rfl, fun R' hR' => ?_, fun w' R' hfits hR' => ?_⟩
      · obtain ⟨q, rfl, hq⟩ := hrule ⟨more, hmore⟩ hR'
        exact .inl (congrArg Rule.punct (punct_chars_injective hq.symm))
      · rw [hmore] at hfits
        obtain ⟨q, rfl, rfl⟩ := hrule hfits hR'
        exact length_le_of_ofChars? hp hfits
    refine .lexes _ ⟨p.chars, more, hmore.symm, hmunch, ?_⟩
    rw [hlexeme, punct, hp]
    rfl
  | none =>
    refine .stuck ?_ (.inr fun w R hfits hR => ?_)
    · rw [hlexeme, punct, hp]
      rfl
    · obtain ⟨p, rfl, rfl⟩ := hrule hfits hR
      have hnot := List.find?_eq_none.mp hp p (Punct.mem_all p)
      exact hnot (List.isPrefixOf_iff_prefix.mpr hfits)

end Scans

end MiniC.Lexer
