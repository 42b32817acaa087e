import MiniC.Proofs.Token.Integers
/-!
Tokens on their own. Main statements: the scanner takes the longest text that any rule accepts, and what it
takes as a token it takes again when the text ends there or a space follows.
-/
namespace MiniC.Lexer

open Computability

/-- Every lexeme is the longest text that a rule accepts, or an error where none accepts any. -/
theorem scans (c : Char) (rest : List Char) : Scans c rest := by
  by_cases hblank : isBlank c = true
  · exact scans_blank hblank
  by_cases hword : isWordStart c = true
  · exact scans_word hword
  by_cases hdigit : c.isDigit = true
  · exact scans_number hdigit rest
  by_cases hcharacter : c = '\x27'
  · subst hcharacter
    exact scans_quoted (by decide) rfl (fun _ => rfl) only_character (by decide) (lexeme_character rest)
  by_cases hstring : c = '"'
  · subst hstring
    exact scans_quoted (by decide) rfl (fun _ => rfl) only_string (by decide) (lexeme_string rest)
  have hother : family c = .other := by
    rw [family, if_neg hblank, if_neg hword, if_neg hdigit, if_neg hcharacter, if_neg hstring]
  by_cases hline : c = '/' ∧ rest.head? = some '/'
  · obtain ⟨rfl, hhead⟩ := hline
    obtain ⟨line, rfl⟩ := List.head?_eq_some_iff.mp hhead
    exact scans_lineComment line
  by_cases hblock : c = '/' ∧ rest.head? = some '*'
  · obtain ⟨rfl, hhead⟩ := hblock
    obtain ⟨body, rfl⟩ := List.head?_eq_some_iff.mp hhead
    exact scans_blockComment body
  by_cases hfraction : c = '.' ∧ ∃ d more, rest = d :: more ∧ d.isDigit = true
  · obtain ⟨rfl, d, more, rfl, hd⟩ := hfraction
    exact scans_fraction hd more
  refine scans_punct hother ?_ ?_
  · rintro rfl d more rfl
    constructor
    · rintro rfl
      exact hline ⟨rfl, rfl⟩
    · rintro rfl
      exact hblock ⟨rfl, rfl⟩
  · rintro rfl d more rfl
    by_contra hd
    exact hfraction ⟨rfl, d, more, rfl, by simpa using hd⟩

/-! The text decides. -/

section Locality

variable {c : Char} {cs rest w more : List Char} {R R' : Rule}

theorem outranks_asymm (h : R.outranks R' = true) : R'.outranks R = false := by
  cases R <;> cases R' <;> first | rfl | cases h

/-- There is one longest text, and one rule for it. -/
theorem Munch.unique {w' more' : List Char} (h : Munch w more R) (h' : Munch w' more' R')
    (heq : w ++ more = w' ++ more') : w' = w ∧ R' = R := by
  have hle : w.length ≤ w'.length := h'.longest w R (heq ▸ List.prefix_append _ _) h.accepts
  have hle' : w'.length ≤ w.length := h.longest w' R' (heq ▸ List.prefix_append _ _) h'.accepts
  obtain ⟨rfl, -⟩ := List.append_inj heq (Nat.le_antisymm hle hle')
  refine ⟨rfl, ?_⟩
  rcases h.alone R' h'.accepts with hR | houtranks
  · exact hR
  · rcases h'.alone R h.accepts with hR | houtranks'
    · exact hR.symm
    · rw [outranks_asymm houtranks] at houtranks'
      cases houtranks'

/-- The longest text is taken, but for a slash in front of a comment that stays open. -/
theorem lexeme_of_munch (hcs : c :: rest = w ++ more) (h : Munch w more R)
    (hopen : w = ['/'] → more.head? ≠ some '*') : lexeme c rest = ⟨R.reading w, w.length - 1⟩ := by
  rcases scans c rest with ⟨R', w', more', hcs', h', hlexeme⟩ | ⟨-, ⟨body, heq, hbody⟩ | hnone⟩
  · obtain ⟨rfl, rfl⟩ := h.unique h' (hcs.symm.trans hcs')
    exact hlexeme
  · obtain ⟨rfl, rfl⟩ := List.cons.inj heq
    have hfits : w <+: '/' :: '*' :: body := hcs ▸ List.prefix_append _ _
    rcases slash_cases hfits h.accepts with ⟨-, hd⟩ | ⟨rfl, -⟩ | rfl | hd
    · cases hd
    · obtain ⟨body', rfl, -⟩ := mem_blockComment.mp h.accepts
      have hinner := (List.cons_prefix_cons.mp (List.cons_prefix_cons.mp hfits).2).2
      have hclose : ['*', '/'] <:+: body' ++ ['*', '/'] := (List.suffix_append _ _).isInfix
      exact absurd (hclose.trans hinner.isInfix) hbody
    · obtain ⟨-, rfl⟩ := List.cons.inj hcs
      exact absurd rfl (hopen rfl)
    · cases hd
  · exact absurd h.accepts (hnone w R (hcs ▸ List.prefix_append _ _))

/-! A space ends every token. -/

theorem space_notMem_realEnd (h : w ∈ realEnd) : ' ' ∉ w := by
  obtain ⟨x, s, rfl, hx, hs⟩ := mem_realEnd.mp h
  intro hspace
  rcases List.mem_append.mp hspace with hspace | hspace
  · rcases hx with rfl | hx
    · cases hspace
    · obtain ⟨e, sign, ds, rfl, he, hsign, -, hds⟩ := mem_exponent.mp hx
      rcases List.mem_cons.mp hspace with rfl | hspace
      · exact absurd he (by decide)
      · rcases List.mem_append.mp hspace with hspace | hspace
        · rcases hsign with rfl | ⟨c, rfl, hc⟩
          · cases hspace
          · obtain rfl := List.mem_singleton.mp hspace
            exact absurd hc (by decide)
        · exact absurd (hds _ hspace) (by decide)
  · rcases hs with rfl | ⟨c, rfl, hc⟩
    · cases hspace
    · obtain rfl := List.mem_singleton.mp hspace
      exact absurd hc (by decide)

/-- Only blanks, comments and quotes hold spaces. -/
theorem space_notMem (h : w ∈ R.language) (hR : R.family = .word ∨ R.family = .number ∨
    R = .fraction ∨ ∃ p, R = .punct p) : ' ' ∉ w := by
  intro hspace
  rcases hR with hR | hR | rfl | ⟨p, rfl⟩
  · obtain ⟨c, cs, rfl, hc, hcs⟩ := mem_identifier_of_word hR h
    rcases List.mem_cons.mp hspace with rfl | hspace
    · exact absurd hc (by decide)
    · exact absurd (hcs _ hspace) (by decide)
  · rcases number_cases hR h with rfl | hall
    · obtain ⟨ds, fs, e, rfl, -, hds, hfs, he⟩ := mem_real.mp h
      rcases List.mem_append.mp hspace with hspace | hspace
      · exact absurd (hds _ hspace) (by decide)
      · rcases List.mem_append.mp (List.mem_of_ne_of_mem (by decide) hspace) with hspace | hspace
        · exact absurd (hfs _ hspace) (by decide)
        · exact space_notMem_realEnd he hspace
    · exact absurd (hall _ hspace) (by decide)
  · obtain ⟨fs, e, rfl, -, hfs, he⟩ := mem_fraction.mp h
    rcases List.mem_append.mp (List.mem_of_ne_of_mem (by decide) hspace) with hspace | hspace
    · exact absurd (hfs _ hspace) (by decide)
    · exact space_notMem_realEnd he hspace
  · have hnone : ' ' ∉ p.chars := by cases p <;> decide
    exact hnone (mem_exactly.mp h ▸ hspace)

theorem quoted_of_append {quote : Char} (hquote : quote ≠ '\\') {v : List Char}
    (h : w ∈ exactly [quote] * (quotable quote * exactly [quote]))
    (h' : w ++ v ∈ exactly [quote] * (quotable quote * exactly [quote])) : v = [] := by
  obtain ⟨body, hbody, rfl⟩ := mem_quoted.mp h
  obtain ⟨body', hbody', heq⟩ := mem_quoted.mp h'
  have heq : body ++ quote :: v = body' ++ quote :: [] := by simpa using heq
  have hends := quotedRest_of_mem hquote hbody v
  rw [heq, quotedRest_of_mem hquote hbody' []] at hends
  have hlength : body'.length = body.length := (Prod.mk.inj hends).1
  have htotal := congrArg List.length heq
  simp only [List.length_append, List.length_cons, List.length_nil] at htotal
  exact List.length_eq_zero_iff.mp (by omega)

/-- No text goes on with a space behind a token. -/
theorem notMem_of_space {v : List Char} (h : w ∈ R.language) (htoken : R.reading w ≠ none) :
    w ++ ' ' :: v ∉ R'.language := by
  intro h'
  obtain ⟨c, cs, rfl, hc⟩ := family_of_mem h
  have hfamily : R'.family = R.family := (family_of_fits (List.prefix_refl _) h').trans hc
  have hspace : ' ' ∈ c :: cs ++ ' ' :: v := by simp
  have hslash {d : Char} {line : List Char} (heq : c :: cs ++ ' ' :: v = '/' :: d :: line)
      (hd : d = '/' ∨ d = '*') : False := by
    have hfits : c :: cs <+: '/' :: d :: line := ⟨' ' :: v, heq⟩
    rcases slash_cases hfits h with ⟨rfl, -⟩ | ⟨rfl, -⟩ | hw | rfl
    · exact htoken rfl
    · exact htoken rfl
    · rw [hw] at heq
      obtain rfl : ' ' = d := (List.cons.inj (List.cons.inj heq).2).1
      revert hd
      decide
    · revert hd
      decide
  cases R' with
  | blank =>
    cases R with
    | blank => exact htoken rfl
    | _ => cases hfamily
  | lineComment =>
    obtain ⟨line, -, heq⟩ := mem_exactly_mul.mp h'
    exact hslash heq (.inl rfl)
  | blockComment =>
    obtain ⟨body, heq, -⟩ := mem_blockComment.mp h'
    exact hslash heq (.inr rfl)
  | keyword _ | reserved _ | identifier => exact space_notMem h' (.inl rfl) hspace
  | hexadecimal | binary | octal | decimal | real => exact space_notMem h' (.inr (.inl rfl)) hspace
  | fraction => exact space_notMem h' (.inr (.inr (.inl rfl))) hspace
  | punct p => exact space_notMem h' (.inr (.inr (.inr ⟨p, rfl⟩))) hspace
  | character =>
    cases R with
    | character => cases quoted_of_append (by decide) h h'
    | _ => cases hfamily
  | string =>
    cases R with
    | string => cases quoted_of_append (by decide) h h'
    | _ => cases hfamily

/-- A token is read from its own text, whatever stood behind it. -/
theorem Munch.readAs {k : TokenKind} (h : Munch w more R) (hk : R.reading w = some (.ok k)) : ReadAs k w := by
  have hmunch {rest : List Char} (hrest : Ends rest) : Munch w rest R := by
    refine ⟨h.accepts, h.alone, fun w' R' hfits hR' => ?_⟩
    by_contra hlonger
    obtain ⟨u, rfl⟩ := List.prefix_of_prefix_length_le (List.prefix_append w rest) hfits (by omega)
    have hu := (List.prefix_append_right_inj w).mp hfits
    rcases hrest with rfl | ⟨v, rfl⟩
    · rw [List.prefix_nil.mp hu, List.append_nil] at hlonger
      exact hlonger (Nat.le_refl _)
    · cases u with
      | nil => exact hlonger (by rw [List.append_nil])
      | cons d u =>
        obtain rfl := (List.cons_prefix_cons.mp hu).1
        exact notMem_of_space h.accepts (by rw [hk]; exact nofun) hR'
  obtain ⟨c, cs, rfl, hc⟩ := family_of_mem h.accepts
  refine ⟨c, cs, rfl, ?_, fun rest hrest => ?_⟩
  · by_contra hblank
    rw [family, if_pos (by simpa using hblank)] at hc
    cases R with
    | blank => cases hk
    | _ => cases hc
  · have hcs : c :: (cs ++ rest) = c :: cs ++ rest := rfl
    rw [lexeme_of_munch hcs (hmunch hrest), hk]
    · rfl
    · rintro - hstar
      rcases hrest with rfl | ⟨v, rfl⟩
      · cases hstar
      · cases hstar

end Locality

end MiniC.Lexer
