import MiniC.Proofs.Token.Munch
/-!
Numbers with a point. Main statements: a fraction, and a number with a point, is the longest text that a
rule accepts there.
-/
namespace MiniC.Lexer

open Computability Literal

/-! What may follow the digits behind a point. -/

section RealEnds

variable {c : Char} {u w : List Char}

def Suffixed (s : List Char) : Prop := s = [] ∨ ∃ c, s = [c] ∧ isRealSuffix c = true

theorem mem_realEnd : w ∈ realEnd ↔ ∃ x s, w = x ++ s ∧ (x = [] ∨ x ∈ exponent) ∧ Suffixed s := by
  rw [realEnd, Language.mem_mul]
  simp only [mem_optional, mem_one]
  constructor
  · rintro ⟨x, hx, s, hs, rfl⟩
    exact ⟨x, s, rfl, hx, hs⟩
  · rintro ⟨x, s, rfl, hx, hs⟩
    exact ⟨x, hx, s, hs, rfl⟩

theorem not_isDigit_of_isExponentMark (h : isExponentMark c = true) : c.isDigit = false := by
  obtain rfl | rfl : c = 'e' ∨ c = 'E' := by simpa [isExponentMark] using h
  all_goals decide

theorem not_isDigit_of_isSign (h : isSign c = true) : c.isDigit = false := by
  obtain rfl | rfl : c = '+' ∨ c = '-' := by simpa [isSign] using h
  all_goals decide

theorem not_isDigit_of_isRealSuffix (h : isRealSuffix c = true) : c.isDigit = false := by
  obtain rfl | rfl | rfl | rfl : c = 'f' ∨ c = 'F' ∨ c = 'l' ∨ c = 'L' := by
    simpa [isRealSuffix, or_assoc] using h
  all_goals decide

theorem not_isExponentMark_of_isRealSuffix (h : isRealSuffix c = true) : isExponentMark c = false := by
  obtain rfl | rfl | rfl | rfl : c = 'f' ∨ c = 'F' ∨ c = 'l' ∨ c = 'L' := by
    simpa [isRealSuffix, or_assoc] using h
  all_goals decide

theorem stops_of_suffixed {s : List Char} (h : Suffixed s) : Stops Char.isDigit s := by
  rcases h with rfl | ⟨c, rfl, hc⟩
  · exact stops_nil _
  · exact stops_cons.mpr (not_isDigit_of_isRealSuffix hc)

theorem stops_of_mem_realEnd (h : w ∈ realEnd) : Stops Char.isDigit w := by
  obtain ⟨x, s, rfl, rfl | hx, hs⟩ := mem_realEnd.mp h
  · exact stops_of_suffixed hs
  · obtain ⟨e, sign, ds, rfl, he, -⟩ := mem_exponent.mp hx
    exact stops_cons.mpr (not_isDigit_of_isExponentMark he)

/-- The parts of an exponent with everything behind it. -/
structure IsExponent (e : Char) (sign ds t : List Char) : Prop where
  mark : isExponentMark e = true
  sign : sign = [] ∨ ∃ c, sign = [c] ∧ isSign c = true
  nonempty : ds ≠ []
  digits : Digits ds
  stops : Stops Char.isDigit t

theorem exponentLength_eq {e : Char} {sign ds t : List Char} (h : IsExponent e sign ds t) :
    exponentLength (e :: (sign ++ (ds ++ t))) = 1 + sign.length + ds.length := by
  have he : (decide (e = 'e') || decide (e = 'E')) = true := h.mark
  have hrun := runLength_eq h.digits h.stops
  have hpos : ds.length ≠ 0 := fun hzero => h.nonempty (List.length_eq_zero_iff.mp hzero)
  rcases h.sign with rfl | ⟨c, rfl, hc⟩
  · cases ds with
    | nil => exact absurd rfl h.nonempty
    | cons d ds =>
      have hd : ¬ (decide (d = '+') || decide (d = '-')) = true := by
        intro hd
        have hdigit := h.digits d List.mem_cons_self
        rw [not_isDigit_of_isSign hd] at hdigit
        cases hdigit
      simp only [exponentLength, List.nil_append, List.cons_append] at hrun ⊢
      rw [if_pos he, if_neg hd, hrun, if_neg hpos]
      simp [Nat.add_comm]
  · have hsign : (decide (c = '+') || decide (c = '-')) = true := hc
    simp only [exponentLength, List.singleton_append]
    rw [if_pos he, if_pos hsign, hrun, if_neg hpos]
    simp [Nat.add_comm]

theorem mem_exponent_of_length (h : exponentLength u ≠ 0) : ∃ x, x <+: u ∧ x ∈ exponent := by
  have hrun {cs : List Char} {k : Nat}
      (hne : (if runLength Char.isDigit cs = 0 then 0 else runLength Char.isDigit cs + k) ≠ 0) :
      ∃ ds, ds <+: cs ∧ ds ≠ [] ∧ Digits ds := by
    refine ⟨cs.takeWhile Char.isDigit, List.takeWhile_prefix _, ?_, fun c hc => List.mem_takeWhile_imp hc⟩
    intro hnil
    exact hne (if_pos (by rw [runLength, hnil]; rfl))
  unfold exponentLength at h
  split at h
  case h_2 => exact absurd rfl h
  rename_i e rest
  split at h
  case isFalse => exact absurd rfl h
  rename_i he
  split at h
  case h_2 => exact absurd rfl h
  rename_i s digits
  split at h
  · rename_i hs
    obtain ⟨ds, hfits, hne, hds⟩ := hrun h
    exact ⟨e :: s :: ds, List.cons_prefix_cons.mpr ⟨rfl, List.cons_prefix_cons.mpr ⟨rfl, hfits⟩⟩,
      mem_exponent.mpr ⟨e, [s], ds, rfl, he, .inr ⟨s, rfl, hs⟩, hne, hds⟩⟩
  · obtain ⟨ds, hfits, hne, hds⟩ := hrun h
    exact ⟨e :: ds, List.cons_prefix_cons.mpr ⟨rfl, hfits⟩,
      mem_exponent.mpr ⟨e, [], ds, rfl, he, .inl rfl, hne, hds⟩⟩

theorem exponent_cases (u : List Char) :
    (∃ e sign ds t, u = e :: (sign ++ (ds ++ t)) ∧ IsExponent e sign ds t) ∨
      (exponentLength u = 0 ∧ ∀ x, x <+: u → x ∉ exponent) := by
  by_cases h : ∃ x, x <+: u ∧ x ∈ exponent
  · left
    obtain ⟨x, ⟨more, rfl⟩, hx⟩ := h
    obtain ⟨e, sign, ds', rfl, he, hsign, hne, hds'⟩ := mem_exponent.mp hx
    obtain ⟨ds, t, heq, hds, ht⟩ := exists_run Char.isDigit (ds' ++ more)
    refine ⟨e, sign, ds, t, by simp [← heq], he, hsign, ?_, hds, ht⟩
    rintro rfl
    cases ds' with
    | nil => exact hne rfl
    | cons d ds' =>
      have hd := ht d (by rw [List.nil_append] at heq; rw [← heq]; rfl)
      rw [hds' d List.mem_cons_self] at hd
      cases hd
  · right
    refine ⟨?_, fun x hfits hx => h ⟨x, hfits, hx⟩⟩
    by_contra hne
    exact h (mem_exponent_of_length hne)

/-- Two exponents at one place have the same mark and the same sign. -/
theorem prefix_of_exponents {e e' : Char} {sign sign' ds ds' s' t : List Char} (h : IsExponent e sign ds t)
    (hsign' : sign' = [] ∨ ∃ c, sign' = [c] ∧ isSign c = true) (hne' : ds' ≠ []) (hds' : Digits ds')
    (hfits : e' :: (sign' ++ (ds' ++ s')) <+: e :: (sign ++ (ds ++ t))) :
    sign' = sign ∧ ds' ++ s' <+: ds ++ t := by
  have hrest := (List.cons_prefix_cons.mp hfits).2
  have hclash {c : Char} (hc : isSign c = true) (hd : c.isDigit = true) : False := by
    rw [not_isDigit_of_isSign hc] at hd
    cases hd
  obtain ⟨d, ds, rfl⟩ := List.exists_cons_of_ne_nil h.nonempty
  obtain ⟨d', ds', rfl⟩ := List.exists_cons_of_ne_nil hne'
  have hd := h.digits d List.mem_cons_self
  have hd' := hds' d' List.mem_cons_self
  rcases hsign' with rfl | ⟨c', rfl, hc'⟩ <;> rcases h.sign with rfl | ⟨c, rfl, hc⟩
  · exact ⟨rfl, hrest⟩
  · obtain rfl : d' = c := (List.cons_prefix_cons.mp hrest).1
    exact (hclash hc hd').elim
  · obtain rfl : c' = d := (List.cons_prefix_cons.mp hrest).1
    exact (hclash hc' hd).elim
  · obtain ⟨rfl, hdigits⟩ := List.cons_prefix_cons.mp hrest
    exact ⟨rfl, hdigits⟩

theorem exists_suffix (u : List Char) : ∃ s more, u = s ++ more ∧ Suffixed s ∧
    realSuffixLength u = s.length ∧ ∀ s', s' <+: u → Suffixed s' → s'.length ≤ s.length := by
  cases u with
  | nil =>
    refine ⟨[], [], rfl, .inl rfl, rfl, fun s' hfits _ => ?_⟩
    rw [List.prefix_nil.mp hfits]
  | cons c u =>
    by_cases hc : isRealSuffix c = true
    · refine ⟨[c], u, rfl, .inr ⟨c, rfl, hc⟩, ?_, ?_⟩
      · exact if_pos (by simpa [isRealSuffix, or_assoc] using hc)
      · rintro s' - (rfl | ⟨c', rfl, -⟩)
        · exact Nat.zero_le _
        · exact Nat.le_refl _
    · refine ⟨[], c :: u, rfl, .inl rfl, ?_, ?_⟩
      · exact if_neg (by simpa [isRealSuffix, or_assoc] using hc)
      · rintro s' hfits (rfl | ⟨c', rfl, hc'⟩)
        · exact Nat.le_refl _
        · obtain rfl := (List.cons_prefix_cons.mp hfits).1
          exact absurd hc' hc

/-- The scanner takes the longest of what may follow. -/
theorem exists_realEnd (u : List Char) : ∃ e more, u = e ++ more ∧ e ∈ realEnd ∧ realTail u = e.length ∧
    ∀ e', e' <+: u → e' ∈ realEnd → e'.length ≤ e.length := by
  rcases exponent_cases u with ⟨e, sign, ds, t, rfl, h⟩ | ⟨hzero, hnone⟩
  · obtain ⟨s, more, rfl, hs, hlength, hlongest⟩ := exists_suffix t
    have hx : e :: (sign ++ ds) ∈ exponent :=
      mem_exponent.mpr ⟨e, sign, ds, rfl, h.mark, h.sign, h.nonempty, h.digits⟩
    refine ⟨e :: (sign ++ ds) ++ s, more, by simp, mem_realEnd.mpr ⟨_, s, rfl, .inr hx, hs⟩, ?_, ?_⟩
    · have hsplit : e :: (sign ++ (ds ++ (s ++ more))) = e :: (sign ++ ds) ++ (s ++ more) := by simp
      have htotal : 1 + sign.length + ds.length = (e :: (sign ++ ds)).length := by simp; omega
      rw [realTail, exponentLength_eq h, hsplit, htotal, List.drop_left, hlength, List.length_append]
    · intro w' hfits hw'
      obtain ⟨x', s', rfl, rfl | hx', hs'⟩ := mem_realEnd.mp hw'
      · have hone : s'.length ≤ 1 := by
          rcases hs' with rfl | ⟨c, rfl, -⟩ <;> simp
        simp only [List.nil_append, List.length_append, List.length_cons]
        omega
      · obtain ⟨e', sign', ds', rfl, -, hsign', hne', hds'⟩ := mem_exponent.mp hx'
        rw [List.cons_append, List.append_assoc] at hfits
        obtain ⟨rfl, hrest⟩ := prefix_of_exponents h hsign' hne' hds' hfits
        simp only [List.length_append, List.length_cons]
        rcases run_within h.digits h.stops hds' (stops_of_suffixed hs') hrest with ⟨rfl, hle⟩ | ⟨rfl, htail⟩
        · simp only [List.length_nil]
          omega
        · have hle := hlongest s' htail hs'
          omega
  · obtain ⟨s, more, rfl, hs, hlength, hlongest⟩ := exists_suffix u
    refine ⟨s, more, rfl, mem_realEnd.mpr ⟨[], s, rfl, .inl rfl, hs⟩, ?_, ?_⟩
    · rw [realTail, hzero, List.drop_zero, hlength, Nat.zero_add]
    · intro w' hfits hw'
      obtain ⟨x', s', rfl, rfl | hx', hs'⟩ := mem_realEnd.mp hw'
      · exact hlongest s' hfits hs'
      · exact absurd hx' (hnone x' ((List.prefix_append _ _).trans hfits))

/-- Digits and what may follow them. -/
theorem length_le_of_fraction {fs fs' e e' more : List Char} (hfs : Digits fs)
    (hstops : Stops Char.isDigit (e ++ more))
    (hlongest : ∀ e', e' <+: e ++ more → e' ∈ realEnd → e'.length ≤ e.length) (hfs' : Digits fs')
    (he' : e' ∈ realEnd) (hfits : fs' ++ e' <+: fs ++ (e ++ more)) :
    (fs' ++ e').length ≤ (fs ++ e).length := by
  rw [List.length_append, List.length_append]
  rcases run_within hfs hstops hfs' (stops_of_mem_realEnd he') hfits with ⟨rfl, hle⟩ | ⟨rfl, hrest⟩
  · simp only [List.length_nil]
    omega
  · have hle := hlongest e' hrest he'
    omega

end RealEnds

/-! Fractions. -/

section Fractions

variable {d : Char} {cs w : List Char} {R : Rule}

theorem lexeme_of_fraction (hd : d.isDigit = true) (cs : List Char) {total : Nat}
    (htotal : runLength Char.isDigit (d :: cs) +
      realTail ((d :: cs).drop (runLength Char.isDigit (d :: cs))) = total) :
    lexeme '.' (d :: cs) = .token (.real (String.ofList ('.' :: (d :: cs).take total))) total := by
  subst htotal
  show (if d.isDigit = true then _ else _) = _
  rw [if_pos hd]

/-- Of what starts with a point, only the point itself and fractions stand before a digit. -/
theorem fraction_cases (hd : d.isDigit = true) (hfits : w <+: '.' :: d :: cs) (h : w ∈ R.language) :
    R = .fraction ∨ w = ['.'] := by
  have hfamily : R.family = .other := family_of_fits hfits h
  cases R with
  | fraction => exact .inl rfl
  | lineComment =>
    obtain ⟨line, -, rfl⟩ := mem_exactly_mul.mp h
    exact absurd (List.cons_prefix_cons.mp hfits).1 (by decide)
  | blockComment =>
    obtain ⟨body, rfl, -⟩ := mem_blockComment.mp h
    exact absurd (List.cons_prefix_cons.mp hfits).1 (by decide)
  | punct p =>
    obtain rfl : w = p.chars := h
    right
    have hdot : p.chars = ['.'] ∨ p.chars.head? ≠ some '.' ∨ p.chars.tail.head? = some '.' := by
      cases p <;> decide
    rcases hdot with hdot | hdot | hdot
    · exact hdot
    · cases hp : p.chars with
      | nil => cases p <;> cases hp
      | cons c v =>
        rw [hp] at hdot hfits
        exact absurd (congrArg some (List.cons_prefix_cons.mp hfits).1) hdot
    · obtain ⟨v, hv⟩ := List.head?_eq_some_iff.mp hdot
      cases hp : p.chars with
      | nil => cases p <;> cases hp
      | cons c v' =>
        rw [hp, List.tail_cons] at hv
        rw [hp, hv] at hfits
        obtain rfl := (List.cons_prefix_cons.mp (List.cons_prefix_cons.mp hfits).2).1
        exact absurd hd (by decide)
  | _ => cases hfamily

theorem scans_fraction (hd : d.isDigit = true) (cs : List Char) : Scans '.' (d :: cs) := by
  obtain ⟨fs, u, heq, hfs, hstops⟩ := exists_run Char.isDigit (d :: cs)
  obtain ⟨e, more, rfl, he, htail, hlongest⟩ := exists_realEnd u
  have hne : fs ≠ [] := by
    rintro rfl
    rw [List.nil_append] at heq
    have hstop := hstops d (by rw [← heq]; rfl)
    rw [hd] at hstop
    cases hstop
  have hw : '.' :: (fs ++ e) ∈ Rule.fraction.language := mem_fraction.mpr ⟨fs, e, rfl, hne, hfs, he⟩
  have hsplit : '.' :: d :: cs = '.' :: (fs ++ e) ++ more := by rw [heq]; simp
  have hmunch : Munch ('.' :: (fs ++ e)) more .fraction := by
    refine ⟨hw, fun R' hR' => ?_, fun w' R' hfits hR' => ?_⟩
    · rcases fraction_cases hd (hsplit ▸ List.prefix_append _ _) hR' with rfl | hpoint
      · exact .inl rfl
      · exact absurd (List.append_eq_nil_iff.mp (List.cons.inj hpoint).2).1 hne
    · rw [← hsplit] at hfits
      rcases fraction_cases hd hfits hR' with rfl | rfl
      · obtain ⟨fs', e', rfl, -, hfs', he'⟩ := mem_fraction.mp hR'
        rw [heq] at hfits
        have hrest := (List.cons_prefix_cons.mp hfits).2
        exact Nat.succ_le_succ (length_le_of_fraction hfs hstops hlongest hfs' he' hrest)
      · exact Nat.succ_le_succ (Nat.zero_le _)
  refine .lexes _ ⟨_, more, hsplit, hmunch, ?_⟩
  have htotal : runLength Char.isDigit (d :: cs) +
      realTail ((d :: cs).drop (runLength Char.isDigit (d :: cs))) = (fs ++ e).length := by
    rw [heq, runLength_eq hfs hstops, List.drop_left, htail, List.length_append]
  rw [lexeme_of_fraction hd cs htotal, heq, ← List.append_assoc, List.take_left]
  rfl

end Fractions

/-! Numbers with a point. -/

section Reals

variable {c : Char} {w ds t : List Char} {R : Rule}

theorem isWordRest_of_isDigit (h : c.isDigit = true) : isWordRest c = true := by simp [isWordRest, h]

theorem isWordRest_of_isSuffix (h : isSuffix c = true) : isWordRest c = true := by
  obtain rfl | rfl | rfl | rfl : c = 'u' ∨ c = 'U' ∨ c = 'l' ∨ c = 'L' := by
    simpa [isSuffix, or_assoc] using h
  all_goals decide

theorem isWordRest_of_isHex (h : isHex c = true) : isWordRest c = true := by
  have hlower {d : Char} (h : 'a' ≤ d ∧ d ≤ 'f') : 'a' ≤ d ∧ d ≤ 'z' :=
    ⟨h.1, Char.le_trans h.2 (by decide)⟩
  have hupper {d : Char} (h : 'A' ≤ d ∧ d ≤ 'F') : 'A' ≤ d ∧ d ≤ 'Z' :=
    ⟨h.1, Char.le_trans h.2 (by decide)⟩
  simp only [isHex, Bool.or_eq_true, Bool.and_eq_true, decide_eq_true_eq] at h
  simp only [isWordRest, isWordStart, Bool.or_eq_true, Bool.and_eq_true, decide_eq_true_eq]
  rcases h with (h | h) | h
  · exact .inr h
  · exact .inl (.inl (.inl (hlower h)))
  · exact .inl (.inl (.inr (hupper h)))

theorem isDigit_of_isBinary (h : isBinary c = true) : c.isDigit = true := by
  obtain rfl | rfl : c = '0' ∨ c = '1' := by simpa [isBinary] using h
  all_goals decide

theorem isWordRest_of_marked {mark digit : Char → Bool} (hmark : ∀ c, mark c = true → isWordRest c = true)
    (hdigit : ∀ c, digit c = true → isWordRest c = true) (h : w ∈ marked mark digit) :
    ∀ c ∈ w, isWordRest c = true := by
  obtain ⟨x, ds, s, rfl, hx, -, hds, hs⟩ := mem_marked.mp h
  intro c hc
  rcases List.mem_cons.mp hc with rfl | hc
  · decide
  · rcases List.mem_cons.mp hc with rfl | hc
    · exact hmark _ hx
    · rcases List.mem_append.mp hc with hc | hc
      · exact hdigit c (hds c hc)
      · exact isWordRest_of_isSuffix (hs c hc)

theorem mem_decimal_of_octal (h : w ∈ Rule.octal.language) : w ∈ Rule.decimal.language := by
  obtain ⟨ds, s, rfl, -, hds, hs⟩ := mem_octal.mp h
  refine mem_decimal.mpr ⟨'0' :: ds, s, rfl, List.cons_ne_nil _ _, ?_, hs⟩
  exact List.forall_mem_cons.mpr ⟨by decide, fun c hc => isDigit_of_isOctal (hds c hc)⟩

theorem isHexMark_iff : isHexMark c = true ↔ c = 'x' ∨ c = 'X' := by simp [isHexMark]

theorem isBinaryMark_iff : isBinaryMark c = true ↔ c = 'b' ∨ c = 'B' := by simp [isBinaryMark]

/-- An integer is written like a word, a number with a point is not. -/
theorem number_cases (hR : R.family = .number) (h : w ∈ R.language) :
    R = .real ∨ ∀ c ∈ w, isWordRest c = true := by
  have hdecimal (h : w ∈ Rule.decimal.language) : ∀ c ∈ w, isWordRest c = true := by
    obtain ⟨ds, s, rfl, -, hds, hs⟩ := mem_decimal.mp h
    intro c hc
    rcases List.mem_append.mp hc with hc | hc
    · exact isWordRest_of_isDigit (hds c hc)
    · exact isWordRest_of_isSuffix (hs c hc)
  cases R with
  | hexadecimal =>
    refine .inr (isWordRest_of_marked (fun c hc => ?_) (fun c hc => isWordRest_of_isHex hc) h)
    rcases isHexMark_iff.mp hc with rfl | rfl <;> decide
  | binary =>
    refine .inr (isWordRest_of_marked (fun c hc => ?_)
      (fun c hc => isWordRest_of_isDigit (isDigit_of_isBinary hc)) h)
    rcases isBinaryMark_iff.mp hc with rfl | rfl <;> decide
  | octal => exact .inr (hdecimal (mem_decimal_of_octal h))
  | decimal => exact .inr (hdecimal h)
  | real => exact .inl rfl
  | _ => cases hR

theorem number_of_point (hds : Digits ds) (f : List Char) {total : Nat}
    (htotal : ds.length + 1 + runLength Char.isDigit f + realTail (f.drop (runLength Char.isDigit f)) = total)
    {d : Char} {cs : List Char} (hcs : d :: cs = ds ++ '.' :: f) :
    number d cs = .token (.real (String.ofList ((ds ++ '.' :: f).take total))) (total - 1) := by
  have hrun : runLength Char.isDigit (ds ++ '.' :: f) = ds.length :=
    runLength_eq hds (stops_cons.mpr (by decide))
  subst htotal
  unfold number
  simp only [hcs, hrun, List.drop_left]

theorem scans_real {d : Char} {cs f : List Char} (hds : Digits ds) (hne : ds ≠ [])
    (hcs : d :: cs = ds ++ '.' :: f) (hd : d.isDigit = true) : Scans d cs := by
  obtain ⟨fs, u, rfl, hfs, hstops⟩ := exists_run Char.isDigit f
  obtain ⟨e, more, rfl, he, htail, hlongest⟩ := exists_realEnd u
  have hpoint : Stops Char.isDigit ('.' :: (fs ++ (e ++ more))) := stops_cons.mpr (by decide)
  have hwords : Stops isWordRest ('.' :: (fs ++ (e ++ more))) := stops_cons.mpr (by decide)
  have hw : ds ++ '.' :: (fs ++ e) ∈ Rule.real.language := mem_real.mpr ⟨ds, fs, e, rfl, hne, hds, hfs, he⟩
  have hsplit : ds ++ '.' :: (fs ++ (e ++ more)) = ds ++ '.' :: (fs ++ e) ++ more := by simp
  have hmunch : Munch (ds ++ '.' :: (fs ++ e)) more .real := by
    refine .of_family hw (fun R' hfamily hR' => ?_) (fun w' R' hfamily hfits hR' => ?_)
    · rcases number_cases hfamily hR' with rfl | hwordRest
      · exact .inl rfl
      · exact absurd (hwordRest '.' (by simp)) (by decide)
    · rw [← hsplit] at hfits
      rcases number_cases hfamily hR' with rfl | hwordRest
      · obtain ⟨ds', fs', e', rfl, -, hds', hfs', he'⟩ := mem_real.mp hR'
        rcases run_within hds hpoint hds' (stops_cons.mpr (by decide)) hfits with ⟨hnil, -⟩ | ⟨rfl, hrest⟩
        · cases hnil
        · have hle := length_le_of_fraction hfs hstops hlongest hfs' he' (List.cons_prefix_cons.mp hrest).2
          simp only [List.length_append, List.length_cons] at hle ⊢
          omega
      · have hle := length_le_of_fits (fun c hc => isWordRest_of_isDigit (hds c hc)) hwords hwordRest hfits
        rw [List.length_append]
        omega
  refine .lexes _ ⟨_, more, hcs.trans hsplit, hmunch, ?_⟩
  have htotal : ds.length + 1 + runLength Char.isDigit (fs ++ (e ++ more)) +
      realTail ((fs ++ (e ++ more)).drop (runLength Char.isDigit (fs ++ (e ++ more)))) =
        (ds ++ '.' :: (fs ++ e)).length := by
    rw [runLength_eq hfs hstops, List.drop_left, htail]
    simp only [List.length_append, List.length_cons]
    omega
  rw [lexeme_of_isDigit hd, number_of_point hds _ htotal hcs, hsplit, List.take_left]
  rfl

end Reals

end MiniC.Lexer
