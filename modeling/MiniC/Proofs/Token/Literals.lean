import MiniC.Proofs.Token.Partition
/-!
What literals spell. Main statement: numbers in four radixes, strings of octal escapes and characters of one
escape are single tokens, and have the values that they are written for.
-/
namespace MiniC.Lexer

open Computability Literal

/-! Digits. -/

/-- The digits of a number, perhaps with zeros in front, in any letter case. -/
def Denotes (radix n : Nat) (ds : List Char) : Prop :=
  ∃ zeros, ds.map Char.toLower = List.replicate zeros '0' ++ Nat.toDigits radix n

/-- How a number is written in a source. -/
inductive Numeral (n : Nat) : List Char → Prop where
  | decimal : Numeral n (Nat.toDigits 10 n)
  | hexadecimal {x : Char} {ds : List Char} (hx : x = 'x' ∨ x = 'X') (hds : Denotes 16 n ds) :
      Numeral n ('0' :: x :: ds)
  | binary {x : Char} {ds : List Char} (hx : x = 'b' ∨ x = 'B') (hds : Denotes 2 n ds) :
      Numeral n ('0' :: x :: ds)
  | octal {ds : List Char} (hds : Denotes 8 n ds) : Numeral n ('0' :: ds)

section Digits

variable {radix n k : Nat} {c : Char} {ds s w : List Char}

theorem toNat_lt_of_toLower (h : c.toLower.toNat < 128) : c.toNat < 128 := by
  unfold Char.toLower at h
  split at h
  · rename_i hupper
    exact Nat.lt_of_le_of_lt (UInt32.le_iff_toNat_le.mp hupper.2) (by decide)
  · exact h

/-- What a character is that is a digit in lower case. -/
structure DigitOf (c : Char) (k : Nat) : Prop where
  ascii : c.toNat < 128
  value : digit c = k
  hex : isHex c = true
  octal : k < 8 → isOctal c = true
  binary : k < 2 → isBinary c = true

theorem isDigit_of_toLower (hk : k < 16) (h : c.toLower = Nat.digitChar k) : DigitOf c k := by
  have hall : ∀ n : Fin 128, ∀ k : Fin 16, (Char.ofNat n).toLower = Nat.digitChar k →
      digit (Char.ofNat n) = k ∧ isHex (Char.ofNat n) = true ∧
        (k.val < 8 → isOctal (Char.ofNat n) = true) ∧ (k.val < 2 → isBinary (Char.ofNat n) = true) := by
    decide +kernel
  have hdigits : ∀ k : Fin 16, (Nat.digitChar k).toNat < 128 := by decide
  have hascii : c.toNat < 128 := toNat_lt_of_toLower (h ▸ hdigits ⟨k, hk⟩)
  obtain ⟨hvalue, hhex, hoctal, hbinary⟩ := hall ⟨c.toNat, hascii⟩ ⟨k, hk⟩ (by rwa [Char.ofNat_toNat])
  rw [Char.ofNat_toNat] at hvalue hhex hoctal hbinary
  exact ⟨hascii, hvalue, hhex, hoctal, hbinary⟩

theorem ofDigits_concat (radix : Nat) (ds : List Char) (c : Char) :
    ofDigits radix (ds ++ [c]) = radix * ofDigits radix ds + digit c := by
  rw [ofDigits, List.foldl_append]
  rfl

/-- By induction on the number, from its last digit. -/
theorem ofDigits_of_map (hradix : 1 < radix) (hmost : radix ≤ 16)
    (h : ds.map Char.toLower = Nat.toDigits radix n) :
    ofDigits radix ds = n ∧ ds ≠ [] ∧ ∀ c ∈ ds, ∃ k < radix, DigitOf c k := by
  induction n using Nat.strongRecOn generalizing ds with
  | ind n ih =>
    by_cases hn : n < radix
    · rw [Nat.toDigits_of_lt_base hn] at h
      obtain ⟨c, rfl, hc⟩ := List.map_eq_singleton_iff.mp h
      have hdigit := isDigit_of_toLower (hn.trans_le hmost) hc
      refine ⟨?_, List.cons_ne_nil _ _, List.forall_mem_singleton.mpr ⟨n, hn, hdigit⟩⟩
      exact (ofDigits_concat radix [] c).trans (by rw [hdigit.value]; exact Nat.zero_add n)
    · rw [Nat.toDigits_of_base_le hradix (Nat.le_of_not_lt hn)] at h
      obtain ⟨front, last, rfl, hfront, hlast⟩ := List.map_eq_append_iff.mp h
      obtain ⟨c, rfl, hc⟩ := List.map_eq_singleton_iff.mp hlast
      have hlt : n % radix < radix := Nat.mod_lt n (by omega)
      have hdigit := isDigit_of_toLower (hlt.trans_le hmost) hc
      obtain ⟨hvalue, -, hall⟩ := ih (n / radix) (Nat.div_lt_self (by omega) hradix) hfront
      refine ⟨?_, List.append_ne_nil_of_right_ne_nil _ (List.cons_ne_nil _ _), fun d hd => ?_⟩
      · rw [ofDigits_concat, hvalue, hdigit.value, Nat.div_add_mod]
      · rcases List.mem_append.mp hd with hd | hd
        · exact hall d hd
        · obtain rfl := List.mem_singleton.mp hd
          exact ⟨_, hlt, hdigit⟩

theorem ofDigits_zeros {zs : List Char} (hzs : ∀ c ∈ zs, digit c = 0) (ds : List Char) :
    ofDigits radix (zs ++ ds) = ofDigits radix ds := by
  induction zs with
  | nil => rfl
  | cons z zs ih =>
    obtain ⟨hz, hzs⟩ := List.forall_mem_cons.mp hzs
    rw [← ih hzs, ofDigits, List.cons_append, List.foldl_cons, hz]
    rfl

theorem Denotes.value (hradix : 1 < radix) (hmost : radix ≤ 16) (h : Denotes radix n ds) :
    ofDigits radix ds = n ∧ ds ≠ [] ∧ ∀ c ∈ ds, ∃ k < radix, DigitOf c k := by
  obtain ⟨zeros, h⟩ := h
  obtain ⟨zs, digits, rfl, hzs, hdigits⟩ := List.map_eq_append_iff.mp h
  have hzero : ∀ c ∈ zs, DigitOf c 0 := by
    intro c hc
    have hmem : c.toLower ∈ List.replicate zeros '0' := hzs ▸ List.mem_map_of_mem hc
    exact isDigit_of_toLower (by decide) (List.eq_of_mem_replicate hmem)
  obtain ⟨hvalue, hne, hall⟩ := ofDigits_of_map hradix hmost hdigits
  refine ⟨?_, List.append_ne_nil_of_right_ne_nil _ hne, fun c hc => ?_⟩
  · rw [ofDigits_zeros fun c hc => (hzero c hc).value, hvalue]
  · rcases List.mem_append.mp hc with hc | hc
    · exact ⟨0, by omega, hzero c hc⟩
    · exact hall c hc

end Digits

/-! A text that is one token. -/

/-- The tokens of a text that is a literal, or the error where it has no value. -/
def single (w : List Char) : Option TokenKind → Except LexError (List Token)
  | some kind => .ok [⟨kind, ⟨0, Bytes.lengthOf w⟩⟩, ⟨.eof, ⟨Bytes.lengthOf w, Bytes.lengthOf w⟩⟩]
  | none => .error ⟨String.ofList w, ⟨0, Bytes.lengthOf w⟩⟩

theorem tokens_of_munch {w : List Char} {R : Rule} (h : Munch w [] R) {kind : Option TokenKind}
    (hreading : R.reading w = (Lexeme.valued kind 0).reading) : tokens (String.ofList w) = single w kind := by
  obtain ⟨c, v, rfl, -⟩ := family_of_mem h.accepts
  have hlexeme : lexeme c (v ++ []) = ⟨R.reading (c :: v), v.length⟩ :=
    lexeme_of_munch rfl h fun _ => nofun
  have hsteps := @stepsFrom_lexes 0 _ _ _ _ hlexeme
  rw [List.append_nil, Nat.zero_add, hreading, stepsFrom.eq_1] at hsteps
  rw [tokens, steps, String.toList_ofList, hsteps]
  cases kind <;> rfl

/-! Numbers. -/

section Numbers

variable {n : Nat} {ds s w : List Char}

theorem stops_isHex (hs : ∀ c ∈ s, isSuffix c = true) : Stops isHex (s ++ []) := by
  rw [List.append_nil]
  exact .of_all hs fun _ => not_isHex_of_isSuffix

theorem stops_isBinary (hs : ∀ c ∈ s, isSuffix c = true) : Stops isBinary (s ++ []) := by
  rw [List.append_nil]
  exact .of_all hs fun _ => not_isBinary_of_isSuffix

/-- Among digits and suffixes there is no mark. -/
theorem notMem_marked {mark digit : Char → Bool}
    (hmark : ∀ x, mark x = true → isHexMark x = true ∨ isBinaryMark x = true) (hds : Digits ds)
    (hs : ∀ c ∈ s, isSuffix c = true) (hfits : w <+: ds ++ (s ++ [])) : w ∉ marked mark digit := by
  intro hw
  obtain ⟨x, v, u, rfl, hx, -⟩ := mem_marked.mp hw
  obtain ⟨hdigit, hsuffix, -⟩ := mark_cases (hmark x hx)
  have hmem : x ∈ ds ++ (s ++ []) := hfits.subset (by simp)
  rw [List.append_nil] at hmem
  rcases List.mem_append.mp hmem with hmem | hmem
  · rw [hds x hmem] at hdigit
    cases hdigit
  · rw [hs x hmem] at hsuffix
    cases hsuffix

theorem munch_digits (hds : Digits ds) (hne : ds ≠ []) (hs : ∀ c ∈ s, isSuffix c = true) :
    Munch (ds ++ s) [] (plainRule ds) := by
  refine munch_plain hds hne hs (stops_nil _) ?_ ?_ (fun w hw => ?_) (fun w hw => ?_)
  · rw [List.append_nil]
    refine .of_all hs fun c hc => ?_
    obtain rfl | rfl | rfl | rfl : c = 'u' ∨ c = 'U' ∨ c = 'l' ∨ c = 'L' := by
      simpa [isSuffix, or_assoc] using hc
    all_goals decide
  · rw [List.append_nil]
    exact stops_suffixes hs
  · exact notMem_marked (fun x => .inl) hds hs hw
  · exact notMem_marked (fun x => .inr) hds hs hw

/-- Every way to write a number is the text of one rule, which reads the number. -/
theorem munch_numeral (h : Numeral n ds) (hs : ∀ c ∈ s, isSuffix c = true) : ∃ R : Rule,
    Munch (ds ++ s) [] R ∧ R.reading (ds ++ s) = (Lexeme.valued ((word? n).map .integer) 0).reading := by
  cases h with
  | decimal =>
    have hds : Digits (Nat.toDigits 10 n) := fun c hc =>
      Nat.isDigit_of_mem_toDigits (by decide) (by decide) hc
    obtain ⟨d, v, heq, hzero⟩ := toDigits_eq_cons n
    have hne : Nat.toDigits 10 n ≠ [] := heq ▸ List.cons_ne_nil _ _
    refine ⟨_, munch_digits hds hne hs, ?_⟩
    have hplain : plainRule (Nat.toDigits 10 n) = .decimal := by
      rcases plainRule_cases (Nat.toDigits 10 n) with ⟨x, v', hoctal, -⟩ | ⟨hplain, -⟩
      · -- only zero begins with a zero, and it has one digit
        obtain ⟨rfl, rfl⟩ := List.cons.inj (heq.symm.trans hoctal)
        obtain rfl : n = 0 := by
          by_contra hn
          exact hzero hn rfl
        cases hoctal
      · exact hplain
    rw [hplain]
    have hreading : Rule.number 10 0 (Nat.toDigits 10 n ++ s) =
        (Lexeme.valued ((word? (ofDigits 10 (Nat.toDigits 10 n))).map .integer) 0).reading :=
      number_append (fun c hc => not_isSuffix_of_isDigit (hds c hc)) hs
    rw [ofDigits_toDigits] at hreading
    exact hreading
  | @hexadecimal x ds hx hds =>
    obtain ⟨hvalue, hne, hall⟩ := hds.value (by decide) (by decide)
    have hmark : isHexMark x = true := isHexMark_iff.mpr hx
    have hhex : ∀ c ∈ ds, isHex c = true := fun c hc =>
      have ⟨k, _, hk⟩ := hall c hc
      hk.hex
    refine ⟨.hexadecimal, munch_hexadecimal hmark hne hhex (stops_isHex hs) hs (stops_nil _), ?_⟩
    rw [← hvalue]
    exact number_marked (.inl hmark) (fun c hc => not_isSuffix_of_isHex (hhex c hc)) hs
  | @binary x ds hx hds =>
    obtain ⟨hvalue, hne, hall⟩ := hds.value (by decide) (by decide)
    have hmark : isBinaryMark x = true := isBinaryMark_iff.mpr hx
    have hbinary : ∀ c ∈ ds, isBinary c = true := fun c hc =>
      have ⟨k, hlt, hk⟩ := hall c hc
      hk.binary hlt
    refine ⟨.binary, munch_binary hmark hne hbinary (stops_isBinary hs) hs (stops_nil _), ?_⟩
    rw [← hvalue]
    exact number_marked (.inr hmark)
      (fun c hc => not_isSuffix_of_isDigit (isDigit_of_isBinary (hbinary c hc))) hs
  | @octal ds hds =>
    obtain ⟨hvalue, hne, hall⟩ := hds.value (by decide) (by decide)
    have hoctal : ∀ c ∈ ds, isOctal c = true := fun c hc =>
      have ⟨k, hlt, hk⟩ := hall c hc
      hk.octal hlt
    have hdigits : Digits ('0' :: ds) :=
      List.forall_mem_cons.mpr ⟨by decide, fun c hc => isDigit_of_isOctal (hoctal c hc)⟩
    have hplain : plainRule ('0' :: ds) = .octal :=
      plainRule_of_octal hdigits hs (mem_octal.mpr ⟨ds, s, rfl, hne, hoctal, hs⟩)
    have hmunch := munch_digits hdigits (List.cons_ne_nil _ _) hs
    rw [hplain] at hmunch
    refine ⟨.octal, hmunch, ?_⟩
    rw [← hvalue]
    have hreading : Rule.number 8 1 ('0' :: ds ++ s) =
        (Lexeme.valued ((word? (ofDigits 8 ds)).map .integer) 0).reading :=
      number_append (fun c hc => not_isSuffix_of_isDigit (hdigits c hc)) hs
    exact hreading

end Numbers

/-! Escapes. -/

section Escapes

variable {quote d : Char} {b : UInt8} {cs ds : List Char}

theorem mem_quotable_plain (h : ∀ c ∈ cs, c ≠ quote ∧ c ≠ '\\') : cs ∈ quotable quote := by
  induction cs with
  | nil => exact Language.nil_mem_kstar _
  | cons c cs ih =>
    obtain ⟨hc, hcs⟩ := List.forall_mem_cons.mp h
    exact append_mem_kstar (w := [c]) (.inl ⟨c, rfl, by simp [hc.1, hc.2]⟩) (ih hcs)

theorem mem_quotable_escape (hd : d ≠ '\n') (h : cs ∈ quotable quote) : '\\' :: d :: cs ∈ quotable quote :=
  append_mem_kstar (w := ['\\', d]) (.inr (mem_exactly_mul.mpr ⟨[d], ⟨d, rfl, by simpa using hd⟩, rfl⟩)) h

theorem append_mem_quotable {cs' : List Char} (h : cs ∈ quotable quote) (h' : cs' ∈ quotable quote) :
    cs ++ cs' ∈ quotable quote := by
  obtain ⟨units, rfl, hunits⟩ := Language.mem_kstar.mp h
  obtain ⟨units', rfl, hunits'⟩ := Language.mem_kstar.mp h'
  refine Language.mem_kstar.mpr ⟨units ++ units', List.flatten_append.symm, fun u hu => ?_⟩
  rcases List.mem_append.mp hu with hu | hu
  · exact hunits u hu
  · exact hunits' u hu

theorem ne_of_isHex {c : Char} (h : isHex c = true) : c ≠ '\x27' ∧ c ≠ '"' ∧ c ≠ '\\' ∧ c ≠ '\n' := by
  refine ⟨?_, ?_, ?_, ?_⟩
  all_goals
    rintro rfl
    exact absurd h (by decide)

theorem isHex_of_isDigit {c : Char} (h : c.isDigit = true) : isHex c = true := by
  simp [isHex, h]

theorem octals_mem_quotable (bs : List UInt8) : bs.flatMap TokenKind.octal ∈ quotable '"' := by
  induction bs with
  | nil => exact Language.nil_mem_kstar _
  | cons b bs ih =>
    obtain ⟨d, d', d'', heq, hd, hd', hd''⟩ := octal_eq b
    have hne {c : Char} (hc : isOctal c = true) := ne_of_isHex (isHex_of_isDigit (isDigit_of_isOctal hc))
    rw [List.flatMap_cons, heq]
    refine append_mem_quotable (mem_quotable_escape (hne hd).2.2.2 (mem_quotable_plain fun c hc => ?_)) ih
    rcases List.mem_cons.mp hc with rfl | hc
    · exact ⟨(hne hd').2.1, (hne hd').2.2.1⟩
    · obtain rfl := List.mem_singleton.mp hc
      exact ⟨(hne hd'').2.1, (hne hd'').2.2.1⟩

theorem toNat_byteChar (b : UInt8) : (byteChar b).toNat = b.toNat := by
  have hall : ∀ n : Fin 256, (byteChar (UInt8.ofFin n)).toNat = n.val := by decide +kernel
  exact hall b.toFin

/-- The byte of a character below 128. -/
def asciiByte (c : Char) : UInt8 := UInt8.ofNat c.toNat

theorem byteChar_asciiByte {c : Char} (h : c.toNat < 128) : byteChar (asciiByte c) = c := by
  rw [byteChar, asciiByte, UInt8.toNat_ofNat', Nat.mod_eq_of_lt (by omega), Char.ofNat_toNat]

theorem bytesOf_ascii (h : ∀ c ∈ cs, c.toNat < 128) : bytesOf cs = cs.map asciiByte := by
  show Bytes.ofText (String.ofList cs) = _
  rw [Bytes.ofText_ofList, List.map_eq_flatMap]
  refine List.flatMap_congr fun c hc => ?_
  have hlt : asciiByte c < 128 := by
    have hc := h c hc
    rw [UInt8.lt_iff_toNat_lt, asciiByte, UInt8.toNat_ofNat', Nat.mod_eq_of_lt (by omega)]
    exact hc
  have hbyte := utf8EncodeChar_byteChar (asciiByte c)
  rw [byteChar_asciiByte (h c hc), stored, if_pos hlt] at hbyte
  exact hbyte

theorem run_ascii {p : Char → Bool} {limit : Nat} (hascii : ∀ c ∈ ds, c.toNat < 128)
    (hp : ∀ c ∈ ds, p c = true) (hlimit : ds.length ≤ limit) : run p limit (ds.map asciiByte) = ds := by
  have hall : ∀ b ∈ ds.map asciiByte, (p ∘ byteChar) b = true := by
    intro b hb
    obtain ⟨c, hc, rfl⟩ := List.mem_map.mp hb
    rw [Function.comp_apply, byteChar_asciiByte (hascii c hc)]
    exact hp c hc
  rw [run, List.take_of_length_le (by rwa [List.length_map]), List.takeWhile_eq_self_iff.mpr hall, List.map_map]
  refine (List.map_congr_left fun c hc => ?_).trans (List.map_id ds)
  exact byteChar_asciiByte (hascii c hc)

/-- One escape that is all of the literal. -/
theorem character?_escape (hascii : ∀ c ∈ cs, c.toNat < 128) {extra : Nat}
    (h : escape? (cs.map asciiByte) = some (b, extra)) (hextra : cs.length = extra + 1) :
    character? ('\\' :: cs) = some b := by
  have hbytes : bytesOf ('\\' :: cs) = backslash :: cs.map asciiByte :=
    bytesOf_ascii (List.forall_mem_cons.mpr ⟨by decide, hascii⟩)
  have hrest : ((cs.map asciiByte).drop 1).drop extra = [] := by
    rw [List.drop_drop, List.drop_eq_nil_of_le]
    rw [List.length_map, hextra, Nat.add_comm]
  rw [character?, hbytes, unescape?, if_pos rfl, h]
  simp only [hrest, unescape?.eq_1]
  rfl

theorem character?_octal (hlength : ds.length ≤ 3) (h : Denotes 8 b.toNat ds) :
    character? ('\\' :: ds) = some b := by
  obtain ⟨hvalue, hne, hall⟩ := h.value (by decide) (by decide)
  have hascii : ∀ c ∈ ds, c.toNat < 128 := fun c hc =>
    have ⟨k, _, hk⟩ := hall c hc
    hk.ascii
  have hoctal : ∀ c ∈ ds, isOctal c = true := fun c hc =>
    have ⟨k, hlt, hk⟩ := hall c hc
    hk.octal hlt
  obtain ⟨d, ds, rfl⟩ := List.exists_cons_of_ne_nil hne
  obtain ⟨hd, hds⟩ := List.forall_mem_cons.mp hoctal
  obtain ⟨hdascii, hdsascii⟩ := List.forall_mem_cons.mp hascii
  have hx : byteChar (asciiByte d) ≠ 'x' := by
    rw [byteChar_asciiByte hdascii]
    rintro rfl
    exact absurd hd (by decide)
  have hescape : escape? ((d :: ds).map asciiByte) = some (b, ds.length) := by
    rw [List.map_cons, escape?, if_neg hx, byteChar_asciiByte hdascii, if_pos hd,
      run_ascii hdsascii hds (Nat.le_of_succ_le_succ hlength)]
    simp only [hvalue, UInt8.ofNat_toNat]
  exact character?_escape hascii hescape rfl

theorem character?_hexadecimal (h : Denotes 16 b.toNat ds) : character? ('\\' :: 'x' :: ds) = some b := by
  obtain ⟨hvalue, hne, hall⟩ := h.value (by decide) (by decide)
  have hascii : ∀ c ∈ ds, c.toNat < 128 := fun c hc =>
    have ⟨k, _, hk⟩ := hall c hc
    hk.ascii
  have hhex : ∀ c ∈ ds, isHex c = true := fun c hc =>
    have ⟨k, _, hk⟩ := hall c hc
    hk.hex
  have hrun : run isHex (ds.map asciiByte).length (ds.map asciiByte) = ds :=
    run_ascii hascii hhex (by rw [List.length_map])
  have hescape : escape? (('x' :: ds).map asciiByte) = some (b, ds.length) := by
    rw [List.map_cons, escape?, if_pos (byteChar_asciiByte (by decide)), hrun]
    simp only [hvalue, UInt8.ofNat_toNat]
    exact if_neg (by simpa using hne)
  exact character?_escape (List.forall_mem_cons.mpr ⟨by decide, hascii⟩) hescape rfl

theorem tokens_character (hbody : cs ∈ quotable '\x27') (h : character? cs = some b) :
    tokens (String.ofList ('\x27' :: (cs ++ ['\x27']))) =
      single ('\x27' :: (cs ++ ['\x27'])) (some (.character b)) := by
  refine tokens_of_munch (munch_quoted (by decide) rfl only_character hbody) ?_
  rw [Rule.reading, between_quoted, h]
  rfl

end Escapes

/-! String literals of a source. -/

/-- A token of a source that is a string literal, and the bytes that the text between its quotes spells. -/
structure Quotes (source : String) (t : Token) (bytes : List UInt8) : Prop where
  read : .ok t ∈ steps source
  kind : t.kind = .string (textOf bytes)
  slice : ∃ front body back, source.toList = front ++ ('"' :: (body ++ ['"']) ++ back) ∧
    t.span = ⟨Bytes.lengthOf front, Bytes.lengthOf front + Bytes.lengthOf ('"' :: (body ++ ['"']))⟩ ∧
    unescape? (bytesOf body) = some bytes

section Strings

variable {c : Char} {w rest : List Char} {R : Rule} {text : String}

theorem valued_eq_ok {kind : Option TokenKind} {n : Nat} {k : TokenKind}
    (h : (Lexeme.valued kind n).reading = some (.ok k)) : kind = some k := by
  cases kind with
  | none => cases h
  | some kind =>
    cases h
    rfl

/-- What a literal between double quotes is read as. -/
def QuotesText (w : List Char) (text : String) : Prop :=
  ∃ body bytes, w = '"' :: (body ++ ['"']) ∧ unescape? (bytesOf body) = some bytes ∧ text = textOf bytes

/-- Only one rule reads a string. -/
theorem quotesText_of_reading (hw : w ∈ R.language) (h : R.reading w = some (.ok (.string text))) :
    QuotesText w text := by
  cases R with
  | string =>
    obtain ⟨body, -, rfl⟩ := mem_quoted.mp hw
    rw [Rule.reading, between_quoted] at h
    obtain ⟨text', htext, heq⟩ := Option.map_eq_some_iff.mp (valued_eq_ok h)
    cases heq
    rw [string?_eq] at htext
    obtain ⟨bytes, hbytes, rfl⟩ := Option.map_eq_some_iff.mp htext
    exact ⟨body, bytes, rfl, hbytes, rfl⟩
  | character | hexadecimal | binary | octal | decimal =>
    obtain ⟨value, -, heq⟩ := Option.map_eq_some_iff.mp (valued_eq_ok h)
    cases heq
  | _ => cases h

theorem quotesText_of_lexeme (h : (lexeme c rest).reading = some (.ok (.string text))) :
    QuotesText (c :: rest.take (lexeme c rest).extra) text := by
  rcases scans c rest with ⟨R, w, more, hcs, hmunch, hlexeme⟩ | ⟨herror, -⟩
  · obtain ⟨d, v, rfl, -⟩ := family_of_mem hmunch.accepts
    obtain ⟨rfl, rfl⟩ : c = d ∧ rest = v ++ more := List.cons.inj hcs
    rw [hlexeme] at h ⊢
    show QuotesText (c :: (v ++ more).take v.length) text
    rw [List.take_left]
    exact quotesText_of_reading hmunch.accepts h
  · rw [herror] at h
    cases h

/-- A part of a text that is read as a string token, where the text begins at byte `pos`. -/
def HasString (pos : Nat) (cs : List Char) (t : Token) (text : String) : Prop :=
  ∃ front w back, cs = front ++ (w ++ back) ∧
    t.span = ⟨pos + Bytes.lengthOf front, pos + Bytes.lengthOf front + Bytes.lengthOf w⟩ ∧ QuotesText w text

theorem HasString.behind {pos n : Nat} {t : Token}
    (h : HasString (pos + Bytes.lengthOf (c :: rest.take n)) (rest.drop n) t text) :
    HasString pos (c :: rest) t text := by
  obtain ⟨front, w, back, heq, hspan, hw⟩ := h
  refine ⟨c :: rest.take n ++ front, w, back, ?_, ?_, hw⟩
  · rw [List.append_assoc, ← heq, List.cons_append, List.take_append_drop]
  · rw [hspan, lengthOf_append, Nat.add_assoc]

/-- By induction on the text, one lexeme after the other. -/
theorem hasString_of_stepsFrom {pos : Nat} {cs : List Char} {t : Token} (ht : .ok t ∈ stepsFrom pos cs)
    (hkind : t.kind = .string text) : HasString pos cs t text := by
  fun_induction stepsFrom pos cs with
  | case1 pos =>
    obtain rfl := Except.ok.inj (List.mem_singleton.mp ht)
    cases hkind
  | case2 pos c rest l part stop later hreading ih => exact (ih ht).behind
  | case3 pos c rest l part stop later kind hreading ih =>
    rcases List.mem_cons.mp ht with heq | ht
    · obtain rfl := Except.ok.inj heq
      obtain rfl : kind = .string text := hkind
      refine ⟨[], part, rest.drop l.extra, ?_, rfl, quotesText_of_lexeme hreading⟩
      rw [List.nil_append, List.cons_append, List.take_append_drop]
    · exact (ih ht).behind
  | case4 pos c rest l part stop later hreading ih =>
    rcases List.mem_cons.mp ht with heq | ht
    · cases heq
    · exact (ih ht).behind

/-- The text of a string token is that of decoded bytes. -/
theorem exists_quotes {source : String} {t : Token} (ht : .ok t ∈ steps source) (hkind : t.kind = .string text) :
    ∃ bytes, text = textOf bytes ∧ Quotes source t bytes := by
  obtain ⟨front, w, back, heq, hspan, body, bytes, rfl, hbytes, rfl⟩ := hasString_of_stepsFrom ht hkind
  rw [Nat.zero_add] at hspan
  exact ⟨bytes, rfl, ht, hkind, front, body, back, heq, hspan, hbytes⟩

end Strings

/-- A number in any radix, with any suffixes, is one integer, or an error if it does not fit a word. A
string of octal escapes is one string of these bytes. One octal or hexadecimal escape is one character. -/
theorem tokens_of_literal :
    (∀ (n : Nat) (ds s : List Char), Numeral n ds → (∀ c ∈ s, c ∈ ['u', 'U', 'l', 'L']) →
      tokens (String.ofList (ds ++ s)) =
        single (ds ++ s) (if n < 2 ^ 64 then some (.integer (UInt64.ofNat n).toInt64) else none)) ∧
    (∀ bs : List UInt8, ∃ text : String, text.toList.map Char.toNat = bs.map UInt8.toNat ∧
      tokens (String.ofList ('"' :: (bs.flatMap TokenKind.octal ++ ['"']))) =
        single ('"' :: (bs.flatMap TokenKind.octal ++ ['"'])) (some (.string text))) ∧
    (∀ (b : UInt8) (ds : List Char), Denotes 8 b.toNat ds → ds.length ≤ 3 →
      tokens (String.ofList ('\x27' :: '\\' :: (ds ++ ['\x27']))) =
        single ('\x27' :: '\\' :: (ds ++ ['\x27'])) (some (.character b))) ∧
    (∀ (b : UInt8) (ds : List Char), Denotes 16 b.toNat ds →
      tokens (String.ofList ('\x27' :: '\\' :: 'x' :: (ds ++ ['\x27']))) =
        single ('\x27' :: '\\' :: 'x' :: (ds ++ ['\x27'])) (some (.character b))) := by
  refine ⟨fun n ds s hn hs => ?_, fun bs => ?_, fun b ds hds hlength => ?_, fun b ds hds => ?_⟩
  · have hs : ∀ c ∈ s, isSuffix c = true := fun c hc => by simpa [isSuffix, or_assoc] using hs c hc
    obtain ⟨R, hmunch, hreading⟩ := munch_numeral hn hs
    have hrange : Bytes.range 8 = 2 ^ 64 := rfl
    rw [tokens_of_munch hmunch hreading, word?, hrange]
    by_cases hfits : n < 2 ^ 64
    · rw [if_pos hfits, if_pos hfits]
      rfl
    · rw [if_neg hfits, if_neg hfits]
      rfl
  · refine ⟨textOf bs, ?_, ?_⟩
    · rw [textOf, String.toList_ofList, List.map_map]
      exact List.map_congr_left fun b _ => toNat_byteChar b
    · refine tokens_of_munch (munch_quoted (by decide) rfl only_string (octals_mem_quotable bs)) ?_
      rw [Rule.reading, between_quoted, string?_eq, bytesOf_octals]
      rfl
  · obtain ⟨hvalue, hne, hall⟩ := hds.value (by decide) (by decide)
    obtain ⟨d, v, rfl⟩ := List.exists_cons_of_ne_nil hne
    have hquotable : '\\' :: d :: v ∈ quotable '\x27' := by
      obtain ⟨⟨k, -, hd⟩, hv⟩ := List.forall_mem_cons.mp hall
      refine mem_quotable_escape (ne_of_isHex hd.hex).2.2.2 (mem_quotable_plain fun c hc => ?_)
      obtain ⟨k, -, hk⟩ := hv c hc
      exact ⟨(ne_of_isHex hk.hex).1, (ne_of_isHex hk.hex).2.2.1⟩
    have htokens := tokens_character hquotable (character?_octal hlength hds)
    rwa [List.cons_append] at htokens
  · obtain ⟨hvalue, hne, hall⟩ := hds.value (by decide) (by decide)
    have hquotable : '\\' :: 'x' :: ds ∈ quotable '\x27' := by
      refine mem_quotable_escape (by decide) (mem_quotable_plain fun c hc => ?_)
      obtain ⟨k, -, hk⟩ := hall c hc
      exact ⟨(ne_of_isHex hk.hex).1, (ne_of_isHex hk.hex).2.2.1⟩
    have htokens := tokens_character hquotable (character?_hexadecimal hds)
    rwa [List.cons_append, List.cons_append] at htokens

theorem tokens_of_literal_of_numbers :
    tokens (String.ofList ['0', 'X', '0', 'f', 'F', 'u', 'L']) =
      .ok [⟨.integer 255, ⟨0, 7⟩⟩, ⟨.eof, ⟨7, 7⟩⟩] ∧
    tokens (String.ofList (Nat.toDigits 10 (2 ^ 64) ++ [])) =
      .error ⟨String.ofList (Nat.toDigits 10 (2 ^ 64)), ⟨0, 20⟩⟩ := by
  refine ⟨?_, ?_⟩
  · have hnumeral : Numeral 255 ['0', 'X', '0', 'f', 'F'] := .hexadecimal (.inr rfl) ⟨1, by decide⟩
    have htokens := tokens_of_literal.1 255 _ ['u', 'L'] hnumeral (by simp)
    rw [if_pos (by decide)] at htokens
    exact htokens
  · have htokens := tokens_of_literal.1 (2 ^ 64) _ [] .decimal (List.forall_mem_nil _)
    rw [if_neg (by decide)] at htokens
    rw [htokens, List.append_nil]
    rfl

end MiniC.Lexer
