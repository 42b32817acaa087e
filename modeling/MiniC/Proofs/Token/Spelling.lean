import MiniC.Proofs.Token.Texts
import MiniC.Token.Lexer
/-!
How tokens are spelled. Main statement: tokens that are written with single spaces between them are read
as they are.
-/
namespace MiniC

open Lexer

/-- A word that is no keyword. -/
def IsName (name : String) : Prop :=
  word name = .identifier name ∧
    ∃ c cs, name.toList = c :: cs ∧ isWordStart c = true ∧ ∀ d ∈ cs, isWordRest d = true

namespace TokenKind

def octalDigit (n : Nat) : Char := Char.ofNat ('0'.toNat + n)

/-- A byte as an escape of three octal digits. -/
def octal (b : UInt8) : List Char :=
  ['\\', octalDigit (b.toNat / 64), octalDigit (b.toNat / 8 % 8), octalDigit (b.toNat % 8)]

/-- Integers are written as unsigned decimal numbers, and what is between quotes as escapes. -/
def spelling : TokenKind → List Char
  | keyword k => k.text.toList
  | identifier name => name.toList
  | integer value => Nat.toDigits 10 value.toUInt64.toNat
  | character value => '\x27' :: (octal value ++ ['\x27'])
  | string text => '"' :: ((text.toList.flatMap fun c => octal (UInt8.ofNat c.toNat)) ++ ['"'])
  | punct p => p.chars
  | reserved _ | real _ | eof => []

/-- The tokens that are read as they are spelled. -/
def Spellable : TokenKind → Prop
  | keyword _ | integer _ | character _ | punct _ => True
  | identifier name => IsName name
  | string text => ∀ c ∈ text.toList, c.toNat < 256
  | reserved _ | real _ | eof => False

end TokenKind

/-- Tokens with single spaces between them. -/
def spell : List TokenKind → List Char
  | [] => []
  | [k] => k.spelling
  | k :: ks => k.spelling ++ ' ' :: spell ks

/-- Where a lexeme ends: at the end of the text or at a space. -/
def Ends (rest : List Char) : Prop := rest = [] ∨ ∃ cs, rest = ' ' :: cs

/-- A text that is read as a token, whatever comes behind it. -/
def ReadAs (k : TokenKind) (text : List Char) : Prop :=
  ∃ c cs, text = c :: cs ∧ isBlank c = false ∧
    ∀ rest, Ends rest → lexeme c (cs ++ rest) = .token k cs.length

namespace Lexer

theorem runLength_append {p : Char → Bool} {cs rest : List Char} (h : ∀ c ∈ cs, p c = true)
    (hp : p ' ' = false) (hrest : Ends rest) : runLength p (cs ++ rest) = cs.length := by
  unfold runLength
  rw [List.takeWhile_append_of_pos h]
  rcases hrest with rfl | ⟨more, rfl⟩
  · simp
  · rw [List.takeWhile_cons_of_neg (by simp [hp]), List.append_nil]

/-- Blanks are five characters. -/
theorem not_isBlank {p : Char → Bool} {c : Char} (hc : p c = true)
    (h : [' ', '\t', '\n', '\r', '\x0c'].all (!p ·) = true) : isBlank c = false := by
  rw [Bool.eq_false_iff]
  intro hblank
  have hmem : c ∈ [' ', '\t', '\n', '\r', '\x0c'] := by
    simpa [isBlank, or_assoc] using hblank
  have hnot := List.all_eq_true.mp h c hmem
  rw [hc] at hnot
  cases hnot

/-! Words. -/

theorem readAs_word {name : String} {k : TokenKind} (hword : word name = k) {c : Char} {cs : List Char}
    (hname : name.toList = c :: cs) (hc : isWordStart c = true)
    (hcs : ∀ d ∈ cs, isWordRest d = true) : ReadAs k name.toList := by
  have hblank := not_isBlank (p := isWordStart) hc (by decide)
  refine ⟨c, cs, hname, hblank, fun rest hrest => ?_⟩
  have hlength : runLength isWordRest (cs ++ rest) = cs.length := runLength_append hcs rfl hrest
  unfold lexeme
  rw [if_neg (by simp [hblank]), if_pos hc, hlength]
  simp only [List.take_left, ← hname, String.ofList_toList, hword]

theorem readAs_keyword (k : Keyword) : ReadAs (.keyword k) k.text.toList := by
  have hword : word k.text = .keyword k := by cases k <;> decide
  have hchars : k.text.toList.all isWordStart = true := by cases k <;> decide
  cases hname : k.text.toList with
  | nil => cases k <;> cases hname
  | cons c cs =>
    rw [hname] at hchars
    obtain ⟨hc, hcs⟩ := List.forall_mem_cons.mp (List.all_eq_true.mp hchars)
    rw [← hname]
    exact readAs_word hword hname hc fun d hd => by simp [isWordRest, hcs d hd]

/-! Punctuators. -/

theorem readAs_punct (p : Punct) : ReadAs (.punct p) p.chars := by
  cases p <;> refine ⟨_, _, rfl, by decide, ?_⟩ <;> rintro rest (rfl | ⟨cs, rfl⟩) <;> rfl

/-! Escapes. -/

section Escapes

open TokenKind

theorem octal_eq (b : UInt8) : ∃ d d' d'', octal b = ['\\', d, d', d''] ∧
    Literal.isOctal d = true ∧ Literal.isOctal d' = true ∧ Literal.isOctal d'' = true := by
  have hall : ∀ n : Fin 256, (octal (UInt8.ofFin n)).tail.all Literal.isOctal = true := by
    decide +kernel
  have hb : ∀ d ∈ (octal b).tail, Literal.isOctal d = true := List.all_eq_true.mp (hall b.toFin)
  exact ⟨_, _, _, rfl, hb _ (by simp [octal]), hb _ (by simp [octal]), hb _ (by simp [octal])⟩

theorem encode_octal (b : UInt8) : ∃ x x' x'',
    (octal b).flatMap String.utf8EncodeChar = [Literal.backslash, x, x', x''] ∧
      Literal.isOctal (Literal.byteChar x) = true ∧ Literal.isOctal (Literal.byteChar x') = true ∧
      Literal.isOctal (Literal.byteChar x'') = true ∧
      UInt8.ofNat (Literal.ofDigits 8 ([x, x', x''].map Literal.byteChar)) = b := by
  have hall : ∀ n : Fin 256, ((octal (UInt8.ofFin n)).flatMap String.utf8EncodeChar).take 1 =
        [Literal.backslash] ∧
      ((octal (UInt8.ofFin n)).flatMap String.utf8EncodeChar).length = 4 ∧
      (((octal (UInt8.ofFin n)).flatMap String.utf8EncodeChar).drop 1).all
        (fun x => Literal.isOctal (Literal.byteChar x)) = true ∧
      UInt8.ofNat (Literal.ofDigits 8 ((((octal (UInt8.ofFin n)).flatMap
        String.utf8EncodeChar).drop 1).map Literal.byteChar)) = UInt8.ofFin n := by
    decide +kernel
  obtain ⟨hfirst, hlength, hdigits, hvalue⟩ := hall b.toFin
  change ((octal b).flatMap String.utf8EncodeChar).take 1 = _ at hfirst
  change ((octal b).flatMap String.utf8EncodeChar).length = 4 at hlength
  change (((octal b).flatMap String.utf8EncodeChar).drop 1).all _ = true at hdigits
  change UInt8.ofNat (Literal.ofDigits 8 ((((octal b).flatMap
    String.utf8EncodeChar).drop 1).map Literal.byteChar)) = b at hvalue
  generalize (octal b).flatMap String.utf8EncodeChar = bytes at hfirst hlength hdigits hvalue
  match bytes, hlength with
  | [y, x, x', x''], _ =>
    obtain rfl : y = Literal.backslash := by simpa using hfirst
    have hdigit := List.all_eq_true.mp hdigits
    exact ⟨x, x', x'', rfl, hdigit x (by simp), hdigit x' (by simp), hdigit x'' (by simp), hvalue⟩

theorem unescape?_octal (b : UInt8) (more : List UInt8) :
    Literal.unescape? ((octal b).flatMap String.utf8EncodeChar ++ more) =
      (Literal.unescape? more).map (b :: ·) := by
  obtain ⟨x, x', x'', heq, hx, hx', hx'', hvalue⟩ := encode_octal b
  have hne : Literal.byteChar x ≠ 'x' := by
    intro h
    rw [h] at hx
    exact absurd hx (by decide)
  have hescape : Literal.escape? (x :: x' :: x'' :: more) = some (b, 2) := by
    rw [Literal.escape?, if_neg hne, if_pos hx]
    simp only [Literal.run, List.take_succ_cons, List.take_zero, List.takeWhile_cons,
      Function.comp_apply, hx', hx'', if_true, List.takeWhile_nil, List.map_cons, List.map_nil,
      List.length_cons, List.length_nil]
    rw [← hvalue]
    rfl
  rw [heq, List.cons_append, List.cons_append, List.cons_append, List.cons_append, List.nil_append,
    Literal.unescape?, if_pos rfl, hescape]
  rfl

theorem bytesOf_octals (bs : List UInt8) :
    Literal.unescape? (Literal.bytesOf (bs.flatMap octal)) = some bs := by
  have hbytes : Literal.bytesOf (bs.flatMap octal) =
      bs.flatMap fun b => (octal b).flatMap String.utf8EncodeChar := by
    rw [show Literal.bytesOf (bs.flatMap octal) = Bytes.ofText (String.ofList (bs.flatMap octal))
      from rfl, Bytes.ofText_ofList, List.flatMap_assoc]
  have hunescape (bs : List UInt8) : Literal.unescape? (bs.flatMap fun b =>
      (octal b).flatMap String.utf8EncodeChar) = some bs := by
    induction bs with
    | nil => exact Literal.unescape?.eq_1
    | cons b bs ih =>
      rw [List.flatMap_cons, unescape?_octal, ih]
      rfl
  rw [hbytes, hunescape]

theorem quotedRest_quote (quote : Char) (rest : List Char) :
    quotedRest quote (quote :: rest) = (0, true) := by
  unfold quotedRest
  rw [if_pos rfl]

theorem quotedRest_plain {quote c : Char} (hc : c ≠ quote) (hescape : c ≠ '\\') (rest : List Char) :
    quotedRest quote (c :: rest) = ((quotedRest quote rest).1 + 1, (quotedRest quote rest).2) := by
  rw [quotedRest.eq_def]
  simp only [if_neg hc, if_neg hescape]

theorem quotedRest_escape {quote d : Char} (hquote : '\\' ≠ quote) (hd : d ≠ '\n')
    (rest : List Char) : quotedRest quote ('\\' :: d :: rest) =
      ((quotedRest quote rest).1 + 2, (quotedRest quote rest).2) := by
  rw [quotedRest.eq_def]
  simp only [if_neg hquote, if_pos, if_neg hd]

theorem quotedRest_octals (quote : Char) (hquote : Literal.isOctal quote = false)
    (hne : '\\' ≠ quote) (bs : List UInt8) (rest : List Char) :
    quotedRest quote (bs.flatMap octal ++ quote :: rest) = ((bs.flatMap octal).length, true) := by
  have hplain {c : Char} (hc : Literal.isOctal c = true) : c ≠ quote ∧ c ≠ '\\' ∧ c ≠ '\n' := by
    refine ⟨?_, ?_, ?_⟩
    · rintro rfl
      exact Bool.false_ne_true (hquote.symm.trans hc)
    · rintro rfl
      exact absurd hc (by decide)
    · rintro rfl
      exact absurd hc (by decide)
  induction bs with
  | nil => exact quotedRest_quote quote rest
  | cons b bs ih =>
    obtain ⟨d, d', d'', heq, hd, hd', hd''⟩ := octal_eq b
    rw [List.flatMap_cons, heq, List.append_assoc]
    simp only [List.cons_append, List.nil_append]
    rw [quotedRest_escape hne (hplain hd).2.2, quotedRest_plain (hplain hd').1 (hplain hd').2.1,
      quotedRest_plain (hplain hd'').1 (hplain hd'').2.1, ih]
    simp

theorem lexeme_character (rest : List Char) : lexeme '\x27' rest =
    quoted '\x27' (fun body => (Literal.character? body).map .character) rest := rfl

theorem lexeme_string (rest : List Char) :
    lexeme '"' rest = quoted '"' (fun body => (Literal.string? body).map .string) rest := rfl

theorem readAs_character (b : UInt8) : ReadAs (.character b) (spelling (.character b)) := by
  refine ⟨_, _, rfl, by decide, fun rest _ => ?_⟩
  have hquoted := quotedRest_octals '\x27' (by decide) (by decide) [b] rest
  have hvalue : Literal.character? (octal b) = some b := by
    have h := bytesOf_octals [b]
    rw [List.flatMap_singleton] at h
    rw [Literal.character?, h]
  rw [List.flatMap_singleton] at hquoted
  rw [List.append_assoc, List.singleton_append, lexeme_character, quoted, hquoted]
  simp only [if_true, List.take_left, hvalue]
  simp [Lexeme.valued]

theorem readAs_string {text : String} (h : ∀ c ∈ text.toList, c.toNat < 256) :
    ReadAs (.string text) (spelling (.string text)) := by
  refine ⟨_, _, rfl, by decide, fun rest _ => ?_⟩
  let bs := text.toList.map fun c => UInt8.ofNat c.toNat
  have hbs : (text.toList.flatMap fun c => octal (UInt8.ofNat c.toNat)) = bs.flatMap octal := by
    rw [List.flatMap_map]
  have hquoted := quotedRest_octals '"' (by decide) (by decide) bs rest
  have hvalue : Literal.string? (bs.flatMap octal) = some text := by
    have hchars : bs.map Literal.byteChar = text.toList := by
      rw [List.map_map]
      refine (List.map_congr_left fun c hc => ?_).trans (List.map_id _)
      show Char.ofNat (UInt8.ofNat c.toNat).toNat = c
      rw [UInt8.toNat_ofNat', Nat.mod_eq_of_lt (h c hc), Char.ofNat_toNat]
    rw [Literal.string?, bytesOf_octals, Option.map_some, hchars, String.ofList_toList]
  rw [hbs, List.append_assoc, List.singleton_append, lexeme_string, quoted, hquoted]
  simp only [if_true, List.take_left, hvalue]
  simp [Lexeme.valued]

end Escapes

/-! Integers. -/

/-- Only zero begins with a zero. -/
theorem toDigits_eq_cons (n : Nat) :
    ∃ d ds, Nat.toDigits 10 n = d :: ds ∧ (n ≠ 0 → d ≠ '0') := by
  induction n using Nat.strongRecOn with
  | ind n ih =>
    by_cases hn : n < 10
    · exact ⟨n.digitChar, [], Nat.toDigits_of_lt_base hn, fun hne h =>
        hne (Nat.digitChar_eq_zero.mp h)⟩
    · obtain ⟨d, ds, heq, hzero⟩ := ih (n / 10) (by omega)
      refine ⟨d, ds ++ [(n % 10).digitChar], ?_, fun _ => hzero (by omega)⟩
      rw [Nat.toDigits_of_base_le (by decide) (by omega), heq]
      rfl

theorem ofDigits_toDigits (n : Nat) : Literal.ofDigits 10 (Nat.toDigits 10 n) = n := by
  have hdigits {ds : List Char} (h : ∀ c ∈ ds, c.isDigit = true) (init : Nat) :
      ds.foldl (fun n c => 10 * n + Literal.digit c) init = Nat.ofDigitChars 10 ds init := by
    induction ds generalizing init with
    | nil => rfl
    | cons c ds ih =>
      obtain ⟨hc, hds⟩ := List.forall_mem_cons.mp h
      rw [List.foldl_cons, ih hds, Nat.ofDigitChars_cons, Literal.digit, if_pos hc]
  rw [Literal.ofDigits, hdigits (fun c hc => Nat.isDigit_of_mem_toDigits (by decide) (by decide) hc),
    Nat.ofDigitChars_toDigits (by decide) (by decide)]

theorem not_isWordStart_of_isDigit {c : Char} (h : c.isDigit = true) : isWordStart c = false := by
  have hmost : c.val.toNat ≤ 57 := by
    have h := (Bool.and_eq_true_iff.mp h).2
    exact UInt32.le_iff_toNat_le.mp (by simpa using h)
  have hbelow {d : Char} (hd : 57 < d.val.toNat) : ¬ d ≤ c := fun hle =>
    absurd (UInt32.le_iff_toNat_le.mp hle) (by omega)
  have hlower : ¬ 'a' ≤ c := hbelow (by decide)
  have hupper : ¬ 'A' ≤ c := hbelow (by decide)
  have hline : c ≠ '_' := fun hc => hbelow (d := '_') (by decide) (hc ▸ Char.le_refl _)
  simp [isWordStart, hlower, hupper, hline]

/-- The digits of a number as a literal, whatever ends it. -/
theorem number_toDigits {n : Nat} (hn : n < Bytes.range 8) {d : Char} {ds : List Char}
    (heq : Nat.toDigits 10 n = d :: ds) {rest : List Char} (hrest : Ends rest) :
    number d (ds ++ rest) = .token (.integer (Int64.ofNat n)) ds.length := by
  have hdigits : ∀ c ∈ d :: ds, c.isDigit = true := fun c hc =>
    Nat.isDigit_of_mem_toDigits (by decide) (by decide) (heq ▸ hc)
  have hrun : runLength Char.isDigit (d :: (ds ++ rest)) = ds.length + 1 :=
    runLength_append hdigits rfl hrest
  have hdrop : (d :: (ds ++ rest)).drop (ds.length + 1) = rest := by
    rw [List.drop_succ_cons, List.drop_left]
  have htake : (d :: (ds ++ rest)).take (ds.length + 1) = d :: ds := by
    rw [List.take_succ_cons, List.take_left]
  have hzero : d = '0' → ds = [] := by
    rintro rfl
    obtain ⟨d', ds', heq', hne⟩ := toDigits_eq_cons n
    obtain ⟨rfl, rfl⟩ := List.cons.inj (heq.symm.trans heq')
    obtain rfl : n = 0 := by
      by_contra hn
      exact hne hn rfl
    exact (List.cons.inj (heq.symm.trans (Nat.toDigits_of_lt_base (by decide)))).2
  have hlength : integerLength (d :: (ds ++ rest)) = ds.length + 1 := by
    unfold integerLength
    split
    · rename_i x more hcons
      obtain ⟨rfl, hmore⟩ := List.cons.inj hcons
      obtain rfl := hzero rfl
      rcases hrest with rfl | ⟨cs, rfl⟩
      · cases hmore
      · obtain ⟨rfl, rfl⟩ := List.cons.inj hmore
        rfl
    · exact hrun
  have hvalue : Literal.integer? (d :: ds) = some (Int64.ofNat n) := by
    have hdecimal : Literal.word? (Literal.ofDigits 10 (d :: ds)) = some (Int64.ofNat n) := by
      rw [← heq, ofDigits_toDigits, Literal.word?, if_pos hn]
    unfold Literal.integer?
    split
    · rename_i x more hcons
      obtain ⟨rfl, rfl⟩ := List.cons.inj hcons
      cases hzero rfl
    · exact hdecimal
  have hsuffix : runLength Literal.isSuffix rest = 0 :=
    runLength_append (List.forall_mem_nil _) rfl hrest
  unfold number
  simp only [hrun, hdrop, hlength, htake, hsuffix, hvalue]
  rcases hrest with rfl | ⟨cs, rfl⟩ <;> rfl

theorem readAs_integer (value : Int64) :
    ReadAs (.integer value) (TokenKind.spelling (.integer value)) := by
  obtain ⟨d, ds, heq, -⟩ := toDigits_eq_cons value.toUInt64.toNat
  have hd : d.isDigit = true :=
    Nat.isDigit_of_mem_toDigits (by decide) (by decide) (heq ▸ List.mem_cons_self ..)
  have hblank := not_isBlank (p := Char.isDigit) hd (by decide)
  refine ⟨d, ds, heq, hblank, fun rest hrest => ?_⟩
  unfold lexeme
  rw [if_neg (by simp [hblank]), if_neg (by simp [not_isWordStart_of_isDigit hd]), if_pos hd,
    number_toDigits value.toUInt64.toNat_lt heq hrest]
  have hvalue : Int64.ofNat value.toUInt64.toNat = value := Int64.toBitVec_inj.mp (by simp)
  rw [hvalue]

/-! Texts. -/

theorem readAs_spelling {k : TokenKind} (h : k.Spellable) : ReadAs k k.spelling := by
  cases k with
  | keyword k => exact readAs_keyword k
  | identifier name =>
    obtain ⟨hword, c, cs, hname, hc, hcs⟩ := h
    exact readAs_word hword hname hc hcs
  | integer value => exact readAs_integer value
  | character value => exact readAs_character value
  | string text => exact readAs_string h
  | punct p => exact readAs_punct p
  | reserved _ | real _ | eof => exact h.elim

theorem stepsFrom_readAs {k : TokenKind} {text rest : List Char} (h : ReadAs k text)
    (hrest : Ends rest) (pos : Nat) :
    ∃ t stop, t.kind = k ∧ stepsFrom pos (text ++ rest) = .ok t :: stepsFrom stop rest := by
  obtain ⟨c, cs, rfl, -, hread⟩ := h
  refine ⟨⟨k, ⟨pos, pos + Bytes.lengthOf (c :: cs)⟩⟩, pos + Bytes.lengthOf (c :: cs), rfl, ?_⟩
  rw [List.cons_append, stepsFrom, hread rest hrest]
  simp only [Lexeme.token, List.drop_left, List.take_left]

theorem stepsFrom_space {k : TokenKind} {text : List Char} (h : ReadAs k text) (rest : List Char)
    (pos : Nat) :
    ∃ pos', stepsFrom pos (' ' :: (text ++ rest)) = stepsFrom pos' (text ++ rest) := by
  obtain ⟨c, cs, rfl, hblank, -⟩ := h
  refine ⟨pos + Bytes.lengthOf [' '], ?_⟩
  have hlexeme : lexeme ' ' (c :: cs ++ rest) = .blank 0 := by
    show Lexeme.blank (runLength isBlank (c :: (cs ++ rest))) = _
    rw [runLength, List.takeWhile_cons_of_neg (by simp [hblank])]
    rfl
  rw [stepsFrom, hlexeme]
  rfl

/-- Texts with single spaces between them, by induction: each is read up to the space behind it. -/
theorem stepsFrom_joined {α : Type} (kind : α → TokenKind) (text : α → List Char) {xs : List α}
    (h : ∀ x ∈ xs, ReadAs (kind x) (text x)) (pos : Nat) :
    ∃ ts : List Token, stepsFrom pos ([' '].intercalate (xs.map text)) = ts.map .ok ∧
      ts.map (·.kind) = xs.map kind ++ [.eof] := by
  induction xs generalizing pos with
  | nil => exact ⟨[⟨.eof, ⟨pos, pos⟩⟩], stepsFrom.eq_1 pos, rfl⟩
  | cons x xs ih =>
    obtain ⟨hx, hxs⟩ := List.forall_mem_cons.mp h
    cases xs with
    | nil =>
      obtain ⟨t, stop, ht, hsteps⟩ := stepsFrom_readAs hx (.inl rfl) pos
      obtain ⟨ts, hts, hkinds⟩ := ih hxs stop
      refine ⟨t :: ts, ?_, ?_⟩
      · rw [List.map_cons, List.map_nil, List.intercalate_singleton, ← List.append_nil (text x), hsteps]
        exact congrArg _ hts
      · rw [List.map_cons, hkinds, ht]
        rfl
    | cons y ys =>
      have hjoin : [' '].intercalate ((x :: y :: ys).map text) =
          text x ++ ' ' :: [' '].intercalate ((y :: ys).map text) := by
        rw [List.map_cons, List.intercalate_cons_of_ne_nil (by simp)]
        simp
      obtain ⟨t, stop, ht, hsteps⟩ := stepsFrom_readAs hx
        (.inr ⟨[' '].intercalate ((y :: ys).map text), rfl⟩) pos
      obtain ⟨hy, -⟩ := List.forall_mem_cons.mp hxs
      obtain ⟨rest, hrest⟩ : ∃ rest, [' '].intercalate ((y :: ys).map text) = text y ++ rest := by
        cases ys with
        | nil => exact ⟨[], by simp⟩
        | cons z zs =>
          rw [List.map_cons, List.intercalate_cons_of_ne_nil (by simp), List.append_assoc]
          exact ⟨_, rfl⟩
      obtain ⟨pos', hspace⟩ := stepsFrom_space hy rest stop
      obtain ⟨ts, hts, hkinds⟩ := ih hxs pos'
      refine ⟨t :: ts, ?_, ?_⟩
      · rw [hjoin, hsteps, hrest, hspace, ← hrest, hts]
        rfl
      · rw [List.map_cons, hkinds, ht]
        rfl

theorem spell_eq (ks : List TokenKind) : spell ks = [' '].intercalate (ks.map TokenKind.spelling) := by
  induction ks with
  | nil => rfl
  | cons k ks ih =>
    cases ks with
    | nil => rw [List.map_cons, List.map_nil, List.intercalate_singleton, spell]
    | cons k' ks =>
      rw [List.map_cons, List.intercalate_cons_of_ne_nil (by simp), ← ih, spell]
      · simp
      · exact nofun

theorem stepsFrom_spell {ks : List TokenKind} (h : ∀ k ∈ ks, k.Spellable) (pos : Nat) :
    ∃ ts : List Token, stepsFrom pos (spell ks) = ts.map .ok ∧ ts.map (·.kind) = ks ++ [.eof] := by
  obtain ⟨ts, hts, hkinds⟩ := stepsFrom_joined id TokenKind.spelling
    (fun k hk => readAs_spelling (h k hk)) pos
  rw [List.map_id] at hkinds
  exact ⟨ts, by rw [spell_eq, hts], hkinds⟩

end Lexer

end MiniC
