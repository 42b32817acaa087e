import Mathlib.Data.Nat.ModEq
import MiniC.Machine.Memory
import MiniC.Proofs.Evaluation.Conversions
/-!
Bytes at their places. Words, texts and initializers put bytes one after the other, so what a memory
holds afterwards is the memory overlaid with a list of placed bytes. Main statements: overlays of two
memories agree wherever the memories did or a byte was put, and a word that is written is read back
reduced to its width.
-/
namespace MiniC.Bytes

/-- Puts bytes at their places, which are counted from `pos`. -/
def overlay (bytes : Array UInt8) (pos : Nat) (placed : List (Nat × UInt8)) : Array UInt8 :=
  placed.foldl (fun bytes x => bytes.setIfInBounds (pos + x.1) x.2) bytes

/-- Consecutive places from `offset` on. -/
def spread (offset : Nat) : List UInt8 → List (Nat × UInt8)
  | [] => []
  | b :: bs => (offset, b) :: spread (offset + 1) bs

/-- The low `count` bytes of a word, lowest first. -/
def ofWord (word : UInt64) : (count : Nat) → List UInt8
  | 0 => []
  | count + 1 => word.toUInt8 :: ofWord (word >>> 8) count

/-- The number that some bytes spell, lowest first. -/
def toNat : List UInt8 → Nat
  | [] => 0
  | b :: bs => b.toNat + 256 * toNat bs

section Overlays

variable {bytes bytes' : Array UInt8} {pos pos' offset size j : Nat} {placed : List (Nat × UInt8)}
  {data : List UInt8}

@[simp]
theorem size_overlay (bytes : Array UInt8) (pos : Nat) (placed : List (Nat × UInt8)) :
    (overlay bytes pos placed).size = bytes.size := by
  induction placed generalizing bytes with
  | nil => rfl
  | cons x placed ih => exact (ih _).trans (Array.size_setIfInBounds)

theorem overlay_append (bytes : Array UInt8) (pos : Nat) (placed placed' : List (Nat × UInt8)) :
    overlay bytes pos (placed ++ placed') = overlay (overlay bytes pos placed) pos placed' :=
  List.foldl_append

theorem writeList_eq (bytes : Array UInt8) (pos offset : Nat) (data : List UInt8) :
    writeList bytes (pos + offset) data = overlay bytes pos (spread offset data) := by
  induction data generalizing bytes offset with
  | nil => rfl
  | cons b data ih => exact ih _ (offset + 1)

theorem writeWord_eq (bytes : Array UInt8) (pos : Nat) (word : UInt64) (count : Nat) :
    writeWord bytes pos word count = writeList bytes pos (ofWord word count) := by
  induction count generalizing bytes pos word with
  | zero => rfl
  | succ count ih => exact ih _ _ _

theorem mem_spread {x : Nat × UInt8} (h : x ∈ spread offset data) :
    offset ≤ x.1 ∧ x.1 < offset + data.length := by
  induction data generalizing offset with
  | nil => cases h
  | cons b data ih =>
    rw [List.length_cons]
    rcases List.mem_cons.mp h with rfl | h
    · exact ⟨Nat.le_refl _, by omega⟩
    · obtain ⟨hle, hlt⟩ := ih h
      omega

theorem exists_mem_spread (offset : Nat) (data : List UInt8) (h : j < data.length) :
    ∃ x ∈ spread offset data, x.1 = offset + j := by
  induction data generalizing offset j with
  | nil => exact absurd h (Nat.not_lt_zero _)
  | cons b data ih =>
    cases j with
    | zero => exact ⟨_, List.mem_cons_self, rfl⟩
    | succ j =>
      obtain ⟨x, hx, heq⟩ := ih (offset + 1) (Nat.lt_of_succ_lt_succ h)
      exact ⟨x, List.mem_cons_of_mem _ hx, by omega⟩

/-- A byte at no place stays. -/
theorem getElem?_overlay_of_ne (h : ∀ x ∈ placed, pos + x.1 ≠ j) :
    (overlay bytes pos placed)[j]? = bytes[j]? := by
  induction placed generalizing bytes with
  | nil => rfl
  | cons x placed ih =>
    obtain ⟨hx, hrest⟩ := List.forall_mem_cons.mp h
    exact (ih hrest).trans (Array.getElem?_setIfInBounds_ne hx)

theorem getElem?_writeList_of_outside (h : j < pos ∨ pos + data.length ≤ j) :
    (writeList bytes pos data)[j]? = bytes[j]? := by
  have heq := writeList_eq bytes 0 pos data
  rw [Nat.zero_add] at heq
  rw [heq]
  refine getElem?_overlay_of_ne fun x hx => ?_
  have hx := mem_spread hx
  omega

theorem getElem?_writeList (hfits : pos + data.length ≤ bytes.size) (hj : j < data.length) :
    (writeList bytes pos data)[pos + j]? = data[j]? := by
  induction data generalizing bytes pos j with
  | nil => exact absurd hj (Nat.not_lt_zero _)
  | cons b data ih =>
    rw [List.length_cons] at hfits hj
    rw [writeList]
    cases j with
    | zero =>
      show (writeList (bytes.setIfInBounds pos b) (pos + 1) data)[pos]? = some b
      rw [getElem?_writeList_of_outside (.inl (Nat.lt_add_one pos)),
        Array.getElem?_setIfInBounds_self_of_lt (by omega)]
    | succ j =>
      have hroom : pos + 1 + data.length ≤ (bytes.setIfInBounds pos b).size := by
        rw [Array.size_setIfInBounds]
        omega
      rw [List.getElem?_cons_succ, ← ih hroom (by omega)]
      congr 1
      omega

/-- Overlays agree where a byte was put, and where they agreed before. -/
theorem overlay_congr (hbytes : pos + size ≤ bytes.size) (hbytes' : pos' + size ≤ bytes'.size)
    (hplaced : ∀ x ∈ placed, x.1 < size) (hj : j < size)
    (h : bytes[pos + j]? = bytes'[pos' + j]? ∨ ∃ x ∈ placed, x.1 = j) :
    (overlay bytes pos placed)[pos + j]? = (overlay bytes' pos' placed)[pos' + j]? := by
  induction placed generalizing bytes bytes' with
  | nil =>
    rcases h with h | ⟨x, hx, -⟩
    · exact h
    · cases hx
  | cons x placed ih =>
    obtain ⟨hx, hrest⟩ := List.forall_mem_cons.mp hplaced
    refine ih (by simpa using hbytes) (by simpa using hbytes') hrest ?_
    by_cases heq : x.1 = j
    · left
      subst heq
      rw [Array.getElem?_setIfInBounds_self_of_lt (by omega),
        Array.getElem?_setIfInBounds_self_of_lt (by omega)]
    · rcases h with h | ⟨y, hy, hyj⟩
      · left
        rw [Array.getElem?_setIfInBounds_ne (by omega), Array.getElem?_setIfInBounds_ne (by omega)]
        exact h
      · right
        rcases List.mem_cons.mp hy with rfl | hy
        · exact absurd hyj heq
        · exact ⟨y, hy, hyj⟩

/-- Where all that is put is zero, and zero was before, zero stays. -/
theorem overlay_zero (h : ∀ x ∈ placed, x.2 = 0) (hj : bytes[j]? = some 0) :
    (overlay bytes pos placed)[j]? = some 0 := by
  induction placed generalizing bytes with
  | nil => exact hj
  | cons x placed ih =>
    obtain ⟨hx, hrest⟩ := List.forall_mem_cons.mp h
    refine ih hrest ?_
    rw [Array.getElem?_setIfInBounds, hx]
    split
    · split
      · rfl
      · subst_vars
        rw [Array.getElem?_eq_none (by omega)] at hj
        cases hj
    · exact hj

end Overlays

/-! Words. -/

section Words

variable {bytes : Array UInt8} {pos count : Nat} {word word' : UInt64} {a : Access} {v : Int64}

@[simp]
theorem length_ofWord (word : UInt64) (count : Nat) : (ofWord word count).length = count := by
  induction count generalizing word with
  | zero => rfl
  | succ count ih => exact congrArg (· + 1) (ih _)

theorem toNat_ofWord (word : UInt64) (count : Nat) :
    toNat (ofWord word count) = word.toNat % 256 ^ count := by
  induction count generalizing word with
  | zero => simp [ofWord, toNat, Nat.mod_one]
  | succ count ih =>
    have hshift : (word >>> 8).toNat = word.toNat / 256 := by
      simp [UInt64.toNat_shiftRight, Nat.shiftRight_eq_div_pow]
    rw [ofWord, toNat, ih, hshift, Nat.pow_succ', Nat.mod_mul]
    simp

theorem toNat_inj {data data' : List UInt8} (hlength : data.length = data'.length)
    (h : toNat data = toNat data') : data = data' := by
  induction data generalizing data' with
  | nil => exact (List.length_eq_zero_iff.mp hlength.symm).symm
  | cons b data ih =>
    cases data' with
    | nil => cases hlength
    | cons b' data' =>
      simp only [toNat] at h
      have hb := b.toNat_lt
      have hb' := b'.toNat_lt
      obtain rfl : b = b' := UInt8.toNat_inj.mp (by omega)
      rw [ih (Nat.succ.inj hlength) (by omega)]

/-- Words with the same low bytes. -/
theorem ofWord_congr (h : word.toNat % 256 ^ count = word'.toNat % 256 ^ count) :
    ofWord word count = ofWord word' count :=
  toNat_inj (by simp) (by rw [toNat_ofWord, toNat_ofWord, h])

theorem readNat_congr {bytes' : Array UInt8} (h : ∀ j, pos ≤ j → j < pos + count → bytes[j]? = bytes'[j]?) :
    readNat bytes pos count = readNat bytes' pos count := by
  induction count generalizing pos with
  | zero => rfl
  | succ count ih =>
    have hhere := h pos (Nat.le_refl _) (by omega)
    simp only [readNat, Array.getD_eq_getD_getElem?, hhere]
    rw [ih fun j hj hlt => h j (by omega) (by omega)]

/-- A list that is written is read back. -/
theorem readNat_writeList (bytes : Array UInt8) (pos : Nat) (data : List UInt8)
    (h : pos + data.length ≤ bytes.size) :
    readNat (writeList bytes pos data) pos data.length = toNat data := by
  induction data generalizing bytes pos with
  | nil => rfl
  | cons b data ih =>
    rw [List.length_cons] at h ⊢
    have hrest := ih (bytes.setIfInBounds pos b) (pos + 1)
      (by rw [Array.size_setIfInBounds]; omega)
    have hfirst : (writeList (bytes.setIfInBounds pos b) (pos + 1) data)[pos]? = some b := by
      have hkept := writeList_eq (bytes.setIfInBounds pos b) 0 (pos + 1) data
      rw [Nat.zero_add] at hkept
      rw [hkept, getElem?_overlay_of_ne fun x hx => by have := (mem_spread hx).1; omega,
        Array.getElem?_setIfInBounds_self_of_lt (by omega)]
    simp only [writeList, readNat, toNat, Array.getD_eq_getD_getElem?, hfirst, hrest, Option.getD_some]

theorem readNat_writeWord (h : pos + count ≤ bytes.size) :
    readNat (writeWord bytes pos word count) pos count = word.toNat % 256 ^ count := by
  have hlist := readNat_writeList bytes pos (ofWord word count) (by rwa [length_ofWord])
  rwa [length_ofWord, toNat_ofWord, ← writeWord_eq] at hlist

theorem range_eq_pow (count : Nat) : range count = 256 ^ count := by
  rw [range, Nat.shiftLeft_eq, Nat.one_mul, Nat.pow_mul]

theorem range_dvd (ha : a.size ≤ 8) : ((range a.size : Nat) : Int) ∣ 2 ^ 64 := by
  rw [range_eq_pow]
  exact_mod_cast (pow_dvd_pow 256 ha : 256 ^ a.size ∣ 256 ^ 8)

/-- The number of the low bytes of a word, by its signed reading. -/
theorem toNat_emod (ha : a.size ≤ 8) (v : Int64) :
    ((v.toUInt64.toNat % 256 ^ a.size : Nat) : Int) = v.toInt % (range a.size : Nat) := by
  rw [Int.natCast_emod, Evaluation.toNat_toUInt64, ← range_eq_pow, Int.emod_emod_of_dvd _ (range_dvd ha)]

theorem truncate_eq_wrap (ha : a.size ≤ 8) (v : Int64) :
    a.truncate v = Int64.ofInt (Evaluation.wrap a v.toInt) := by
  by_cases hwide : a.size = 8
  · exact Evaluation.truncate_eq (.inr hwide) v
  · unfold Access.truncate Evaluation.wrap
    rw [if_neg (by omega)]
    split <;> rfl

/-- Reducing a word leaves its low bytes. -/
theorem ofWord_truncate (ha : a.size ≤ 8) (v : Int64) :
    ofWord (a.truncate v).toUInt64 a.size = ofWord v.toUInt64 a.size := by
  apply ofWord_congr
  have hword : (Int64.ofInt (Evaluation.wrap a v.toInt)).toInt % (2 : Int) ^ 64 =
      Evaluation.wrap a v.toInt % 2 ^ 64 := by
    rw [Int64.toInt_ofInt]
    exact Int.bmod_emod
  rw [← Int.natCast_inj, toNat_emod ha, toNat_emod ha, truncate_eq_wrap ha,
    ← Int.emod_emod_of_dvd _ (range_dvd ha), hword, Int.emod_emod_of_dvd _ (range_dvd ha),
    Evaluation.wrap_emod]

/-- What is read of the low bytes of a word is the word, reduced. -/
theorem extend_toNat (ha : a.size ≤ 8) (v : Int64) :
    extend a.size a.signed (v.toUInt64.toNat % 256 ^ a.size) = a.truncate v := by
  have hraw := toNat_emod ha v
  rw [truncate_eq_wrap ha]
  unfold extend Evaluation.wrap
  cases a.signed with
  | false =>
    simp only [Bool.false_and, Bool.false_eq_true, if_false]
    rw [← hraw, Int64.ofInt_eq_ofNat]
  | true =>
    have hlt : v.toUInt64.toNat % 256 ^ a.size < range a.size := by
      rw [range_eq_pow]
      exact Nat.mod_lt _ (Nat.pow_pos (by decide))
    simp only [Bool.true_and, if_true, Int.bmod, ← hraw, decide_eq_true_eq]
    by_cases hhigh : range a.size ≤ 2 * (v.toUInt64.toNat % 256 ^ a.size)
    · rw [if_pos hhigh, if_neg (by omega)]
    · rw [if_neg hhigh, if_pos (by omega), Int64.ofInt_eq_ofNat]

end Words

end MiniC.Bytes
