import MiniC.Machine.Run
import MiniC.Proofs.Machine.Bytes
/-!
Words in memory. An access is refused exactly if one of its bytes lies below the null guard or outside the
memory. Main statement: after a store the bytes written are read back, whole or in part, as the value
reduced to the width that is read; what lies apart from them is read as before, and a store that is
refused changes nothing.
-/
namespace MiniC

namespace Bytes

variable {bytes : Array UInt8} {pos count d k : Nat} {word : UInt64}

/-- What a word that was written spells in some of its bytes. By induction on the bytes written: the
first of them is either skipped or the lowest byte of what is read. -/
theorem readNat_writeWord_part (hdk : d + k ≤ count) (hfits : pos + count ≤ bytes.size) :
    readNat (writeWord bytes pos word count) (pos + d) k = word.toNat / 256 ^ d % 256 ^ k := by
  induction count generalizing bytes pos word d k with
  | zero =>
    obtain ⟨rfl, rfl⟩ : d = 0 ∧ k = 0 := by omega
    simp [readNat, Nat.mod_one]
  | succ count ih =>
    have hshift : (word >>> 8).toNat = word.toNat / 256 := by
      simp [UInt64.toNat_shiftRight, Nat.shiftRight_eq_div_pow]
    have hroom : pos + 1 + count ≤ (bytes.setIfInBounds pos word.toUInt8).size := by
      rw [Array.size_setIfInBounds]
      omega
    rw [writeWord]
    cases d with
    | succ d =>
      have hplace : pos + (d + 1) = pos + 1 + d := by omega
      rw [hplace, ih (by omega) hroom, hshift, Nat.div_div_eq_div_mul, Nat.pow_succ']
    | zero =>
      rw [Nat.add_zero pos, Nat.pow_zero, Nat.div_one]
      cases k with
      | zero => simp [readNat, Nat.mod_one]
      | succ k =>
        have hfirst : (writeWord (bytes.setIfInBounds pos word.toUInt8) (pos + 1) (word >>> 8) count)[pos]? =
            some word.toUInt8 := by
          rw [writeWord_eq, getElem?_writeList_of_outside (.inl (Nat.lt_add_one pos)),
            Array.getElem?_setIfInBounds_self_of_lt (by omega)]
        have hrest := @ih _ _ 0 k (word >>> 8) (by omega) hroom
        rw [Nat.add_zero, Nat.pow_zero, Nat.div_one, hshift] at hrest
        rw [readNat, Array.getD_eq_getD_getElem?, hfirst, hrest, Nat.pow_succ', Nat.mod_mul]
        simp

/-- A shift by whole bytes drops the lowest of them. -/
theorem toNat_shiftRight (hdk : d + k ≤ 8) (v : Int64) :
    (v >>> Int64.ofNat (8 * d)).toUInt64.toNat % 256 ^ k = v.toUInt64.toNat / 256 ^ d % 256 ^ k := by
  by_cases hd : d < 8
  · have hshift : (v >>> Int64.ofNat (8 * d)).toInt = v.toInt / (256 ^ d : Nat) := by
      have hamount : ((Int64.ofNat (8 * d)).toBitVec.smod 64).toNat = 8 * d := by
        have hall : ∀ d : Fin 8, ((Int64.ofNat (8 * d)).toBitVec.smod 64).toNat = 8 * d := by decide
        exact hall ⟨d, hd⟩
      rw [← Int64.toInt_toBitVec, Int64.toBitVec_shiftRight, BitVec.sshiftRight', hamount,
        BitVec.toInt_sshiftRight, Int64.toInt_toBitVec, Int.shiftRight_eq_div_pow, Nat.pow_mul]
    have hrest : ((256 ^ k : Nat) : Int) ∣ (256 ^ (8 - d) : Nat) :=
      Int.natCast_dvd_natCast.mpr (Nat.pow_dvd_pow 256 (by omega))
    have hword : ((256 ^ k : Nat) : Int) ∣ 2 ^ 64 :=
      Int.natCast_dvd_natCast.mpr (Nat.pow_dvd_pow 256 (by omega : k ≤ 8))
    have hne : ((256 ^ d : Nat) : Int) ≠ 0 :=
      Int.natCast_ne_zero.mpr (Nat.ne_of_gt (Nat.pow_pos (by decide)))
    -- The two readings of a word differ by a multiple of `2 ^ 64`, which stays above what is kept.
    have hsplit : v.toInt = (v.toUInt64.toNat : Int) +
        (256 ^ d : Nat) * ((256 ^ (8 - d) : Nat) * (v.toInt / 2 ^ 64)) := by
      have hspace : ((256 ^ d : Nat) : Int) * (256 ^ (8 - d) : Nat) = 2 ^ 64 := by
        rw [← Int.natCast_mul, ← Nat.pow_add, Nat.add_sub_cancel' (Nat.le_of_lt hd)]
        rfl
      rw [← Int.mul_assoc, hspace, Evaluation.toNat_toUInt64, Int.emod_add_mul_ediv]
    have hquotient : v.toInt / (256 ^ d : Nat) =
        (v.toUInt64.toNat / 256 ^ d : Nat) + (256 ^ (8 - d) : Nat) * (v.toInt / 2 ^ 64) := by
      conv_lhs => rw [hsplit]
      rw [Int.add_mul_ediv_left _ _ hne, Int.natCast_ediv]
    rw [← Int.natCast_inj, Int.natCast_emod, Evaluation.toNat_toUInt64, Int.emod_emod_of_dvd _ hword, hshift,
      hquotient, Int.natCast_emod, Int.add_emod, Int.emod_eq_zero_of_dvd (Dvd.dvd.mul_right hrest _),
      Int.add_zero, Int.emod_emod]
  · obtain rfl : k = 0 := by omega
    rw [Nat.pow_zero, Nat.mod_one, Nat.mod_one]

/-- Bytes apart from a word that is written are read as before. -/
theorem readNat_writeWord_apart {pos' : Nat} (h : pos' + k ≤ pos ∨ pos + count ≤ pos') :
    readNat (writeWord bytes pos word count) pos' k = readNat bytes pos' k := by
  apply readNat_congr
  intro j hj hlt
  rw [writeWord_eq]
  apply getElem?_writeList_of_outside
  rw [length_ofWord]
  omega

end Bytes

namespace Machine

open Code (Operand)

namespace Memory

/-- All bytes of an access lie from the null guard on and within the memory. -/
def Accessible (m : Memory) (address : Int64) (size : Nat) : Prop :=
  nullGuard ≤ address.toInt ∧ address.toInt + size ≤ m.size

/-- Two accesses have no byte in common. -/
def Separate (address : Int64) (size : Nat) (address' : Int64) (size' : Nat) : Prop :=
  address.toInt + size ≤ address'.toInt ∨ address'.toInt + size' ≤ address.toInt

/-- Why an access is refused. -/
def refusal (address : Int64) (size : Nat) : Fault :=
  if 0 ≤ address.toInt ∧ address.toInt < nullGuard then .nullPointer address
  else .outOfBounds address size

instance (m : Memory) (address : Int64) (size : Nat) : Decidable (m.Accessible address size) :=
  inferInstanceAs (Decidable (_ ∧ _))

variable {m m' : Memory} {a b : Int64} {n k d : Nat} {v : Int64} {signed : Bool}

theorem locate_eq (m : Memory) (a : Int64) (n : Nat) :
    m.locate a n = if m.Accessible a n then .ok a.toInt.toNat else .error (refusal a n) := by
  have hzero : a < 0 ↔ a.toInt < 0 := by rw [Int64.lt_iff_toInt_lt, Int64.toInt_zero]
  have hsize : m.bytes.size = m.size := rfl
  unfold locate
  rw [Int64.toNatClampNeg, hsize]
  by_cases h : m.Accessible a n
  · obtain ⟨hguard, hfits⟩ := h
    have hguard' : nullGuard ≤ a.toInt.toNat := by omega
    have hpos : ¬ a < 0 := by
      rw [hzero]
      have : (0 : Int) ≤ nullGuard := Int.natCast_nonneg _
      omega
    rw [if_neg hpos, if_neg (Nat.not_lt.mpr hguard'), if_pos (by omega), if_pos ⟨hguard, hfits⟩]
  · rw [if_neg h]
    unfold refusal
    by_cases hneg : a.toInt < 0
    · rw [if_pos (hzero.mpr hneg), if_neg (by omega)]
    rw [if_neg (mt hzero.mp hneg)]
    by_cases hguard : a.toInt < nullGuard
    · rw [if_pos (by omega : a.toInt.toNat < nullGuard), if_pos ⟨by omega, hguard⟩]
    · have hlarge : ¬ a.toInt + n ≤ m.size := fun hfits => h ⟨by omega, hfits⟩
      rw [if_neg (by omega), if_neg (by omega), if_neg (by omega)]

theorem load_eq (m : Memory) (a : Int64) (n : Nat) (signed : Bool) :
    m.load a n signed = if m.Accessible a n then
      .ok (Bytes.extend n signed (Bytes.readNat m.bytes a.toInt.toNat n)) else .error (refusal a n) := by
  rw [load, locate_eq]
  by_cases h : m.Accessible a n
  · rw [if_pos h, if_pos h]
  · rw [if_neg h, if_neg h]

theorem store_eq (m : Memory) (a : Int64) (n : Nat) (v : Int64) :
    m.store a n v =
      if m.Accessible a n then .ok (m.put a.toInt.toNat n v) else .error (refusal a n) := by
  rw [store, locate_eq]
  by_cases h : m.Accessible a n
  · rw [if_pos h, if_pos h]
  · rw [if_neg h, if_neg h]

theorem store_eq_ok : m.store a n v = .ok m' ↔ m.Accessible a n ∧ m' = m.put a.toInt.toNat n v := by
  rw [store_eq]
  by_cases h : m.Accessible a n
  · rw [if_pos h]
    constructor
    · intro heq
      exact ⟨h, (Except.ok.inj heq).symm⟩
    · rintro ⟨-, rfl⟩
      rfl
  · rw [if_neg h]
    constructor
    · exact nofun
    · exact fun heq => absurd heq.1 h

/-- Storing does not change which accesses are refused. -/
theorem accessible_put (start : Nat) : (m.put start n v).Accessible a k ↔ m.Accessible a k := by
  unfold Accessible
  rw [size_put]

/-- What a store of `n` bytes at `a` leaves to be read. -/
structure StoredAt (m m' : Memory) (a : Int64) (n : Nat) (v : Int64) : Prop where
  whole : ∀ signed, m'.load a n signed = .ok (Access.truncate ⟨n, signed⟩ v)
  separate : ∀ b k signed, Separate b k a n → m'.load b k signed = m.load b k signed
  part : ∀ (b : Int64) (d k : Nat) (signed : Bool), b.toInt = a.toInt + d → d + k ≤ n →
    m'.load b k signed = .ok (Access.truncate ⟨k, signed⟩ (v >>> Int64.ofNat (8 * d)))

theorem load_put_of_part (h : m.Accessible a n) (hn : n ≤ 8) (v : Int64) (signed : Bool)
    (hb : b.toInt = a.toInt + d) (hdk : d + k ≤ n) :
    (m.put a.toInt.toNat n v).load b k signed =
      .ok (Access.truncate ⟨k, signed⟩ (v >>> Int64.ofNat (8 * d))) := by
  obtain ⟨hguard, hfits⟩ := h
  have hnonneg : (0 : Int) ≤ nullGuard := Int.natCast_nonneg _
  have hstart : b.toInt.toNat = a.toInt.toNat + d := by omega
  have hroom : a.toInt.toNat + n ≤ m.bytes.size := by
    have hsize : m.bytes.size = m.size := rfl
    omega
  have haccessible : m.Accessible b k := ⟨by omega, by omega⟩
  have hread : Bytes.readNat (m.put a.toInt.toNat n v).bytes (a.toInt.toNat + d) k =
      (v >>> Int64.ofNat (8 * d)).toUInt64.toNat % 256 ^ k := by
    rw [Bytes.toNat_shiftRight (by omega)]
    exact Bytes.readNat_writeWord_part hdk hroom
  rw [load_eq, if_pos ((accessible_put _).mpr haccessible), hstart, hread]
  exact congrArg Except.ok (Bytes.extend_toNat (a := ⟨k, signed⟩) (by omega : k ≤ 8) _)

theorem load_put_of_separate (h : m.Accessible a n) (v : Int64) (signed : Bool) (hb : Separate b k a n) :
    (m.put a.toInt.toNat n v).load b k signed = m.load b k signed := by
  rw [load_eq, load_eq]
  by_cases hk : m.Accessible b k
  · have hnonneg : (0 : Int) ≤ nullGuard := Int.natCast_nonneg _
    have hpos := hk.1
    have hpos' := h.1
    have hapart : b.toInt.toNat + k ≤ a.toInt.toNat ∨ a.toInt.toNat + n ≤ b.toInt.toNat := by
      rcases hb with hb | hb
      · left
        omega
      · right
        omega
    have hread : Bytes.readNat (m.put a.toInt.toNat n v).bytes b.toInt.toNat k =
        Bytes.readNat m.bytes b.toInt.toNat k := Bytes.readNat_writeWord_apart hapart
    rw [if_pos ((accessible_put _).mpr hk), if_pos hk, hread]
  · rw [if_neg (mt (accessible_put _).mp hk), if_neg hk]

theorem storedAt_of_store (hn : n ≤ 8) (h : m.store a n v = .ok m') : StoredAt m m' a n v := by
  obtain ⟨haccessible, rfl⟩ := store_eq_ok.mp h
  constructor
  · intro signed
    have hwhole := load_put_of_part (b := a) (d := 0) (k := n) haccessible hn v signed (by simp) (by omega)
    rw [hwhole]
    have hshift : v >>> Int64.ofNat (8 * 0) = v := by
      have hnone : ((Int64.ofNat (8 * 0)).toBitVec.smod 64).toNat = 0 := by decide
      rw [← Int64.toBitVec_inj, Int64.toBitVec_shiftRight, BitVec.sshiftRight', hnone,
        BitVec.sshiftRight_zero]
    rw [hshift]
  · exact fun b k signed hb => load_put_of_separate haccessible v signed hb
  · exact fun b d k signed hb hdk => load_put_of_part haccessible hn v signed hb hdk

end Memory

/-- The store of a frame is a store of its memory, and changes nothing else. -/
theorem storeTo_eq {p : Program} {f : Frame} {s : State} {base src : Operand} {address w : Int64}
    (hbase : value p f base = .ok address) (hsrc : value p f src = .ok w) (offset : Int64) (n : Nat) :
    storeTo p f s base offset src n = match s.memory.store (address + offset) n w with
      | .ok memory => .go f { s with memory }
      | .error e => .done (.error e) s := by
  simp only [storeTo, hbase, hsrc, Memory.store]
  cases s.memory.locate (address + offset) n <;> rfl

namespace Memory

variable {n : Nat}

/-- An access of up to eight bytes, by whatever address and in whatever memory, succeeds exactly if it is
accessible, and else is refused for its address. After a store that succeeds, the same bytes give the
value reduced to their width, a part of them gives the value shifted to where the part begins and reduced
to its width, and separate bytes give what they gave before; a store that is refused leaves the machine
as it was. -/
theorem store_and_load (hn : n ≤ 8) (m : Memory) (a v : Int64) :
    ((∃ m', m.store a n v = .ok m') ↔ m.Accessible a n) ∧
    (∀ signed, (∃ w, m.load a n signed = .ok w) ↔ m.Accessible a n) ∧
    (¬ m.Accessible a n → m.store a n v = .error (refusal a n) ∧
      ∀ signed, m.load a n signed = .error (refusal a n)) ∧
    (∀ m', m.store a n v = .ok m' → StoredAt m m' a n v) ∧
    ∀ p f s base offset src address, s.memory = m → value p f base = .ok address →
      address + offset = a → value p f src = .ok v → ¬ m.Accessible a n →
      storeTo p f s base offset src n = .done (.error (refusal a n)) s := by
  refine ⟨?_, fun signed => ?_, fun h => ?_, fun m' h => storedAt_of_store hn h, ?_⟩
  · rw [store_eq]
    by_cases h : m.Accessible a n <;> simp [h]
  · rw [load_eq]
    by_cases h : m.Accessible a n <;> simp [h]
  · rw [store_eq, if_neg h]
    refine ⟨rfl, fun signed => ?_⟩
    rw [load_eq, if_neg h]
  · rintro p f s base offset src address rfl hbase rfl hsrc h
    rw [storeTo_eq hbase hsrc, store_eq, if_neg h]

/-- The second byte of a word that was stored, and a word that the end of the memory cuts off. -/
theorem store_and_load_of_word :
    4 ≤ 8 ∧ (∃ m', (zeros 32).store 24 4 (-2) = .ok m' ∧ m'.load 24 4 true = .ok (-2) ∧
      m'.load 25 1 false = .ok 255) ∧
    (zeros 32).store 30 4 (-2) = .error (.outOfBounds 30 4) := by
  have hword : 4 ≤ 8 := by decide
  obtain ⟨hsucceeds, -, -, hstored, -⟩ := store_and_load hword (zeros 32) 24 (-2)
  obtain ⟨m', hm'⟩ := hsucceeds.mpr (by decide)
  have hpart := (hstored m' hm').part 25 1 1 false (by decide) (by decide)
  refine ⟨hword, ⟨m', hm', (hstored m' hm').whole true, hpart⟩, ?_⟩
  exact ((store_and_load hword (zeros 32) 30 (-2)).2.2.1 (by decide)).1

end Memory
end Machine
end MiniC
