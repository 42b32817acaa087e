import MiniC.Proofs.Evaluation.Initial
import MiniC.Proofs.Layout.Flattening
import MiniC.Proofs.Lowering.Straight
/-!
Copies. The code of a copy carries one scalar over after the other, by a load and a store of its width.
Main statement: between objects that are apart from one another, or the same, it runs to its end, gives
each scalar of the target the bytes that the source had there, and changes no other byte.
-/
namespace MiniC

open Evaluation (Room)

namespace Bytes

variable {bytes : Array UInt8} {pos count j : Nat} {data : List UInt8}

/-- The bytes from some place on. -/
def slice (bytes : Array UInt8) (pos : Nat) : (count : Nat) → List UInt8
  | 0 => []
  | count + 1 => bytes.getD pos 0 :: slice bytes (pos + 1) count

@[simp]
theorem length_slice (bytes : Array UInt8) (pos count : Nat) : (slice bytes pos count).length = count := by
  induction count generalizing pos with
  | zero => rfl
  | succ count ih => exact congrArg (· + 1) (ih _)

theorem getElem?_slice (hfits : pos + count ≤ bytes.size) (hj : j < count) :
    (slice bytes pos count)[j]? = bytes[pos + j]? := by
  induction count generalizing pos j with
  | zero => exact absurd hj (Nat.not_lt_zero _)
  | succ count ih =>
    cases j with
    | zero =>
      have hlt : pos < bytes.size := by omega
      simp [slice, hlt]
    | succ j =>
      rw [slice, List.getElem?_cons_succ, ih (by omega) (by omega)]
      congr 1
      omega

theorem readNat_eq (bytes : Array UInt8) (pos count : Nat) :
    readNat bytes pos count = toNat (slice bytes pos count) := by
  induction count generalizing pos with
  | zero => rfl
  | succ count ih => rw [readNat, slice, toNat, ih]

theorem toNat_lt (data : List UInt8) : toNat data < 256 ^ data.length := by
  induction data with
  | nil => exact Nat.one_pos
  | cons b data ih =>
    have hb := b.toNat_lt
    rw [toNat, List.length_cons, Nat.pow_succ']
    omega

/-- Extending a number to a word leaves its low bytes. -/
theorem toNat_extend (hcount : count ≤ 8) (signed : Bool) {raw : Nat} (hraw : raw < 256 ^ count) :
    (extend count signed raw).toUInt64.toNat % 256 ^ count = raw := by
  have hdvd : ((256 ^ count : Nat) : Int) ∣ 2 ^ 64 := by
    exact_mod_cast (pow_dvd_pow 256 hcount : 256 ^ count ∣ 256 ^ 8)
  have hword (z : Int) (hz : z % (256 ^ count : Nat) = raw) :
      (Int64.ofInt z).toUInt64.toNat % 256 ^ count = raw := by
    have hbmod : (Int64.ofInt z).toInt % (2 : Int) ^ 64 = z % 2 ^ 64 := by
      rw [Int64.toInt_ofInt]
      exact Int.bmod_emod
    rw [← Int.natCast_inj, Int.natCast_emod, Evaluation.toNat_toUInt64, hbmod,
      Int.emod_emod_of_dvd _ hdvd]
    exact hz
  have hsmall : ((raw : Int)) % (256 ^ count : Nat) = raw :=
    Int.emod_eq_of_lt (Int.natCast_nonneg _) (by exact_mod_cast hraw)
  unfold extend
  split
  · refine hword _ ?_
    rw [range_eq_pow, Int.sub_emod_right]
    exact hsmall
  · rw [← Int64.ofInt_eq_ofNat]
    exact hword _ hsmall

theorem ofWord_extend (hdata : data.length ≤ 8) (signed : Bool) :
    ofWord (extend data.length signed (toNat data)).toUInt64 data.length = data :=
  toNat_inj (by simp) (by rw [toNat_ofWord, toNat_extend hdata signed (toNat_lt data)])

end Bytes

namespace Machine

/-- After `before`, the bytes at some offsets of the object at `start` are those that the object at
`here` had; all others are as they were. -/
structure Transfers (P : Nat → Prop) (here start : Nat) (before after : Memory) : Prop where
  size : after.size = before.size
  moved : ∀ o, P o → after.bytes[start + o]? = before.bytes[here + o]?
  kept : ∀ j, (∀ o, P o → j ≠ start + o) → after.bytes[j]? = before.bytes[j]?

/-- Objects of that size that are the same or share no byte. -/
def Separate (here start size : Nat) : Prop :=
  here = start ∨ here + size ≤ start ∨ start + size ≤ here

section Transfers

variable {P Q : Nat → Prop} {here start size n : Nat} {before between after : Memory}

theorem transfers_nothing (here start : Nat) (m : Memory) : Transfers (fun _ => False) here start m m :=
  ⟨rfl, fun _ h => h.elim, fun _ _ => rfl⟩

/-- The source is not changed on the way. -/
theorem Transfers.source (h : Transfers P here start before after) (hP : ∀ o, P o → o < size)
    (hseparate : Separate here start size) {o : Nat} (ho : o < size) :
    after.bytes[here + o]? = before.bytes[here + o]? := by
  rcases hseparate with rfl | hapart
  · by_cases hmoved : P o
    · exact h.moved o hmoved
    · refine h.kept _ fun o' ho' heq => hmoved ?_
      rwa [Nat.add_left_cancel heq]
  · refine h.kept _ fun o' ho' heq => ?_
    have hlt := hP o' ho'
    omega

theorem Transfers.trans (h : Transfers P here start before between)
    (k : Transfers Q here start between after)
    (hsource : ∀ o, Q o → between.bytes[here + o]? = before.bytes[here + o]?) :
    Transfers (fun o => P o ∨ Q o) here start before after where
  size := k.size.trans h.size
  moved o ho := by
    by_cases hQ : Q o
    · rw [k.moved o hQ, hsource o hQ]
    · rw [k.kept _ fun o' ho' heq => hQ (by rwa [Nat.add_left_cancel heq]),
        h.moved o (ho.resolve_right hQ)]
  kept j hj := by
    rw [k.kept j fun o ho => hj o (.inr ho), h.kept j fun o ho => hj o (.inl ho)]

theorem Transfers.congr (h : Transfers P here start before after) (hPQ : ∀ o, P o ↔ Q o) :
    Transfers Q here start before after where
  size := h.size
  moved o ho := h.moved o ((hPQ o).mpr ho)
  kept j hj := h.kept j fun o ho => hj o ((hPQ o).mp ho)

/-- A number that is read and written back with the same width. -/
theorem transfers_put (hn : n ≤ 8) (hhere : here + n ≤ before.size) (hstart : start + n ≤ before.size)
    (signed : Bool) :
    Transfers (· < n) here start before
      (before.put start n (Bytes.extend n signed (Bytes.readNat before.bytes here n))) := by
  have hslice : (Bytes.slice before.bytes here n).length = n := Bytes.length_slice _ _ _
  have hwritten : (before.put start n (Bytes.extend n signed (Bytes.readNat before.bytes here n))).bytes =
      Bytes.writeList before.bytes start (Bytes.slice before.bytes here n) := by
    have hword := Bytes.ofWord_extend (hslice.le.trans hn) signed
    rw [hslice, ← Bytes.readNat_eq] at hword
    rw [Memory.put, Bytes.writeWord_eq, hword]
  constructor
  case size => exact Memory.size_put ..
  case moved =>
    intro o ho
    rw [hwritten, Bytes.getElem?_writeList (by rw [hslice]; exact hstart) (by omega),
      Bytes.getElem?_slice hhere ho]
  case kept =>
    intro j hj
    rw [hwritten]
    refine Bytes.getElem?_writeList_of_outside ?_
    rw [hslice]
    by_contra hinside
    exact hj (j - start) (by omega) (by omega)

end Transfers

end Machine

namespace Registry

/-- A move is as wide as the scalar that it moves. -/
theorem Consistent.size_move {r : Registry} {t : TypeId} {m : ScalarMove} (h : r.Consistent)
    (hm : m ∈ r.moves t) : m.access.size ≤ 8 := by
  obtain ⟨ps, hps⟩ := h.exists_enumerates t
  obtain ⟨i, hi, rfl⟩ := List.mem_iff_getElem.mp hm
  obtain ⟨hlength, hall⟩ := List.forall₂_iff_get.mp hps.moves
  obtain ⟨leaf, -, ha, -⟩ := hall i (hlength.symm ▸ hi) hi
  exact h.access_le ha

end Registry

namespace Lowering

open Code (Operand)
open Machine (Frame Kept Program Reaches Routine Separate Transfers next tick)

/-- The place is the object at `start`, and its base is one of the values that there are so far. -/
def Lies (p : Program) (n : Nat) (place : Place) (f : Frame) (start : Nat) : Prop :=
  ∃ b, Machine.value p f place.base = .ok b ∧ place.base.Below n ∧ b + place.offset = Int64.ofNat start

/-- From the beginning of the code after `s` to its end, with nothing changed but memory and what is
new. -/
structure Crosses (p : Program) (r : Routine) (s s' : State) (f : Frame) (m : Machine.State)
    (g : Frame) (n : Machine.State) : Prop where
  path : Reaches p r f m g n
  pc : g.pc = s'.code.size
  kept : Kept s.temps f g
  slots : g.slots = f.slots
  stack : n.stack = m.stack
  depth : n.depth = m.depth

section Copies

variable {p : Program} {r : Routine} {s s' t : State} {f g h : Frame} {m n u : Machine.State}
  {target source place : Place} {start here size : Nat} {ms : List ScalarMove} {b : Operand}

theorem Lies.kept {k k' : Nat} (hp : Lies p k place f start) (hfg : Kept k f g) (hk : k ≤ k') :
    Lies p k' place g start := by
  obtain ⟨b, hb, hbelow, haddress⟩ := hp
  exact ⟨b, (Machine.value_kept hfg hbelow).trans hb, hbelow.mono hk, haddress⟩

/-- The address of a byte of the object. -/
theorem Lies.address (hp : Lies p s.temps place f start) (o : Nat) :
    ∃ b, Machine.value p f place.base = .ok b ∧
      b + (place.offset + Int64.ofNat o) = Int64.ofNat (start + o) := by
  obtain ⟨b, hb, -, haddress⟩ := hp
  exact ⟨b, hb, by rw [← Int64.add_assoc, haddress, ← Int64.ofNat_add]⟩

theorem Crosses.refl (hpc : f.pc = s.code.size) : Crosses p r s s f m f m :=
  ⟨.refl f m, hpc, .refl _ f, rfl, rfl, rfl⟩

theorem Crosses.trans (hst : Crosses p r s t f m g n) (hts : Crosses p r t s' g n h u)
    (hle : s.temps ≤ t.temps) : Crosses p r s s' f m h u where
  path := hst.path.trans hts.path
  pc := hts.pc
  kept := hst.kept.trans hts.kept hle
  slots := hts.slots.trans hst.slots
  stack := hts.stack.trans hst.stack
  depth := hts.depth.trans hst.depth

theorem Arrives.crosses (h : Arrives p r s s' f m g n) : Crosses p r s s' f m g n :=
  ⟨h.path, h.pc, h.kept, h.slots, h.stack, h.depth⟩

/-- A store into an object that can be reached. -/
theorem crosses_store {offset : Int64} {k width : Nat} {v : Operand} {y a : Int64}
    (hs : emit (.store b offset v width) s = .ok ((), s')) (hr : Hosts r f s')
    (hpc : f.pc = s.code.size) (hb : Machine.value p f b = .ok a)
    (hv : Machine.value p f v = .ok y) (haddress : a + offset = Int64.ofNat (start + k))
    (hroom : Room m.memory start size) (hk : k + width ≤ size) :
    ∃ g n, Crosses p r s s' f m g n ∧ n.memory = m.memory.put (start + k) width y := by
  obtain rfl := emit_eq_ok.mp hs
  have hat := hr.at_push rfl hpc
  refine ⟨f.goto (f.pc + 1), { tick m with memory := m.memory.put (start + k) width y },
    ⟨.single hat ?_, ?_, Machine.kept_goto _ f _, rfl, rfl, rfl⟩, rfl⟩
  · have hlocate : (tick m).memory.locate (a + offset) width = .ok (start + k) := by
      rw [haddress]
      exact hroom.locate hk
    simp only [next, Machine.step, Machine.storeTo, Machine.value_goto, hb, hv]
    rw [hlocate]
    rfl
  · simp [Frame.goto, hpc]

/-- A scalar is carried over by a load and a store. -/
theorem crosses_move {move : ScalarMove} {v : Operand} (hload : define (.load · source.base
      (source.offset + Int64.ofNat move.offset) move.access) s = .ok (v, t))
    (hstore : emit (.store target.base (target.offset + Int64.ofNat move.offset) v
      move.access.size) t = .ok ((), s'))
    (hr : Hosts r f s') (hpc : f.pc = s.code.size) (htarget : Lies p s.temps target f start)
    (hsource : Lies p s.temps source f here) (hto : Room m.memory start size)
    (hfrom : Room m.memory here size) (hinside : move.offset + move.access.size ≤ size)
    (hwidth : move.access.size ≤ 8) :
    ∃ g n, Crosses p r s s' f m g n ∧
      Transfers (fun o => move.offset ≤ o ∧ o < move.offset + move.access.size) here start m.memory
        n.memory := by
  have hst := Grows.extends_of (.define _) hload
  have hts := Grows.extends_of (.emit _) hstore
  obtain ⟨b, hb, hbase⟩ := hsource.address move.offset
  have hread := gives_define (p := p) (m := m) hload (hr.grows hts) hpc
    (x := .ok (Bytes.extend move.access.size move.access.signed
      (Bytes.readNat m.memory.bytes (here + move.offset) move.access.size))) (by
    have hvalue : m.memory.load (b + (source.offset + Int64.ofNat move.offset)) move.access.size
        move.access.signed = .ok (Bytes.extend move.access.size move.access.signed
          (Bytes.readNat m.memory.bytes (here + move.offset) move.access.size)) := by
      rw [hbase, Machine.Memory.load, hfrom.locate hinside]
    simp only [next, Machine.step, Machine.value_goto, hb]
    exact congrArg _ hvalue)
  obtain ⟨g, n, harrives, hv, -⟩ := hread
  obtain ⟨b', hb', hbase'⟩ := (htarget.kept harrives.kept hst.temps).address move.offset
  obtain ⟨h, u, hcrosses, hmemory⟩ := crosses_store hstore (hr.kept harrives.kept) harrives.pc hb' hv
    hbase' (by rw [harrives.memory]; exact hto) hinside
  refine ⟨h, u, harrives.crosses.trans hcrosses hst.temps, ?_⟩
  have hfits := hto.fits
  have hfits' := hfrom.fits
  have hput : Machine.Transfers (· < move.access.size) (here + move.offset) (start + move.offset) m.memory _ :=
    Machine.transfers_put hwidth (by omega) (by omega) move.access.signed
  rw [hmemory, harrives.memory]
  constructor
  case size => exact hput.size
  case moved =>
    rintro o ⟨hle, hlt⟩
    have hmoved := hput.moved (o - move.offset) (by omega)
    rwa [show start + move.offset + (o - move.offset) = start + o by omega,
      show here + move.offset + (o - move.offset) = here + o by omega] at hmoved
  case kept =>
    intro j hj
    refine hput.kept j fun o ho heq => hj (move.offset + o) ⟨by omega, by omega⟩ ?_
    omega

/-- One move after the other: what was moved before leaves the rest of the source as it was. -/
theorem crosses_copyMoves (hs : Place.copyMoves target source ms s = .ok ((), s'))
    (hr : Hosts r f s') (hpc : f.pc = s.code.size) (htarget : Lies p s.temps target f start)
    (hsource : Lies p s.temps source f here) (hto : Room m.memory start size)
    (hfrom : Room m.memory here size) (hseparate : Separate here start size)
    (hms : ∀ move ∈ ms, move.offset + move.access.size ≤ size ∧ move.access.size ≤ 8) :
    ∃ g n, Crosses p r s s' f m g n ∧
      Transfers (fun o => ∃ move ∈ ms, move.offset ≤ o ∧ o < move.offset + move.access.size) here start
        m.memory n.memory := by
  induction ms generalizing s f m with
  | nil =>
    obtain ⟨-, rfl⟩ := pure_eq_ok.mp hs
    exact ⟨f, m, .refl hpc, (Machine.transfers_nothing here start m.memory).congr fun o => by simp⟩
  | cons move ms ih =>
    obtain ⟨v, t, hload, hs⟩ := bind_eq_ok.mp hs
    obtain ⟨⟨⟩, t', hstore, hs⟩ := bind_eq_ok.mp hs
    obtain ⟨⟨hinside, hwidth⟩, hms⟩ := List.forall_mem_cons.mp hms
    have hst := (Grows.extends_of (.define _) hload).trans (Grows.extends_of (.emit _) hstore)
    have hts := Grows.extends_of (grows_copyMoves target source ms) hs
    obtain ⟨g, n, hcrosses, hfirst⟩ := crosses_move hload hstore (hr.grows hts) hpc htarget hsource hto
      hfrom hinside hwidth
    have hroom {a : Nat} (ha : Room m.memory a size) : Room n.memory a size :=
      ⟨ha.above, by rw [hfirst.size]; exact ha.fits, by rw [hfirst.size]; exact ha.words⟩
    obtain ⟨h, u, hcrosses', hrest⟩ := ih hs (hr.kept hcrosses.kept) hcrosses.pc
      (htarget.kept hcrosses.kept hst.temps) (hsource.kept hcrosses.kept hst.temps) (hroom hto)
      (hroom hfrom) hms
    refine ⟨h, u, hcrosses.trans hcrosses' hst.temps, (hfirst.trans hrest fun o ho => ?_).congr fun o => ?_⟩
    · obtain ⟨move', hmem, -, hlt⟩ := ho
      have hle := (hms move' hmem).1
      exact hfirst.source (fun o ho => by omega) hseparate (by omega)
    · simp

theorem copyMoves_total (target source : Place) (ms : List ScalarMove) (s : State) :
    ∃ s', Place.copyMoves target source ms s = .ok ((), s') := by
  induction ms generalizing s with
  | nil => exact ⟨s, rfl⟩
  | cons move ms ih => exact ih _

/-- The code of a copy between such objects. -/
theorem crosses_copy {registry : Registry} (hc : registry.Consistent)
    (hs : Place.copy registry target source s = .ok ((), s')) (hr : Hosts r f s')
    (hpc : f.pc = s.code.size) (htarget : Lies p s.temps target f start)
    (hsource : Lies p s.temps source f here)
    (hto : Room m.memory start (registry.sizeOf target.ty))
    (hfrom : Room m.memory here (registry.sizeOf target.ty))
    (hseparate : Separate here start (registry.sizeOf target.ty)) :
    ∃ g n, Crosses p r s s' f m g n ∧
      Transfers (registry.IsLeaf target.ty) here start m.memory n.memory :=
  crosses_copyMoves hs hr hpc htarget hsource hto hfrom hseparate fun _ hmove =>
    ⟨hc.move_inside _ hmove, hc.size_move hmove⟩

end Copies

end Lowering
end MiniC
