/-!
Words and texts as bytes. Words are little-endian, and a text is stored as its UTF-8 bytes.
-/
namespace MiniC.Bytes

/-- How many numbers `count` bytes can spell. -/
def range (count : Nat) : Nat := 1 <<< (8 * count)

/-- The number that `count` bytes spell, lowest byte first. -/
def readNat (bytes : Array UInt8) (pos : Nat) : (count : Nat) → Nat
  | 0 => 0
  | count + 1 => (bytes.getD pos 0).toNat + 256 * readNat bytes (pos + 1) count

/-- Spells the low `count` bytes of a word, lowest byte first. -/
def writeWord (bytes : Array UInt8) (pos : Nat) (word : UInt64) : (count : Nat) → Array UInt8
  | 0 => bytes
  | count + 1 => writeWord (bytes.setIfInBounds pos word.toUInt8) (pos + 1) (word >>> 8) count

def writeList (bytes : Array UInt8) (pos : Nat) : List UInt8 → Array UInt8
  | [] => bytes
  | b :: data => writeList (bytes.setIfInBounds pos b) (pos + 1) data

/-- The word that a number of `size` bytes stands for: the sign bit is the highest one read. -/
def extend (size : Nat) (signed : Bool) (raw : Nat) : Int64 :=
  if signed && decide (range size ≤ 2 * raw) then
    Int64.ofInt ((raw : Int) - (range size : Nat))
  else Int64.ofNat raw

def ofText (s : String) : List UInt8 := s.toUTF8.toList

/-- The bytes that characters take in a text. -/
def lengthOf : List Char → Nat
  | [] => 0
  | c :: cs => c.utf8Size + lengthOf cs

@[simp] theorem size_writeWord (bytes : Array UInt8) (pos : Nat) (word : UInt64) (count : Nat) :
    (writeWord bytes pos word count).size = bytes.size := by
  induction count generalizing bytes pos word with
  | zero => rfl
  | succ count ih => simp [writeWord, ih]

@[simp] theorem size_writeList (bytes : Array UInt8) (pos : Nat) (data : List UInt8) :
    (writeList bytes pos data).size = bytes.size := by
  induction data generalizing bytes pos with
  | nil => rfl
  | cons b data ih => simp [writeList, ih]

end MiniC.Bytes
