import BoundedLR.Table.Error

/-!
# Words of a table

A stored table is a flat array of unsigned words of one width.  Numbers are
written into words only if they fit; nothing is ever cut off.  As bytes a word
has its lowest byte first.

`ofLittleEndian_littleEndian` says that a word that fits is read back from its
bytes, and `ofLittleEndian_lt` that bytes always make a word that fits.
-/

namespace BoundedLR

/-- How wide the words of a table are. -/
inductive Width where
  | bits16
  | bits32
  | bits64
  deriving DecidableEq, Repr

/-- The first number that a given number of bytes cannot hold. -/
def byteLimit : Nat → Nat
  | 0 => 1
  | count + 1 => 256 * byteLimit count

namespace Width

/-- The number of bytes in a word. -/
def bytes : Width → Nat
  | bits16 => 2
  | bits32 => 4
  | bits64 => 8

/-- The first number that a word cannot hold. -/
def bound (w : Width) : Nat := byteLimit w.bytes

/-- The name of the type of a word in source text. -/
def typeName : Width → String
  | bits16 => "u16"
  | bits32 => "u32"
  | bits64 => "u64"

theorem bytes_pos (w : Width) : 0 < w.bytes := by
  cases w <;> decide

end Width

/-- A number as a word of the given width, if it fits. -/
def narrow (w : Width) (field : Field) (value : Nat) : Except OutOfRange Nat :=
  if value < w.bound then .ok value else .error ⟨field, value⟩

/-! ## Bytes -/

/-- The lowest bytes of a number, the lowest of all first. -/
def littleEndian : Nat → Nat → List UInt8
  | 0, _ => []
  | count + 1, n => .ofNat n :: littleEndian count (n / 256)

/-- The number that bytes stand for, the lowest byte first. -/
def ofLittleEndian : List UInt8 → Nat
  | [] => 0
  | b :: rest => b.toNat + 256 * ofLittleEndian rest

@[simp] theorem length_littleEndian (count n : Nat) :
    (littleEndian count n).length = count := by
  induction count generalizing n with
  | zero => rfl
  | succ count ih => simp [littleEndian, ih]

/-- More bytes hold more numbers. -/
theorem byteLimit_le_byteLimit {m n : Nat} (h : m ≤ n) : byteLimit m ≤ byteLimit n := by
  induction h with
  | refl => exact Nat.le_refl _
  | step _ ih =>
      simp only [byteLimit]
      omega

/-- Bytes make a number that as many bytes can hold. -/
theorem ofLittleEndian_lt (bs : List UInt8) : ofLittleEndian bs < byteLimit bs.length := by
  induction bs with
  | nil => decide
  | cons b rest ih =>
      have hb : b.toNat < 256 := b.toNat_lt
      simp only [ofLittleEndian, List.length_cons, byteLimit]
      omega

/-- A number is read back from its bytes if they are enough for it. -/
theorem ofLittleEndian_littleEndian {count n : Nat} (h : n < byteLimit count) :
    ofLittleEndian (littleEndian count n) = n := by
  induction count generalizing n with
  | zero =>
      simp only [byteLimit] at h
      simp only [littleEndian, ofLittleEndian]
      omega
  | succ count ih =>
      simp only [byteLimit] at h
      have hq : n / 256 < byteLimit count := by omega
      have hb : (UInt8.ofNat n).toNat = n % 256 := by simp
      simp only [littleEndian, ofLittleEndian, ih hq, hb]
      omega

/-- Cuts bytes into a given number of words of a given size. -/
def wordsOfBytes (size : Nat) : Nat → List UInt8 → List Nat
  | 0, _ => []
  | count + 1, bytes =>
    ofLittleEndian (bytes.take size) :: wordsOfBytes size count (bytes.drop size)

theorem lt_of_mem_wordsOfBytes {size count : Nat} {bytes : List UInt8} :
    ∀ w ∈ wordsOfBytes size count bytes, w < byteLimit size := by
  induction count generalizing bytes with
  | zero => simp [wordsOfBytes]
  | succ count ih =>
      intro w hw
      rcases List.mem_cons.1 hw with rfl | hw
      · refine Nat.lt_of_lt_of_le (ofLittleEndian_lt _) ?_
        exact byteLimit_le_byteLimit (List.length_take_le size bytes)
      · exact ih w hw

/-! ## Buffers -/

/-- Words of one width. -/
structure Buffer where
  width : Width
  words : Array Nat
  fits : ∀ w ∈ words, w < width.bound

namespace Buffer

/-- The buffer with given words, if all of them fit. -/
def ofWords? (width : Width) (words : Array Nat) : Option Buffer :=
  if h : ∀ w ∈ words, w < width.bound then some ⟨width, words, h⟩ else none

/-- The bytes of a buffer, word after word. -/
def toBytes (b : Buffer) : List UInt8 :=
  b.words.toList.flatMap (littleEndian b.width.bytes)

/-- The buffer with given bytes, unless they do not make up whole words. -/
def ofBytes (width : Width) (bytes : List UInt8) : Except TableError Buffer :=
  if bytes.length % width.bytes = 0 then
    .ok ⟨width, (wordsOfBytes width.bytes (bytes.length / width.bytes) bytes).toArray,
      fun w hw => lt_of_mem_wordsOfBytes w (List.mem_toArray.1 hw)⟩
  else .error (.misaligned bytes.length)

end Buffer

end BoundedLR
