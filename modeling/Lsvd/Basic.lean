import Mathlib

/-!
# Constants, segment ids, and the byte encodings of the segment format

`BlockSize` and `FlushThreshHold` of `disk.go`, the block as the code handles it, segment ids, and
the LZ4 library as the two functions the code calls.

A segment file and the volume object index are built from two encodings of numbers: Go's
`binary.PutUvarint` (seven bits a byte, low group first, the high bit set on every byte but the
last) for the fields of a header record, and big-endian words of a fixed width for
`binary.BigEndian.PutUint32` and for the sixteen bytes of a ULID. Each encoder has its decoder,
and the round trips (`uvarint_putUvarint`, `getBE_putBE`) leave any suffix in place, so that
records read back from a concatenation.
-/

namespace Lsvd

/-- `BlockSize`: the size of all blocks in bytes. -/
def BlockSize : ℕ := 4 * 1024

/-- `FlushThreshHold`: how big the body of a segment gets before it is flushed. -/
def FlushThreshHold : ℕ := 15 * 1024 * 1024

/-- A block, as its bytes. -/
abbrev Block := List UInt8

/-- Modelled from the spec: `emptyBlock`, which `emptyBytes` compares a block with, is
`BlockSize` zero bytes ("If all bytes are zero, emit a record with `flags=Empty`"). -/
def emptyBlock : Block := List.replicate BlockSize 0

/-- `SegmentId`, a ULID: 128 bits, ordered as numbers. -/
abbrev SegmentId := Fin (2 ^ 128)

/-- The two functions of the LZ4 library that the segment code calls, on whole buffers:
`CompressBlock` gives the compressed bytes (none at all when the input does not compress), and
`UncompressBlock` the decompressed bytes or an error. -/
structure Lz4 where
  compressBlock : List UInt8 → List UInt8
  uncompressBlock : List UInt8 → Option (List UInt8)

/-- `UncompressBlock` inverts `CompressBlock` wherever it produced output. -/
def Lz4.Inverts (lz : Lz4) : Prop :=
  ∀ b, lz.compressBlock b ≠ [] → lz.uncompressBlock (lz.compressBlock b) = some b

/-- `n` bytes from offset `off`: the Go slice `bs[off:off+n]`, cut short at the end of `bs`. -/
def bytesAt (bs : List UInt8) (off n : ℕ) : List UInt8 := (bs.drop off).take n

/-- A slice inside a prefix is a slice of that prefix. -/
theorem bytesAt_append_left {xs : List UInt8} (ys : List UInt8) {off n : ℕ}
    (h : off + n ≤ xs.length) : bytesAt (xs ++ ys) off n = bytesAt xs off n := by
  rw [bytesAt, List.drop_append_of_le_length (by omega),
    List.take_append_of_le_length (by simp; omega), bytesAt]

/-- A slice past a prefix is a slice of what follows it. -/
theorem bytesAt_append_right (xs ys : List UInt8) (off n : ℕ) :
    bytesAt (xs ++ ys) (xs.length + off) n = bytesAt ys off n := by
  simp [bytesAt, List.drop_append]

/-- A slice of a prefix that ends inside it is a slice of the whole. -/
theorem bytesAt_take {xs : List UInt8} {p off n : ℕ} (h : off + n ≤ p) :
    bytesAt (xs.take p) off n = bytesAt xs off n := by
  simp only [bytesAt, List.drop_take]
  rw [List.take_take, min_eq_left (by omega)]

/-- A slice of a suffix is a slice of the whole, further on. -/
theorem bytesAt_drop (xs : List UInt8) (p off n : ℕ) :
    bytesAt (xs.drop p) off n = bytesAt xs (p + off) n := by
  simp [bytesAt, List.drop_drop, Nat.add_comm]

/-- A slice of a slice. -/
theorem bytesAt_bytesAt (xs : List UInt8) {a b c n : ℕ} (h : c + n ≤ b) :
    bytesAt (bytesAt xs a b) c n = bytesAt xs (a + c) n := by
  show bytesAt ((xs.drop a).take b) c n = _
  rw [bytesAt_take h, bytesAt_drop]

@[simp]
theorem length_bytesAt (xs : List UInt8) (off n : ℕ) :
    (bytesAt xs off n).length = min n (xs.length - off) := by
  simp [bytesAt]

/-- The slice past a prefix, as long as what follows it, is what follows it. -/
@[simp]
theorem bytesAt_append_length (xs ys : List UInt8) :
    bytesAt (xs ++ ys) xs.length ys.length = ys := by
  simp [bytesAt]

/-- `binary.PutUvarint`'s loop, with `fuel` bounding its turns: while `x ≥ 0x80` emit
`byte(x) | 0x80` and shift `x` right by seven; then emit `byte(x)`. -/
def putUvarintLoop : ℕ → ℕ → List UInt8
  | 0, x => [UInt8.ofNat x]
  | fuel + 1, x =>
    if x < 0x80 then [UInt8.ofNat x]
    else UInt8.ofNat (x % 0x80 + 0x80) :: putUvarintLoop fuel (x / 0x80)

/-- `binary.PutUvarint`: the loop never needs more than `x` turns. -/
def putUvarint (x : ℕ) : List UInt8 := putUvarintLoop x x

/-- The reading of a uvarint: low seven-bit groups first, ending at the first byte below `0x80`;
the number and the bytes after it, or `none` when the input ends inside the number. -/
def uvarint : List UInt8 → Option (ℕ × List UInt8)
  | [] => none
  | b :: rest =>
    if b.toNat < 0x80 then some (b.toNat, rest)
    else (uvarint rest).map fun (x, r) => (b.toNat % 0x80 + 0x80 * x, r)

/-- With enough fuel, the loop's bytes read back to the number, the bytes after them untouched. -/
theorem uvarint_putUvarintLoop (fuel x : ℕ) (hx : x ≤ fuel) (rest : List UInt8) :
    uvarint (putUvarintLoop fuel x ++ rest) = some (x, rest) := by
  induction fuel generalizing x with
  | zero =>
    obtain rfl : x = 0 := by omega
    rfl
  | succ fuel ih =>
    simp only [putUvarintLoop]
    by_cases hlt : x < 0x80
    · have hb : (UInt8.ofNat x).toNat = x := Nat.mod_eq_of_lt (by omega)
      simp [uvarint, hlt, hb]
    · have hb : (UInt8.ofNat (x % 0x80 + 0x80)).toNat = x % 0x80 + 0x80 :=
        Nat.mod_eq_of_lt (by omega)
      simp only [hlt, if_false, List.cons_append, uvarint, hb, ih (x / 0x80) (by omega),
        show ¬(x % 0x80 + 0x80 < 0x80) by omega, Option.map_some']
      congr 2
      omega

/-- A uvarint reads back to the number written, with the bytes after it untouched. -/
theorem uvarint_putUvarint (x : ℕ) (rest : List UInt8) :
    uvarint (putUvarint x ++ rest) = some (x, rest) :=
  uvarint_putUvarintLoop x x le_rfl rest

/-- The low `k` bytes of `n`, most significant first: `binary.BigEndian.PutUint32` at `k = 4`
(which truncates to `uint32` on the way) and the bytes of a ULID at `k = 16`. -/
def putBE : ℕ → ℕ → List UInt8
  | 0, _ => []
  | k + 1, n => putBE k (n / 256) ++ [UInt8.ofNat n]

/-- The number that big-endian bytes spell. -/
def getBE (bs : List UInt8) : ℕ := bs.foldl (fun acc b => acc * 256 + b.toNat) 0

@[simp]
theorem length_putBE (k n : ℕ) : (putBE k n).length = k := by
  induction k generalizing n <;> simp [putBE, *]

/-- Big-endian bytes spell the number they were taken from, modulo their width. -/
theorem getBE_putBE (k n : ℕ) : getBE (putBE k n) = n % 256 ^ k := by
  induction k generalizing n with
  | zero => simp [getBE, putBE, Nat.mod_one]
  | succ k ih =>
    have h := ih (n / 256)
    simp only [getBE] at h
    simp only [getBE, putBE, List.foldl_append, h, List.foldl_cons, List.foldl_nil]
    show n / 256 % 256 ^ k * 256 + n % 256 = n % 256 ^ (k + 1)
    rw [Nat.pow_succ', Nat.mod_mul, Nat.mul_comm, Nat.add_comm]

/-- `seg[:]`: the sixteen bytes of a segment id, most significant first. -/
def SegmentId.bytes (s : SegmentId) : List UInt8 := putBE 16 s.val

end Lsvd
