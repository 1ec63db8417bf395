import Mathlib.Data.List.Basic
import Mathlib.Data.List.Induction
import Mathlib.Tactic.Common
import Mathlib.Tactic.Ring
import OLog.Lib.Runs

/-!
Java arrays and byte buffers. A number of `width` bytes is written most
significant byte first; writing and reading are inverse to each other in both
directions. An array carries the bound on its length, and lengths and
positions are computed as `int`s, so an array that would be too long is an
exception and not a value.
-/

namespace OLog.Lib

/-- The `width` big-endian bytes of a number; what does not fit is dropped. -/
def toBytes : Nat → Nat → List UInt8
  | 0, _ => []
  | width + 1, n => toBytes width (n / 256) ++ [UInt8.ofNat n]

def ofBytes (bytes : List UInt8) : Nat :=
  bytes.foldl (fun n b => n * 256 + b.toNat) 0

@[simp] theorem length_toBytes (width n : Nat) : (toBytes width n).length = width := by
  induction width generalizing n with
  | zero => rfl
  | succ width ih => simp [toBytes, ih]

theorem ofBytes_concat (bytes : List UInt8) (b : UInt8) :
    ofBytes (bytes ++ [b]) = ofBytes bytes * 256 + b.toNat := by
  simp [ofBytes]

theorem ofBytes_toBytes (width n : Nat) : ofBytes (toBytes width n) = n % 256 ^ width := by
  induction width generalizing n with
  | zero => simp [toBytes, ofBytes, Nat.mod_one]
  | succ width ih =>
      have hbyte : (UInt8.ofNat n).toNat = n % 256 := UInt8.toNat_ofNat'
      rw [toBytes, ofBytes_concat, ih, hbyte, pow_succ', Nat.mod_mul]
      ring

theorem ofBytes_lt (bytes : List UInt8) : ofBytes bytes < 256 ^ bytes.length := by
  induction bytes using List.reverseRecOn with
  | nil => simp [ofBytes]
  | append_singleton bytes b ih =>
      have hb : b.toNat < 256 := b.toNat_lt
      rw [ofBytes_concat, List.length_append, List.length_singleton, pow_succ]
      omega

theorem toBytes_ofBytes (bytes : List UInt8) :
    toBytes bytes.length (ofBytes bytes) = bytes := by
  induction bytes using List.reverseRecOn with
  | nil => rfl
  | append_singleton bytes b ih =>
      have hb : b.toNat < 256 := b.toNat_lt
      have hquotient : (ofBytes bytes * 256 + b.toNat) / 256 = ofBytes bytes := by omega
      have hbyte : UInt8.ofNat (ofBytes bytes * 256 + b.toNat) = b := by
        apply UInt8.toNat_inj.mp
        rw [UInt8.toNat_ofNat']
        omega
      rw [ofBytes_concat, List.length_append, List.length_singleton, toBytes, hquotient, ih,
        hbyte]

/-- The big-endian bytes of a `long`. -/
def longBytes (v : BitVec 64) : List UInt8 := toBytes 8 v.toNat

def longOfBytes (bytes : List UInt8) : BitVec 64 := BitVec.ofNat 64 (ofBytes bytes)

@[simp] theorem length_longBytes (v : BitVec 64) : (longBytes v).length = 8 :=
  length_toBytes 8 _

@[simp] theorem longOfBytes_longBytes (v : BitVec 64) : longOfBytes (longBytes v) = v := by
  apply BitVec.eq_of_toNat_eq
  have hv : v.toNat < 2 ^ 64 := v.isLt
  rw [longOfBytes, longBytes, ofBytes_toBytes, BitVec.toNat_ofNat]
  omega

theorem longBytes_longOfBytes {bytes : List UInt8} (hlength : bytes.length = 8) :
    longBytes (longOfBytes bytes) = bytes := by
  have hlt := ofBytes_lt bytes
  rw [hlength] at hlt
  have hvalue : ofBytes bytes % 2 ^ 64 = ofBytes bytes := by omega
  rw [longBytes, longOfBytes, BitVec.toNat_ofNat, hvalue, ← hlength, toBytes_ofBytes]

inductive JavaException where
  | negativeArraySize
  | illegalArgument
  | indexOutOfBounds
  | bufferOverflow
  | nullPointer
  /-- Thrown by a component that is not modelled. -/
  | other (text : String)
  deriving Repr, DecidableEq

/-- The length of an array is a non-negative `int`. -/
@[ext] structure JavaArray (α : Type) where
  elems : List α
  bounded : elems.length < 2 ^ 31

namespace JavaArray

variable {α : Type}

def length (a : JavaArray α) : BitVec 32 := BitVec.ofNat 32 a.elems.length

/-- `new T[n]`. -/
def new (init : α) (n : BitVec 32) : Except JavaException (JavaArray α) :=
  if h : n.toNat < 2 ^ 31 then .ok ⟨List.replicate n.toNat init, by simpa using h⟩
  else .error .negativeArraySize

/-- The list with `piece` written over it from position `i` on. -/
def overwrite (dest : List α) (i : Nat) (piece : List α) : List α :=
  dest.take i ++ piece ++ dest.drop (i + piece.length)

theorem length_overwrite {dest piece : List α} {i : Nat} (h : i + piece.length ≤ dest.length) :
    (overwrite dest i piece).length = dest.length := by
  simp only [overwrite, List.length_append, List.length_take, List.length_drop]
  omega

/-- `System.arraycopy(src, srcPos, dest, 0, length)`. -/
def arraycopy (src : JavaArray α) (srcPos : BitVec 32) (dest : JavaArray α)
    (length : BitVec 32) : Except JavaException (JavaArray α) :=
  if h : srcPos.toNat + length.toNat ≤ src.elems.length ∧
      length.toNat ≤ dest.elems.length then
    let piece := (src.elems.drop srcPos.toNat).take length.toNat
    .ok ⟨overwrite dest.elems 0 piece, by
      have hpiece : piece.length = length.toNat := by
        simp only [piece, List.length_take, List.length_drop]
        omega
      rw [length_overwrite (by omega)]
      exact dest.bounded⟩
  else .error .indexOutOfBounds

/-- There are arrays of every length that an `int` can be. -/
theorem exists_length (init : α) {n : Nat} (h : n < 2 ^ 31) :
    ∃ a : JavaArray α, a.elems.length = n :=
  ⟨⟨List.replicate n init, by simpa using h⟩, List.length_replicate⟩

theorem toNat_length (a : JavaArray α) : a.length.toNat = a.elems.length := by
  have := a.bounded
  simp only [length, BitVec.toNat_ofNat]
  omega

/-- Copying into a new array of the piece's own length cuts the piece out. -/
theorem new_arraycopy (init : α) (src : JavaArray α) (pos n : BitVec 32)
    (h : pos.toNat + n.toNat ≤ src.elems.length) :
    ∃ piece : JavaArray α,
      (new init n >>= fun dest => arraycopy src pos dest dest.length) = .ok piece ∧
        piece.elems = (src.elems.drop pos.toNat).take n.toNat := by
  have hbound := src.bounded
  have hn : n.toNat < 2 ^ 31 := by omega
  have hnew : new init n = .ok ⟨List.replicate n.toNat init, by simpa using hn⟩ :=
    dif_pos hn
  rw [hnew, ok_bind]
  unfold arraycopy
  simp only [toNat_length, List.length_replicate, le_refl, and_true, h, dif_pos]
  refine ⟨_, rfl, ?_⟩
  have hpiece : ((src.elems.drop pos.toNat).take n.toNat).length = n.toNat := by
    simp only [List.length_take, List.length_drop]
    omega
  simp [overwrite, hpiece]

end JavaArray

/-- `java.nio.ByteBuffer`, for relative writes. -/
structure ByteBuffer where
  array : JavaArray UInt8
  position : Nat

namespace ByteBuffer

def allocate (capacity : BitVec 32) : Except JavaException ByteBuffer :=
  if h : capacity.toNat < 2 ^ 31 then
    .ok ⟨⟨List.replicate capacity.toNat 0, by simpa using h⟩, 0⟩
  else .error .illegalArgument

def put (b : ByteBuffer) (bytes : List UInt8) : Except JavaException ByteBuffer :=
  if h : b.position + bytes.length ≤ b.array.elems.length then
    .ok ⟨⟨JavaArray.overwrite b.array.elems b.position bytes, by
      rw [JavaArray.length_overwrite h]
      exact b.array.bounded⟩, b.position + bytes.length⟩
  else .error .bufferOverflow

def putLong (b : ByteBuffer) (v : BitVec 64) : Except JavaException ByteBuffer :=
  b.put (longBytes v)

/-- `ByteBuffer.wrap(bytes).getLong(0)`. -/
def wrapGetLong (bytes : JavaArray UInt8) : Except JavaException (BitVec 64) :=
  if 8 ≤ bytes.elems.length then .ok (longOfBytes (bytes.elems.take 8))
  else .error .indexOutOfBounds

theorem wrapGetLong_eight {bytes : JavaArray UInt8} (h : bytes.elems.length = 8) :
    wrapGetLong bytes = .ok (longOfBytes bytes.elems) := by
  have htake : bytes.elems.take 8 = bytes.elems := List.take_of_length_le (by omega)
  simp [wrapGetLong, h, htake]

/-- What has been written so far, and how many bytes there is still room for. -/
structure Holds (b : ByteBuffer) (written : List UInt8) (room : Nat) : Prop where
  position : b.position = written.length
  front : b.array.elems.take written.length = written
  length : b.array.elems.length = written.length + room

theorem allocate_holds {capacity : BitVec 32} (h : capacity.toNat < 2 ^ 31) :
    ∃ b, allocate capacity = .ok b ∧ Holds b [] capacity.toNat := by
  refine ⟨⟨⟨List.replicate capacity.toNat 0, by simpa using h⟩, 0⟩, dif_pos h, ?_⟩
  exact ⟨rfl, rfl, by simp⟩

theorem Holds.put {b : ByteBuffer} {written : List UInt8} (bytes : List UInt8) (room : Nat)
    (h : Holds b written (bytes.length + room)) :
    ∃ b', b.put bytes = .ok b' ∧ Holds b' (written ++ bytes) room := by
  have hroom : b.position + bytes.length ≤ b.array.elems.length := by
    have h1 := h.position
    have h2 := h.length
    omega
  have hlength := JavaArray.length_overwrite hroom
  refine ⟨⟨⟨JavaArray.overwrite b.array.elems b.position bytes, ?_⟩,
    b.position + bytes.length⟩, ?_, ?_⟩
  · rw [hlength]
    exact b.array.bounded
  · unfold ByteBuffer.put
    rw [dif_pos hroom]
  · refine ⟨?_, ?_, ?_⟩
    · simp [h.position]
    · simp only [JavaArray.overwrite, h.position, h.front]
      exact List.take_left
    · change (JavaArray.overwrite b.array.elems b.position bytes).length = _
      rw [hlength, h.length, List.length_append]
      omega

/-- A full buffer's array is what was written. -/
theorem Holds.full {b : ByteBuffer} {written : List UInt8} (h : Holds b written 0) :
    b.array.elems = written := by
  have hall : b.array.elems.take written.length = b.array.elems := by
    apply List.take_of_length_le
    rw [h.length]
    omega
  rw [← hall, h.front]

end ByteBuffer

end OLog.Lib
