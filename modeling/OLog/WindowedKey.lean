import OLog.Lib.ByteBuffer

/-!
The codec for windowed keys, `TimeWindowedSerializer` and
`TimeWindowedDeserializer`. A windowed key is written as the inner key
followed by the window's two bounds, eight big-endian bytes each; it is read
by cutting the array sixteen and eight bytes before its end. The inner serde
is a parameter: it may throw, and its serializer may return null.
-/

namespace OLog

open Lib

variable {K : Type}

/-- The inner `Serde<T>`; a serialized null is `none`. -/
structure Serde (K : Type) where
  serialize : String → K → Except JavaException (Option (JavaArray UInt8))
  deserialize : String → JavaArray UInt8 → Except JavaException K

/-- The constructors of `Window` and `TimeWindow` accept nothing else. -/
structure TimeWindow where
  start : BitVec 64
  stop : BitVec 64
  ordered : 0 ≤ start.toInt ∧ start.toInt < stop.toInt

def TimeWindow.new (start stop : BitVec 64) : Except JavaException TimeWindow :=
  if h : 0 ≤ start.toInt ∧ start.toInt < stop.toInt then .ok ⟨start, stop, h⟩
  else .error .illegalArgument

structure Windowed (K : Type) where
  key : K
  window : TimeWindow

/-- `TIMESTAMP_SIZE`. -/
def timestampSize : BitVec 32 := 8

theorem toNat_timestampSize : timestampSize.toNat = 8 := rfl

namespace TimeWindowedSerializer

def serialize (inner : Serde K) (topic : String) (data : Windowed K) :
    Except JavaException (JavaArray UInt8) := do
  match ← inner.serialize topic data.key with
  | none => .error .nullPointer
  | some serializedKey =>
      let buf ← ByteBuffer.allocate (serializedKey.length + timestampSize + timestampSize)
      let buf ← buf.put serializedKey.elems
      let buf ← buf.putLong data.window.start
      let buf ← buf.putLong data.window.stop
      pure buf.array

end TimeWindowedSerializer

namespace TimeWindowedDeserializer

def deserialize (inner : Serde K) (topic : String) (data : JavaArray UInt8) :
    Except JavaException (Windowed K) := do
  -- Read the inner data
  let bytes ← JavaArray.new 0 (data.length - timestampSize - timestampSize) >>= fun dest =>
    data.arraycopy 0 dest dest.length
  -- Read the start timestamp
  let startBytes ← JavaArray.new 0 timestampSize >>= fun dest =>
    data.arraycopy (data.length - timestampSize - timestampSize) dest dest.length
  let start ← ByteBuffer.wrapGetLong startBytes
  -- Read the end timestamp
  let endBytes ← JavaArray.new 0 timestampSize >>= fun dest =>
    data.arraycopy (data.length - timestampSize) dest dest.length
  let stop ← ByteBuffer.wrapGetLong endBytes
  let key ← inner.deserialize topic bytes
  let window ← TimeWindow.new start stop
  pure ⟨key, window⟩

end TimeWindowedDeserializer

open TimeWindowedSerializer TimeWindowedDeserializer

/-- What is written, when the array has room for the two bounds. -/
theorem serialize_elems {inner : Serde K} {topic : String} (data : Windowed K)
    {key : JavaArray UInt8} (hkey : inner.serialize topic data.key = .ok (some key))
    (hfits : key.elems.length + 16 < 2 ^ 31) :
    ∃ out, serialize inner topic data = .ok out ∧
      out.elems = key.elems ++ longBytes data.window.start ++ longBytes data.window.stop := by
  have hsize : (key.length + timestampSize + timestampSize).toNat = key.elems.length + 16 := by
    have hlength := key.toNat_length
    simp only [BitVec.toNat_add, toNat_timestampSize, hlength]
    omega
  obtain ⟨b₀, hallocate, h₀⟩ := ByteBuffer.allocate_holds (hsize.trans_lt hfits)
  rw [hsize] at h₀
  obtain ⟨b₁, hput, h₁⟩ := ByteBuffer.Holds.put key.elems 16 h₀
  obtain ⟨b₂, hstart, h₂⟩ := ByteBuffer.Holds.put (longBytes data.window.start) 8 h₁
  obtain ⟨b₃, hstop, h₃⟩ := ByteBuffer.Holds.put (longBytes data.window.stop) 0 h₂
  refine ⟨b₃.array, ?_, by simpa using h₃.full⟩
  simp only [serialize, hkey, hallocate, hput, ByteBuffer.putLong, hstart, hstop, ok_bind]
  rfl

/-- Otherwise the capacity, an `int`, has become negative. -/
theorem serialize_too_long {inner : Serde K} {topic : String} (data : Windowed K)
    {key : JavaArray UInt8} (hkey : inner.serialize topic data.key = .ok (some key))
    (hlong : 2 ^ 31 ≤ key.elems.length + 16) :
    serialize inner topic data = .error .illegalArgument := by
  have hbound := key.bounded
  have hsize : ¬ (key.length + timestampSize + timestampSize).toNat < 2 ^ 31 := by
    have hlength := key.toNat_length
    simp only [BitVec.toNat_add, toNat_timestampSize, hlength]
    omega
  have hallocate : ByteBuffer.allocate (key.length + timestampSize + timestampSize) =
      .error .illegalArgument := dif_neg hsize
  simp only [serialize, hkey, hallocate, ok_bind]
  rfl

/-- What is read, from an array that is long enough for two bounds. -/
theorem deserialize_eq (inner : Serde K) (topic : String) {data front : JavaArray UInt8}
    (hlong : 16 ≤ data.elems.length)
    (hfront : front.elems = data.elems.take (data.elems.length - 16)) :
    deserialize inner topic data = (do
      let key ← inner.deserialize topic front
      let window ← TimeWindow.new
        (longOfBytes ((data.elems.drop (data.elems.length - 16)).take 8))
        (longOfBytes ((data.elems.drop (data.elems.length - 8)).take 8))
      pure ⟨key, window⟩) := by
  have hlength := data.toNat_length
  have hbound := data.bounded
  have hsplit : (data.length - timestampSize - timestampSize).toNat =
      data.elems.length - 16 := by
    simp only [BitVec.toNat_sub, toNat_timestampSize, hlength]
    omega
  have hlast : (data.length - timestampSize).toNat = data.elems.length - 8 := by
    simp only [BitVec.toNat_sub, toNat_timestampSize, hlength]
    omega
  have height := toNat_timestampSize
  have hzero : (0 : BitVec 32).toNat = 0 := rfl
  obtain ⟨bytes, hbytes, hbytesElems⟩ := JavaArray.new_arraycopy (0 : UInt8) data
    0 (data.length - timestampSize - timestampSize) (by rw [hsplit, hzero]; omega)
  obtain ⟨startBytes, hstart, hstartElems⟩ := JavaArray.new_arraycopy (0 : UInt8) data
    (data.length - timestampSize - timestampSize) timestampSize (by omega)
  obtain ⟨endBytes, hend, hendElems⟩ := JavaArray.new_arraycopy (0 : UInt8) data
    (data.length - timestampSize) timestampSize (by omega)
  rw [hsplit] at hbytesElems hstartElems
  rw [hlast] at hendElems
  rw [height] at hstartElems hendElems
  have hsame : bytes = front := by
    apply JavaArray.ext
    rw [hbytesElems, hfront]
    rfl
  have hstartLength : startBytes.elems.length = 8 := by
    rw [hstartElems, List.length_take, List.length_drop]
    omega
  have hendLength : endBytes.elems.length = 8 := by
    rw [hendElems, List.length_take, List.length_drop]
    omega
  unfold deserialize
  simp only [hbytes, hstart, hend, ok_bind, ByteBuffer.wrapGetLong_eight hstartLength,
    ByteBuffer.wrapGetLong_eight hendLength, hstartElems, hendElems, hsame]

/-- The encoding of a windowed key whose inner key the serde gives back. -/
theorem deserialize_serialize {inner : Serde K} {topic : String} {k : K}
    {key : JavaArray UInt8} (hkey : inner.serialize topic k = .ok (some key))
    (hback : inner.deserialize topic key = .ok k) (hfits : key.elems.length + 16 < 2 ^ 31)
    (window : TimeWindow) :
    ∃ out, serialize inner topic ⟨k, window⟩ = .ok out ∧
      deserialize inner topic out = .ok ⟨k, window⟩ := by
  obtain ⟨out, hout, helems⟩ := serialize_elems ⟨k, window⟩ hkey hfits
  have hlength : out.elems.length = key.elems.length + 16 := by
    simp [helems]
  have hfront : key.elems = out.elems.take (out.elems.length - 16) := by
    rw [hlength, Nat.add_sub_cancel, helems, List.append_assoc, List.take_left]
  have hstart : (out.elems.drop (out.elems.length - 16)).take 8 = longBytes window.start := by
    rw [hlength, Nat.add_sub_cancel, helems, List.append_assoc, List.drop_left,
      List.take_left' (length_longBytes _)]
  have hstop : (out.elems.drop (out.elems.length - 8)).take 8 = longBytes window.stop := by
    have hlast : out.elems.length - 8 =
        (key.elems ++ longBytes window.start).length := by simp [hlength]
    rw [hlast, helems, List.drop_left, List.take_of_length_le (by simp)]
  have hwindow : TimeWindow.new window.start window.stop = .ok window := dif_pos window.ordered
  refine ⟨out, hout, ?_⟩
  rw [deserialize_eq inner topic (by omega) hfront, hback, hstart, hstop]
  simp only [longOfBytes_longBytes, ok_bind, hwindow]
  rfl

/-- An array that ends in the two bounds of a window, and whose front the inner
serde writes as it reads it. -/
theorem serialize_deserialize {inner : Serde K} {topic : String} {data front : JavaArray UInt8}
    {k : K} (hlong : 16 ≤ data.elems.length)
    (hfront : front.elems = data.elems.take (data.elems.length - 16))
    (hkey : inner.deserialize topic front = .ok k)
    (hback : inner.serialize topic k = .ok (some front))
    (hwindow : 0 ≤ (longOfBytes ((data.elems.drop (data.elems.length - 16)).take 8)).toInt ∧
      (longOfBytes ((data.elems.drop (data.elems.length - 16)).take 8)).toInt <
        (longOfBytes ((data.elems.drop (data.elems.length - 8)).take 8)).toInt) :
    (deserialize inner topic data >>= serialize inner topic) = .ok data := by
  have hbound := data.bounded
  have hfrontLength : front.elems.length = data.elems.length - 16 := by
    rw [hfront, List.length_take]
    omega
  have hdecoded : deserialize inner topic data = .ok ⟨k, ⟨_, _, hwindow⟩⟩ := by
    rw [deserialize_eq inner topic hlong hfront, hkey, ok_bind, TimeWindow.new, dif_pos hwindow]
    rfl
  rw [hdecoded, ok_bind]
  obtain ⟨out, hout, helems⟩ :=
    serialize_elems ⟨k, ⟨_, _, hwindow⟩⟩ hback (by omega)
  have hsame : out = data := by
    apply JavaArray.ext
    rw [helems, longBytes_longOfBytes (by simp; omega), longBytes_longOfBytes (by simp; omega),
      hfront]
    -- the three pieces are cut at the same places
    have hlast : (data.elems.drop (data.elems.length - 8)).take 8 =
        (data.elems.drop (data.elems.length - 16)).drop 8 := by
      rw [List.drop_drop, List.take_of_length_le (by simp; omega)]
      congr 1
      omega
    rw [hlast, List.append_assoc, List.take_append_drop, List.take_append_drop]
  rw [hout, hsame]

/-- The codec loses nothing: a key that the inner serde writes, not as null, and
gives back is given back with its window, provided that an array can hold its
encoding, and is refused otherwise; and an array that encodes a window is written
as it was read. -/
theorem windowed_codec_round_trip (inner : Serde K) (topic : String) :
    (∀ k key, inner.serialize topic k = .ok (some key) → inner.deserialize topic key = .ok k →
      ∀ window : TimeWindow,
        ((∃ out, serialize inner topic ⟨k, window⟩ = .ok out ∧
          deserialize inner topic out = .ok ⟨k, window⟩) ↔ key.elems.length + 16 < 2 ^ 31) ∧
        (2 ^ 31 ≤ key.elems.length + 16 →
          serialize inner topic ⟨k, window⟩ = .error .illegalArgument)) ∧
    (∀ data front : JavaArray UInt8, 16 ≤ data.elems.length →
      front.elems = data.elems.take (data.elems.length - 16) →
      (∃ k, inner.deserialize topic front = .ok k ∧
        inner.serialize topic k = .ok (some front)) →
      0 ≤ (longOfBytes ((data.elems.drop (data.elems.length - 16)).take 8)).toInt ∧
        (longOfBytes ((data.elems.drop (data.elems.length - 16)).take 8)).toInt <
          (longOfBytes ((data.elems.drop (data.elems.length - 8)).take 8)).toInt →
      (deserialize inner topic data >>= serialize inner topic) = .ok data) := by
  refine ⟨?_, ?_⟩
  · intro k key hkey hback window
    refine ⟨⟨?_, ?_⟩, serialize_too_long ⟨k, window⟩ hkey⟩
    · rintro ⟨out, hout, _⟩
      by_contra hlong
      rw [serialize_too_long ⟨k, window⟩ hkey (by omega)] at hout
      cases hout
    · intro hfits
      exact deserialize_serialize hkey hback hfits window
  · rintro data front hlong hfront ⟨k, hkey, hback⟩ hwindow
    exact serialize_deserialize hlong hfront hkey hback hwindow

/-- `Serdes.ByteArray()`. -/
def byteArraySerde : Serde (JavaArray UInt8) where
  serialize _ bytes := .ok (some bytes)
  deserialize _ bytes := .ok bytes

theorem windowed_codec_round_trip_bytes :
    ∃ out, serialize byteArraySerde "t" ⟨⟨[7, 255], by decide⟩, ⟨1, 2, by decide⟩⟩ = .ok out ∧
      deserialize byteArraySerde "t" out = .ok ⟨⟨[7, 255], by decide⟩, ⟨1, 2, by decide⟩⟩ :=
  ((windowed_codec_round_trip byteArraySerde "t").1 ⟨[7, 255], by decide⟩
    ⟨[7, 255], by decide⟩ rfl rfl ⟨1, 2, by decide⟩).1.mpr (by decide)

/-- A key of `2 ^ 31 - 16` bytes, which a byte array can hold and the inner serde
gives back, has no encoding. -/
theorem windowed_codec_overlong :
    ∃ key : JavaArray UInt8, byteArraySerde.serialize "t" key = .ok (some key) ∧
      byteArraySerde.deserialize "t" key = .ok key ∧
      serialize byteArraySerde "t" ⟨key, ⟨1, 2, by decide⟩⟩ = .error .illegalArgument := by
  obtain ⟨key, hlength⟩ := JavaArray.exists_length (0 : UInt8) (n := 2 ^ 31 - 16) (by omega)
  have hlong : 2 ^ 31 ≤ key.elems.length + 16 := by omega
  exact ⟨key, rfl, rfl, serialize_too_long ⟨key, _⟩ rfl hlong⟩

end OLog
