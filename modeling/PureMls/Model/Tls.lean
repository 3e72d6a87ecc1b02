import PureMls.Foundation.Wire

/-! # TLS presentation language primitives -/

namespace PureMls

/-! ## Encoding -/

def tlsU8 (v : ℕ) : Py Bytes := structPack 1 v

def tlsU16 (v : ℕ) : Py Bytes := structPack 2 v

def tlsU32 (v : ℕ) : Py Bytes := structPack 4 v

def tlsU64 (v : ℕ) : Py Bytes := structPack 8 v

/-- Encode `n` as an MLS VarInt; the 8-byte form is invalid. -/
def tlsVarint (n : ℕ) : Py Bytes :=
  if n ≤ 0x3F then .ok [UInt8.ofNat n]
  else if n ≤ 0x3FFF then toBytesBig 2 ((n ||| 0x4000) &&& 0xFFFF)
  else if n ≤ 0x3FFFFFFF then toBytesBig 4 ((n ||| 0x80000000) &&& 0xFFFFFFFF)
  else .error (.valueError s!"VarInt out of range (max 2^30-1 per RFC 9420 §2.1.2): {n}")

/-- Encode bytes as `opaque<V>`. -/
def tlsOpaque (data : Bytes) : Py Bytes := do
  let size ← tlsVarint data.length
  pure (size ++ data)

/-- Encode bytes with a uint32 length prefix. -/
def tlsOpaque32 (data : Bytes) : Py Bytes := do
  let size ← tlsU32 data.length
  pure (size ++ data)

/-- One extension: uint16 type and VarInt-prefixed data. -/
def tlsExtension (extension : ℕ × Bytes) : Py Bytes := do
  let extType ← tlsU16 extension.1
  let data ← tlsOpaque extension.2
  pure (extType ++ data)

def tlsExtensions (extensions : List (ℕ × Bytes)) : Py Bytes := do
  let body ← joinBytes tlsExtension extensions
  let size ← tlsVarint body.length
  pure (size ++ body)

/-! ## Decoding -/

def readU8 : Decoder ℕ := fun buf offset => do
  let v ← byteAt buf offset
  .ok (v, offset + 1)

/-- `struct.unpack_from` of one unsigned big-endian integer of `n` bytes. -/
def unpackFrom (n : ℕ) : Decoder ℕ := fun buf offset =>
  if offset + n ≤ buf.length then .ok (beNat (slice buf offset (offset + n)), offset + n)
  else .error (.structError <|
    s!"unpack_from requires a buffer of at least {offset + n} bytes for unpacking {n} bytes " ++
    s!"at offset {offset} (actual buffer size is {buf.length})")

def readU16 : Decoder ℕ := unpackFrom 2

def readU32 : Decoder ℕ := unpackFrom 4

def readU64 : Decoder ℕ := unpackFrom 8

/-- Decode an MLS VarInt from `buf` at `offset`. -/
def varintDecode : Decoder ℕ := fun buf offset => do
  let first ← byteAt buf offset
  let tag := (first >>> 6) &&& 0x3
  if tag = 0 then .ok (first &&& 0x3F, offset + 1)
  else if tag = 1 then do
    let second ← byteAt buf (offset + 1)
    .ok (((first &&& 0x3F) <<< 8) ||| second, offset + 2)
  else if tag = 2 then do
    Py.require (offset + 4 ≤ buf.length)
      (.valueError "MLS VarInt: truncated 4-byte length prefix")
    let b1 ← byteAt buf (offset + 1)
    let b2 ← byteAt buf (offset + 2)
    let b3 ← byteAt buf (offset + 3)
    .ok (((first &&& 0x3F) <<< 24) ||| (b1 <<< 16) ||| (b2 <<< 8) ||| b3, offset + 4)
  else
    .error (.valueError
      "MLS VarInt: prefix 0b11 (8-byte form) is invalid per RFC 9420 §2.1.2")

/-- The `length` bytes at `offset`, with the bounds check of the `read_opaque` family. -/
def readChecked (length : ℕ) (message : ℕ → ℕ → String) : Decoder Bytes := fun buf offset => do
  Py.require (offset + length ≤ buf.length) (.valueError (message offset buf.length))
  .ok (slice buf offset (offset + length), offset + length)

/-- Decode `opaque<V>`. -/
def readOpaque : Decoder Bytes := do
  let length ← varintDecode
  readChecked length fun offset size =>
    s!"MLS TLS Parsing: opaque length {length} exceeds buffer size (offset {offset}, buffer {size})"

/-- Decode `opaque<V>` with a uint32 length prefix. -/
def readOpaque32 : Decoder Bytes := do
  let length ← readU32
  readChecked length fun offset size =>
    s!"opaque32 length {length} exceeds buffer (offset {offset}, len {size})"

/-- Decode bytes with a fixed-width length prefix. -/
def readSized (readLength : Decoder ℕ) (name : String) : Decoder Bytes := do
  let length ← readLength
  readChecked length fun offset size =>
    s!"{name} length {length} exceeds buffer (offset {offset}, len {size})"

def readOpaque16 : Decoder Bytes := readSized readU16 "opaque16"

def readVector16 : Decoder Bytes := readSized readU16 "vector16"

def readVector32 : Decoder Bytes := readSized readU32 "vector32"

def readVec8 : Decoder Bytes := readSized readU8 "vec8"

/-- `buf[offset:offset + length]` with no bounds check: a short buffer shortens the result. -/
def readSlice (length : ℕ) : Decoder Bytes := fun buf offset =>
  .ok (slice buf offset (offset + length), offset + length)

/-- Decode one extension. -/
def readExtension : Decoder (ℕ × Bytes) := do
  let extType ← readU16
  let extData ← readOpaque
  pure (extType, extData)

def readExtensions : Decoder (List (ℕ × Bytes)) := do
  let raw ← readOpaque
  Decoder.lift (readExtension.all raw)

end PureMls
