import Mabel.Core.Outcome
import Mabel.Core.Text.Base32
import Mabel.Core.Wire.Proto
import Mathlib.Data.List.Lex

/-!
# Ids, keys and digests

Fixed-length byte strings carry their length, an id is one of 32 bytes and a public
key is one whose bytes are a curve point, so no id or key of the wrong shape can be
built. BLAKE3 and ed25519 enter as the operations of `Crypto` and nothing else is
assumed of them here.
-/

namespace Mabel

open Wire

/-! ## Sizes and caps -/

/-- `ID_BYTES`: the length of an identity id, ledger id, event id and public key. -/
def idBytes : Nat := 32

/-- `SIG_BYTES`: the length of an ed25519 signature. -/
def sigBytes : Nat := 64

/-- `NONCE_BYTES`: the length of an inception nonce. -/
def nonceBytes : Nat := 16

/-- `MAX_TIMESTAMP_MS`: 2100-01-01T00:00:00Z. -/
def maxTimestampMs : Nat := 4102444800000

/-- `MAX_EVENT_BYTES`: the cap on an encoded `SignedEvent`. -/
def maxEventBytes : Nat := 4096

/-- `MAX_EMBEDDED_INCEPTION_BYTES`: the cap on an embedded inception. -/
def maxEmbeddedInceptionBytes : Nat := 1024

/-- `MAX_ACCEPTANCE_BYTES`: the cap on an `Acceptance` blob. -/
def maxAcceptanceBytes : Nat := 1024

/-- `MAX_DISPLAY_NAME_BYTES`. -/
def maxDisplayNameBytes : Nat := 64

/-- `MAX_HOSTNAME_BYTES`: 253 bytes less the `_mabel.` prefix of the DNS check. -/
def maxHostnameBytes : Nat := 246

/-- `MAX_HOSTNAME_LABEL_BYTES`. -/
def maxHostnameLabelBytes : Nat := 63

/-- `MAX_EMAIL_BYTES`. -/
def maxEmailBytes : Nat := 254

/-- `MAX_WITNESSES`: the cap on a `WitnessSet` and on the retired `WitnessConfig`. -/
def maxWitnesses : Nat := 16

/-- `MAX_ENDPOINTS`: the cap on an `EndpointAdvertisement`. -/
def maxEndpoints : Nat := 8

/-- `u64::MAX`. -/
def u64Max : Nat := 2 ^ 64 - 1

/-- `u32::MAX`. -/
def u32Max : Nat := 2 ^ 32 - 1

/-! ## Fixed-length byte strings -/

/-- An array of exactly `n` bytes. -/
@[ext] structure Block (n : Nat) where
  /-- The bytes. -/
  bytes : Bytes
  /-- There are exactly `n` of them. -/
  length_eq : bytes.length = n
  deriving DecidableEq

namespace Block

/-- The array a slice converts to, when its length is right. -/
def ofBytes? (n : Nat) (bytes : Bytes) : Option (Block n) :=
  if h : bytes.length = n then some ⟨bytes, h⟩ else none

/-- A block is read from exactly its own bytes. -/
theorem ofBytes?_eq_some {n : Nat} {bytes : Bytes} {b : Block n} :
    ofBytes? n bytes = some b ↔ bytes = b.bytes := by
  simp only [ofBytes?]
  constructor
  · intro h
    split_ifs at h
    rw [← Option.some.inj h]
  · rintro rfl
    rw [dif_pos b.length_eq]

@[simp] theorem ofBytes?_bytes {n : Nat} (b : Block n) : ofBytes? n b.bytes = some b :=
  ofBytes?_eq_some.mpr rfl

theorem exists_ofBytes? {n : Nat} {bytes : Bytes} (h : bytes.length = n) :
    ∃ b : Block n, ofBytes? n bytes = some b := ⟨⟨bytes, h⟩, dif_pos h⟩

@[simp] theorem bytes_ne_nil {n : Nat} (b : Block (n + 1)) : b.bytes ≠ [] := by
  intro h
  have := b.length_eq
  simp [h] at this

/-- The array of zeros. -/
def zero (n : Nat) : Block n := ⟨List.replicate n 0, List.length_replicate⟩

/-- Arrays compare byte by byte, as the derived order of the source does. -/
instance (n : Nat) : LinearOrder (Block n) :=
  LinearOrder.lift' (fun b => b.bytes.map UInt8.toNat) fun _ _ h =>
    Block.ext (List.map_injective_iff.mpr (fun _ _ => UInt8.toNat_inj.mp) h)

end Block

/-! ## Ids -/

/-- The digest of an event body. -/
@[ext] structure EventId where
  /-- The 32 raw bytes. -/
  raw : Block idBytes
  deriving DecidableEq

/-- The digest of an identity's seq-0 event body. -/
@[ext] structure IdentityId where
  /-- The 32 raw bytes. -/
  raw : Block idBytes
  deriving DecidableEq

/-- A ledger is named by the identity it belongs to. -/
abbrev LedgerId := IdentityId

instance : LinearOrder EventId := LinearOrder.lift' EventId.raw fun _ _ => EventId.ext

instance : LinearOrder IdentityId := LinearOrder.lift' IdentityId.raw fun _ _ => IdentityId.ext

namespace EventId

/-- Read an id from a decoded `bytes` field. -/
def fromSlice (bytes : Bytes) : Option EventId := (Block.ofBytes? idBytes bytes).map EventId.mk

/-- The bytes of a protobuf field. -/
def toVec (id : EventId) : Bytes := id.raw.bytes

/-- The ledger an inception's id names. -/
def toIdentity (id : EventId) : IdentityId := ⟨id.raw⟩

/-- The text form: 52 lowercase base32 characters. -/
def display (id : EventId) : String := (Base32.encode id.raw.bytes).toLower

/-- An event id is read from exactly its own bytes. -/
theorem fromSlice_eq_some {bytes : Bytes} {id : EventId} :
    fromSlice bytes = some id ↔ bytes = id.toVec := by
  rw [fromSlice, Option.map_eq_some_iff, toVec]
  constructor
  · rintro ⟨b, hb, rfl⟩
    exact Block.ofBytes?_eq_some.mp hb
  · rintro rfl
    exact ⟨id.raw, Block.ofBytes?_bytes _, rfl⟩

@[simp] theorem fromSlice_toVec (id : EventId) : fromSlice id.toVec = some id :=
  fromSlice_eq_some.mpr rfl

theorem exists_fromSlice {bytes : Bytes} (h : bytes.length = idBytes) :
    ∃ id, fromSlice bytes = some id := ⟨⟨⟨bytes, h⟩⟩, fromSlice_eq_some.mpr rfl⟩

@[simp] theorem length_toVec (id : EventId) : id.toVec.length = idBytes := id.raw.length_eq

theorem toVec_injective : Function.Injective toVec :=
  fun _ _ h => EventId.ext (Block.ext h)

theorem toIdentity_injective : Function.Injective toIdentity :=
  fun _ _ h => EventId.ext (congrArg IdentityId.raw h)

end EventId

namespace IdentityId

/-- Read an id from a decoded `bytes` field. -/
def fromSlice (bytes : Bytes) : Option IdentityId :=
  (Block.ofBytes? idBytes bytes).map IdentityId.mk

/-- The bytes of a protobuf field. -/
def toVec (id : IdentityId) : Bytes := id.raw.bytes

/-- The text form: 52 lowercase base32 characters. -/
def display (id : IdentityId) : String := (Base32.encode id.raw.bytes).toLower

/-- Parse the text form, in either case. -/
def parse (text : String) : Option IdentityId :=
  if text.utf8ByteSize ≠ 52 then none else (Base32.decode text.toUpper).bind fromSlice

/-- An identity id is read from exactly its own bytes. -/
theorem fromSlice_eq_some {bytes : Bytes} {id : IdentityId} :
    fromSlice bytes = some id ↔ bytes = id.toVec := by
  rw [fromSlice, Option.map_eq_some_iff, toVec]
  constructor
  · rintro ⟨b, hb, rfl⟩
    exact Block.ofBytes?_eq_some.mp hb
  · rintro rfl
    exact ⟨id.raw, Block.ofBytes?_bytes _, rfl⟩

@[simp] theorem fromSlice_toVec (id : IdentityId) : fromSlice id.toVec = some id :=
  fromSlice_eq_some.mpr rfl

theorem exists_fromSlice {bytes : Bytes} (h : bytes.length = idBytes) :
    ∃ id, fromSlice bytes = some id := ⟨⟨⟨bytes, h⟩⟩, fromSlice_eq_some.mpr rfl⟩

@[simp] theorem length_toVec (id : IdentityId) : id.toVec.length = idBytes := id.raw.length_eq

theorem toVec_injective : Function.Injective toVec :=
  fun _ _ h => IdentityId.ext (Block.ext h)

end IdentityId

@[simp] theorem EventId.toVec_toIdentity (id : EventId) : id.toIdentity.toVec = id.toVec := rfl

/-! ## Keys and digests -/

/-- BLAKE3 and the ed25519 operations of the key library. -/
structure Crypto where
  /-- The BLAKE3 digest of a byte string. -/
  hash : Bytes → Block idBytes
  /-- Whether `PublicKey::from_bytes` decompresses these bytes to a point. -/
  isPoint : Block idBytes → Bool
  /-- Whether a signature verifies over a message under a key. -/
  verify : Block idBytes → Bytes → Block sigBytes → Bool
  /-- The text form the library gives a key. -/
  displayKey : Block idBytes → String

/-- An ed25519 public key, which keeps the bytes it was read from. -/
@[ext] structure PublicKey (C : Crypto) where
  /-- The 32 raw bytes. -/
  raw : Block idBytes
  /-- They are a curve point. -/
  point : C.isPoint raw = true
  deriving DecidableEq

/-- An endpoint id is a public key. -/
abbrev EndpointId (C : Crypto) := PublicKey C

namespace PublicKey

variable {C : Crypto}

instance : LawfulBEq (PublicKey C) := inferInstance

/-- The raw bytes. -/
def asBytes (key : PublicKey C) : Bytes := key.raw.bytes

/-- Decompress 32 bytes. -/
def fromBytes (C : Crypto) (raw : Block idBytes) : Option (PublicKey C) :=
  if h : C.isPoint raw = true then some ⟨raw, h⟩ else none

/-- Whether a signature verifies over a message. -/
def verify (key : PublicKey C) (input : Bytes) (signature : Block sigBytes) : Bool :=
  C.verify key.raw input signature

/-- The text form. -/
def display (key : PublicKey C) : String := C.displayKey key.raw

/-- A public key is read from exactly its own bytes. -/
theorem fromBytes_eq_some {raw : Block idBytes} {key : PublicKey C} :
    fromBytes C raw = some key ↔ raw = key.raw := by
  simp only [fromBytes]
  constructor
  · intro h
    split_ifs at h
    rw [← Option.some.inj h]
  · rintro rfl
    rw [dif_pos key.point]

@[simp] theorem fromBytes_raw (key : PublicKey C) : fromBytes C key.raw = some key :=
  fromBytes_eq_some.mpr rfl

@[simp] theorem length_asBytes (key : PublicKey C) : key.asBytes.length = idBytes :=
  key.raw.length_eq

theorem asBytes_injective : Function.Injective (asBytes (C := C)) :=
  fun _ _ h => PublicKey.ext (Block.ext h)

end PublicKey

/-- `EVENT_ID_DOMAIN`. -/
def eventIdDomain : Bytes := utf8 "mabel/event/v0\n"

/-- `SIGN_DOMAIN`. -/
def signDomain : Bytes := utf8 "mabel/sig/v0\n"

/-- `ACCEPT_DOMAIN`. -/
def acceptDomain : Bytes := utf8 "mabel/accept/v0\n"

/-- `RESERVE_DOMAIN`. -/
def reserveDomain : Bytes := utf8 "mabel/reserve/v0\n"

/-- The id of the event whose `EventBody` encodes to these bytes. -/
def eventId (C : Crypto) (body : Bytes) : EventId := ⟨C.hash (eventIdDomain ++ body)⟩

/-- The bytes an event's author signs. -/
def signInput (body : Bytes) : Bytes := signDomain ++ body

/-- The bytes an invitee signs for a detached acceptance. -/
def acceptInput (acceptance : Bytes) : Bytes := acceptDomain ++ acceptance

/-- The commitment a `RawRoot` records for its reserve key. -/
def reserveCommit (C : Crypto) (reserveKey : PublicKey C) : Block idBytes :=
  C.hash (reserveDomain ++ reserveKey.asBytes)

end Mabel
