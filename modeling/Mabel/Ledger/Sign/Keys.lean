import Mabel.Ledger.Ids

/-!
# Secret keys

A secret key is known by its public key and its signatures, and the one law the signing
path rests on is that they verify. `Crypto.sample` is an instance small enough to run: a
positional digest stands for BLAKE3 and a keyed digest for an ed25519 signature, so the
builders and the fold can be evaluated on concrete events.
-/

namespace Mabel

open Wire

/-- An ed25519 secret key. -/
structure SecretKey (C : Crypto) where
  /-- The public half. -/
  publicKey : PublicKey C
  /-- Sign a message. -/
  sign : Bytes → Block sigBytes
  /-- What the key signs verifies under its public half. -/
  verifies : ∀ message, publicKey.verify message (sign message) = true

/-! ## An instance that runs -/

/-- The low `n` bytes of a number, least significant first. -/
def lowBytes : Nat → Nat → Bytes
  | 0, _ => []
  | n + 1, value => UInt8.ofNat (value % 256) :: lowBytes n (value / 256)

/-- The low bytes of a number are as many as asked. -/
theorem length_lowBytes (n value : Nat) : (lowBytes n value).length = n := by
  induction n generalizing value with
  | zero => rfl
  | succ n ih => simp [lowBytes, ih]

/-- The array of the low `n` bytes of a number. -/
def Block.ofNat (n value : Nat) : Block n := ⟨lowBytes n value, length_lowBytes n value⟩

/-- The digits of a byte string in base 257, cut to 256 bits. -/
def sampleHash (bytes : Bytes) : Block idBytes :=
  .ofNat idBytes (bytes.foldl (fun acc b => (acc * 257 + b.toNat + 1) % 2 ^ 256) 1)

/-- A message digested with the key before it and behind it. -/
def sampleSign (key : Block idBytes) (message : Bytes) : Block sigBytes :=
  ⟨(sampleHash (key.bytes ++ message)).bytes ++ (sampleHash (message ++ key.bytes)).bytes, by
    rw [List.length_append, Block.length_eq, Block.length_eq]
    rfl⟩

/-- A digest and a keyed digest in place of BLAKE3 and ed25519. -/
def Crypto.sample : Crypto where
  hash := sampleHash
  isPoint := fun _ => true
  verify := fun key message signature => decide (signature = sampleSign key message)
  displayKey := Base32.encode ∘ Block.bytes

/-- The sample key of a number. -/
def SecretKey.sample (n : Nat) : SecretKey Crypto.sample where
  publicKey := ⟨.ofNat idBytes n, rfl⟩
  sign := sampleSign (.ofNat idBytes n)
  verifies := fun _ => decide_eq_true rfl

end Mabel
