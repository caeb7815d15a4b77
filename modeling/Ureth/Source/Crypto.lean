import Ureth.Foundation.Bytes

/-!
# Cryptography outside the repository

The kernels call SHA-256, Keccak-256 and two secp256k1 libraries. None of their
code is under verification: they are parameters of the model, with the calls the
source makes and the types those calls have. Results that need more than the
types say so in a hypothesis.
-/

namespace Ureth.Source
open Ureth.Foundation

/-- The calls B1 makes into the `secp256k1` crate. -/
structure Secp256k1 where
  PublicKey : Type
  decEq : DecidableEq PublicKey
  Signature : Type
  /-- `PublicKey::from_slice`. -/
  fromSlice : Bytes → Option PublicKey
  /-- `RecoverableSignature::from_compact` of 64 bytes and a recovery ID. -/
  fromCompact : Bytes → Nat → Option Signature
  /-- Whether `normalize_s` changes the signature. -/
  highS : Signature → Bool
  /-- `recover_ecdsa` of a message digest. -/
  recover : Bytes32 → Signature → Option PublicKey

instance (S : Secp256k1) : DecidableEq S.PublicKey := S.decEq

/-- A stand-in for examples: any 33 bytes are a key, and a signature of anything recovers to the key
it starts with. -/
def Secp256k1.echo : Secp256k1 where
  PublicKey := Bytes
  decEq := inferInstance
  Signature := Bytes
  fromSlice bytes := if bytes.length = 33 then some bytes else none
  fromCompact bytes _ := some bytes
  highS _ := false
  recover _ signature := some (signature.take 33)

/-- The calls B2 makes into the `k256` crate. -/
structure K256 where
  VerifyingKey : Type
  decEq : DecidableEq VerifyingKey
  Signature : Type
  /-- `VerifyingKey::from_sec1_bytes`. -/
  fromSec1Bytes : Bytes → Option VerifyingKey
  /-- The verifying key of `SigningKey::from_slice`. -/
  verifyingKey : Bytes32 → Option VerifyingKey
  /-- The compressed SEC1 point of a key. -/
  encodedPoint : VerifyingKey → Fixed 33
  /-- `Signature::from_slice`. -/
  fromSlice : Bytes → Option Signature
  /-- `normalize_s().is_some()`. -/
  highS : Signature → Bool
  /-- `VerifyingKey::recover_from_prehash` with a recovery ID. -/
  recoverFromPrehash : Bytes32 → Signature → Nat → Option VerifyingKey
  /-- `verify_prehash`. -/
  verifyPrehash : VerifyingKey → Bytes32 → Signature → Bool

instance (K : K256) : DecidableEq K.VerifyingKey := K.decEq

/-- One recorded signature: message digest, compact signature, recovery ID and signer. -/
structure K256.Signed where
  digest : Bytes32
  signature : Bytes
  recovery : Nat
  signer : Fixed 33

/-- The library on recorded calls: it knows the listed keys, secrets and
signatures, and answers every other call with a refusal. -/
@[reducible] def K256.recorded (keys : List (Fixed 33)) (secrets : List (Bytes32 × Fixed 33))
    (signed : List K256.Signed) : K256 where
  VerifyingKey := Fixed 33
  decEq := inferInstance
  Signature := Bytes
  fromSec1Bytes b := keys.find? fun k => k.val = b
  verifyingKey secret := secrets.lookup secret
  encodedPoint k := k
  fromSlice b := if signed.any (fun r => r.signature = b) then some b else none
  highS _ := false
  recoverFromPrehash digest sig recovery :=
    (signed.find? fun r => r.digest = digest ∧ r.signature = sig ∧ r.recovery = recovery).map
      K256.Signed.signer
  verifyPrehash k digest sig :=
    signed.any fun r => r.digest = digest ∧ r.signature = sig ∧ r.signer = k

/-- `RecoveryId::from_byte` and `RecoveryId::try_from`, in both libraries. -/
def recoveryId (b : UInt8) : Option Nat := if b.toNat ≤ 3 then some b.toNat else none

end Ureth.Source
