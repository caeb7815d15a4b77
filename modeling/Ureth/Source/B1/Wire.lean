import Ureth.Foundation.Bytes

/-!
# B1 wire primitives (`b1/src/lib.rs`)

The failure types of the B1 calls, the byte reader and the shape of a successful
output. `usize` and `u64` are 64 bits wide, so `usize::try_from` of a head
argument never fails.
-/

namespace Ureth.Source.B1
open Ureth.Foundation

inductive Malformed where
  | truncated | version | flags | count | trailing | limit | canonical | cbor | utf8 | shape | shard
  deriving DecidableEq, Repr

/-- Full result before EVM status conversion; `ε` is the host's own failure. -/
inductive Error (ε : Type) where
  | malformed (reason : Malformed)
  | outOfGas
  | host (e : ε)
  | registry
  deriving DecidableEq, Repr

structure Output where
  gas : Nat
  bytes : Bytes
  deriving DecidableEq, Repr

/-- `abi.encode(uint256(version), bool(valid))`. -/
def Output.versioned (gas : Nat) (version : UInt8) (valid : Bool) : Output where
  gas := gas
  bytes := List.replicate 31 0 ++ [version] ++ List.replicate 31 0 ++ [if valid then 1 else 0]

def Output.new (gas : Nat) (valid : Bool) : Output := Output.versioned gas 1 valid

/-- `out.bytes[63] == 1`, how callers read the verdict back. -/
def Output.verdict (out : Output) : Bool := out.bytes[63]? = some 1

@[simp] theorem Output.versioned_gas (gas : Nat) (version : UInt8) (valid : Bool) :
    (Output.versioned gas version valid).gas = gas := rfl

@[simp] theorem Output.versioned_verdict (gas : Nat) (version : UInt8) (valid : Bool) :
    (Output.versioned gas version valid).verdict = valid := by
  cases valid <;> simp [Output.verdict, Output.versioned]

/-- `Reader::take`: the bytes taken and the rest of the reader. -/
def take (n : Nat) (data : Bytes) : Res Malformed (Bytes × Bytes) :=
  if n > data.length then Res.fail .truncated else .ok (data.take n, data.drop n)

/-- `Reader::uint`. Every caller reads at most eight bytes, so the shifts lose nothing. -/
def uint (n : Nat) (data : Bytes) : Res Malformed (Nat × Bytes) := do
  let (v, rest) ← take n data
  return (beNat v, rest)

/-- `Reader::header`: version one, no flags, then the count. -/
def header (data : Bytes) : Res Malformed (Nat × Bytes) := do
  let (version, data) ← uint 1 data
  Res.refuse (version ≠ 1) .version
  let (flags, data) ← uint 1 data
  Res.refuse (flags ≠ 0) .flags
  uint 2 data

/-- Bit `d` of a byte string, most significant first. -/
def bitAt {ε : Type} (b : Bytes) (d : Nat) : Res ε Bool := do
  let byte ← Res.index b (d / 8)
  return byte.toNat.testBit (7 - d % 8)

/-- The slice of `n` bytes from `lo` on. -/
def slice {ε : Type} (b : Bytes) (lo n : Nat) : Res ε Bytes :=
  if lo + n ≤ b.length then .ok ((b.drop lo).take n) else Res.panic

theorem take_eq_ok {n : Nat} {data v rest : Bytes} :
    take n data = .ok (v, rest) ↔ v.length = n ∧ data = v ++ rest := by
  unfold take
  split
  next h =>
    simp only [Res.fail_ne_ok, false_iff, not_and]
    rintro hlen rfl
    simp only [List.length_append] at h
    omega
  next h =>
    simp only [Except.ok.injEq, Prod.mk.injEq]
    constructor
    · rintro ⟨rfl, rfl⟩
      exact ⟨by rw [List.length_take]; omega, (List.take_append_drop n data).symm⟩
    · rintro ⟨hlen, rfl⟩
      exact ⟨List.take_left' hlen, List.drop_left' hlen⟩

theorem uint_eq_ok {n k : Nat} {data rest : Bytes} :
    uint n data = .ok (k, rest) ↔ ∃ v : Bytes, v.length = n ∧ beNat v = k ∧ data = v ++ rest := by
  unfold uint
  rw [Res.bind_eq_ok]
  constructor
  · rintro ⟨⟨v, rest'⟩, htake, hk⟩
    simp only [Res.pure_eq_ok, Prod.mk.injEq] at hk
    obtain ⟨rfl, rfl⟩ := hk
    obtain ⟨hlen, hdata⟩ := take_eq_ok.mp htake
    exact ⟨v, hlen, rfl, hdata⟩
  · rintro ⟨v, hlen, rfl, hdata⟩
    exact ⟨(v, rest), take_eq_ok.mpr ⟨hlen, hdata⟩, rfl⟩

@[simp] theorem noPanic_take (n : Nat) (data : Bytes) : (take n data).NoPanic := by
  unfold take
  split <;> simp

@[simp] theorem noPanic_uint (n : Nat) (data : Bytes) : (uint n data).NoPanic :=
  (noPanic_take n data).bind fun _ _ => by simp

@[simp] theorem noPanic_header (data : Bytes) : (header data).NoPanic := by
  refine (noPanic_uint 1 data).bind fun a _ => ?_
  refine (Res.noPanic_refuse _ _).bind fun _ _ => ?_
  refine (noPanic_uint 1 _).bind fun b _ => ?_
  exact (Res.noPanic_refuse _ _).bind fun _ _ => noPanic_uint 2 _

end Ureth.Source.B1
