import Ureth.Foundation.Bytes

/-!
# SHA-256

An executable SHA-256 on byte strings, for concrete runs of models that take the
hash as a parameter. Words are naturals below `2 ^ 32`, and the arithmetic is
that of `Nat` by name, which the kernel evaluates directly. Each word is evaluated
before it is passed on (`strict`), so that a run takes time linear in its input.
-/

namespace Ureth.Foundation.Sha256

/-- Evaluate a word, then continue with it. -/
def strict {α : Type} (n : Nat) (next : Nat → α) : α :=
  match n with
  | 0 => next 0
  | m + 1 => next (m + 1)

/-- Addition modulo `2 ^ 32`. -/
def add (x y : Nat) : Nat := Nat.mod (Nat.add x y) 0x100000000

/-- Rotation to the right by `n`, where `m` is `32 - n`. -/
def rotr (x n m : Nat) : Nat :=
  Nat.lor (Nat.shiftRight x n) (Nat.mod (Nat.shiftLeft x m) 0x100000000)

structure State where
  a : Nat
  b : Nat
  c : Nat
  d : Nat
  e : Nat
  f : Nat
  g : Nat
  h : Nat

def initial : State where
  a := 0x6a09e667
  b := 0xbb67ae85
  c := 0x3c6ef372
  d := 0xa54ff53a
  e := 0x510e527f
  f := 0x9b05688c
  g := 0x1f83d9ab
  h := 0x5be0cd19

def constants : List Nat := [
  0x428a2f98, 0x71374491, 0xb5c0fbcf, 0xe9b5dba5, 0x3956c25b, 0x59f111f1, 0x923f82a4, 0xab1c5ed5,
  0xd807aa98, 0x12835b01, 0x243185be, 0x550c7dc3, 0x72be5d74, 0x80deb1fe, 0x9bdc06a7, 0xc19bf174,
  0xe49b69c1, 0xefbe4786, 0x0fc19dc6, 0x240ca1cc, 0x2de92c6f, 0x4a7484aa, 0x5cb0a9dc, 0x76f988da,
  0x983e5152, 0xa831c66d, 0xb00327c8, 0xbf597fc7, 0xc6e00bf3, 0xd5a79147, 0x06ca6351, 0x14292967,
  0x27b70a85, 0x2e1b2138, 0x4d2c6dfc, 0x53380d13, 0x650a7354, 0x766a0abb, 0x81c2c92e, 0x92722c85,
  0xa2bfe8a1, 0xa81a664b, 0xc24b8b70, 0xc76c51a3, 0xd192e819, 0xd6990624, 0xf40e3585, 0x106aa070,
  0x19a4c116, 0x1e376c08, 0x2748774c, 0x34b0bcb5, 0x391c0cb3, 0x4ed8aa4a, 0x5b9cca4f, 0x682e6ff3,
  0x748f82ee, 0x78a5636f, 0x84c87814, 0x8cc70208, 0x90befffa, 0xa4506ceb, 0xbef9a3f7, 0xc67178f2]

/-- One round with its constant and its schedule word. -/
def round {α : Type} (k w : Nat) (s : State) (next : State → α) : α :=
  match s with
  | ⟨a, b, c, d, e, f, g, h⟩ =>
    strict (add (Nat.add (Nat.add h k) w) (Nat.add
      (Nat.xor (rotr e 6 26) (Nat.xor (rotr e 11 21) (rotr e 25 7)))
      (Nat.xor (Nat.land e f) (Nat.land (Nat.sub 0xffffffff e) g)))) fun t1 =>
      strict (add d t1) fun e' =>
        strict (add t1 (Nat.add
          (Nat.xor (rotr a 2 30) (Nat.xor (rotr a 13 19) (rotr a 22 10)))
          (Nat.xor (Nat.land a b) (Nat.xor (Nat.land a c) (Nat.land b c))))) fun a' =>
          next ⟨a', a, b, c, e', e, f, g⟩

/-- The schedule word after the sixteen words `w`, oldest first. -/
def scheduled : List Nat → Nat
  | [w0, w1, _, _, _, _, _, _, _, w9, _, _, _, _, w14, _] =>
    add (Nat.add w0 (Nat.xor (rotr w1 7 25) (Nat.xor (rotr w1 18 14) (Nat.shiftRight w1 3))))
      (Nat.add w9 (Nat.xor (rotr w14 17 15) (Nat.xor (rotr w14 19 13) (Nat.shiftRight w14 10))))
  | _ => 0

def rounds {α : Type} : List Nat → List Nat → State → (State → α) → α
  | [], _, s, next => next s
  | k :: ks, w, s, next =>
    round k (w.headD 0) s fun s' =>
      strict (scheduled w) fun new => rounds ks (w.tail ++ [new]) s' next

/-- Compress one block of sixteen words. -/
def compress {α : Type} (w : List Nat) (s : State) (next : State → α) : α :=
  rounds constants w s fun r =>
    strict (add s.a r.a) fun a =>
      strict (add s.b r.b) fun b =>
        strict (add s.c r.c) fun c =>
          strict (add s.d r.d) fun d =>
            strict (add s.e r.e) fun e =>
              strict (add s.f r.f) fun f =>
                strict (add s.g r.g) fun g =>
                  strict (add s.h r.h) fun h =>
                    next ⟨a, b, c, d, e, f, g, h⟩

def blocks {α : Type} : Nat → List Nat → State → (State → α) → α
  | 0, _, s, next => next s
  | n + 1, words, s, next =>
    compress (words.take 16) s fun s' => blocks n (words.drop 16) s' next

/-- Big-endian words of four bytes. -/
def words : Nat → Bytes → List Nat
  | 0, _ => []
  | n + 1, b => beNat (b.take 4) :: words n (b.drop 4)

/-- The number of 64-byte blocks of a padded message. -/
def blockCount (len : Nat) : Nat := (len + 9 + 63) / 64

def pad (msg : Bytes) : Bytes :=
  msg ++ [0x80] ++ List.replicate (64 * blockCount msg.length - msg.length - 9) 0 ++
    beBytes 8 (8 * msg.length)

def sha256 (msg : Bytes) : Bytes32 :=
  blocks (blockCount msg.length) (words (16 * blockCount msg.length) (pad msg)) initial fun s =>
    ⟨beBytes 4 s.a ++ beBytes 4 s.b ++ beBytes 4 s.c ++ beBytes 4 s.d ++
      beBytes 4 s.e ++ beBytes 4 s.f ++ beBytes 4 s.g ++ beBytes 4 s.h, by
      simp only [List.length_append, beBytes_length]⟩

example : beNat (sha256 (ascii "abc")).val =
    0xba7816bf8f01cfea414140de5dae2223b00361a396177a9cb410ff61f20015ad := by
  decide +kernel

end Ureth.Foundation.Sha256
