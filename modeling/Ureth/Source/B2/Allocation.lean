import Ureth.Foundation.Bytes
import Ureth.Foundation.Collision
import Ureth.Foundation.SumTree

/-!
# Allocation proofs (`b2/src/lineage.rs`)

The 256-bit amounts, the leaf and node hashes of a split manifest and the
verification of one allocation proof. A proof that verifies is a claim of the
abstract sum tree under the same root, so what the sum tree conserves, the
manifest conserves. `H` stands for SHA-256.
-/

namespace Ureth.Source.B2
open Ureth.Foundation

/-- A 256-bit unsigned amount, big-endian. -/
abbrev U256 := Bytes32

namespace U256

def toNat (v : U256) : Nat := beNat v.val

/-- A positive minimal big-endian amount of at most 32 bytes. -/
def amount (b : Bytes) : Option U256 :=
  if b = [] ∨ b.length > 32 ∨ b.head? = some 0 then none else Fixed.padLeft? 32 b

/-- The addition loop from the last byte to the first, with its final carry. -/
def addBytes : Bytes → Bytes → Bytes × Nat
  | a :: as, b :: bs =>
    let (out, carry) := addBytes as bs
    let v := a.toNat + b.toNat + carry
    (UInt8.ofNat v :: out, v / 256)
  | _, _ => ([], 0)

theorem addBytes_length (a b : Bytes) (h : a.length = b.length) :
    (addBytes a b).1.length = a.length := by
  induction a generalizing b with
  | nil => rfl
  | cons x a ih =>
    cases b with
    | nil => simp at h
    | cons y b => simpa [addBytes] using ih b (by simpa using h)

def checkedAdd (v o : U256) : Option U256 :=
  if (addBytes v.val o.val).2 = 0 then
    some ⟨(addBytes v.val o.val).1, by rw [addBytes_length _ _ (by simp)]; exact v.property⟩
  else none

/-- The loop is exact: the bytes and the carry are the sum. -/
theorem addBytes_value (a b : Bytes) (h : a.length = b.length) :
    beNat (addBytes a b).1 + (addBytes a b).2 * 256 ^ a.length = beNat a + beNat b := by
  induction a generalizing b with
  | nil =>
    cases b with
    | nil => rfl
    | cons y b => simp at h
  | cons x a ih =>
    cases b with
    | nil => simp at h
    | cons y b =>
      have hlen : a.length = b.length := by simpa using h
      have hrec := ih b hlen
      simp only [addBytes, beNat_cons, addBytes_length a b hlen, UInt8.toNat_ofNat',
        List.length_cons, ← hlen, pow_succ]
      generalize (addBytes a b).2 = c at *
      generalize beNat (addBytes a b).1 = r at *
      generalize 256 ^ a.length = p at *
      have hv := Nat.div_add_mod (x.toNat + y.toNat + c) 256
      calc (x.toNat + y.toNat + c) % 2 ^ 8 * p + r + (x.toNat + y.toNat + c) / 256 * (p * 256)
          = (256 * ((x.toNat + y.toNat + c) / 256) + (x.toNat + y.toNat + c) % 256) * p + r := by
            rw [show (2 : Nat) ^ 8 = 256 from rfl]
            ring
        _ = (x.toNat + y.toNat + c) * p + r := by rw [hv]
        _ = x.toNat * p + beNat a + (y.toNat * p + beNat b) := by linarith

/-- Two bytes and a carry of one make at most 511: the loop's 16-bit sum never wraps
and carries at most one. -/
theorem addBytes_carry_le (a b : Bytes) : (addBytes a b).2 ≤ 1 := by
  induction a generalizing b with
  | nil => simp [addBytes]
  | cons x a ih =>
    cases b with
    | nil => simp [addBytes]
    | cons y b =>
      have hcarry := ih b
      have hx := x.toNat_lt
      have hy := y.toNat_lt
      simp only [addBytes]
      omega

theorem toNat_lt (v : U256) : v.toNat < 256 ^ 32 := by
  have := beNat_lt v.val
  rwa [v.property] at this

theorem toNat_inj {v w : U256} (h : v.toNat = w.toNat) : v = w :=
  Subtype.ext (beNat_inj (by simp) h)

/-- Addition returns the mathematical sum, and fails exactly when it does not fit. -/
theorem checkedAdd_eq_some {v o s : U256} :
    checkedAdd v o = some s ↔ s.toNat = v.toNat + o.toNat := by
  have hval := addBytes_value v.val o.val (by simp)
  have hlen := addBytes_length v.val o.val (by simp)
  rw [v.property] at hval hlen
  have hlow := beNat_lt (addBytes v.val o.val).1
  rw [hlen] at hlow
  unfold checkedAdd
  split
  next hc =>
    rw [hc, Nat.zero_mul, Nat.add_zero] at hval
    rw [Option.some.injEq]
    constructor
    · rintro rfl
      exact hval
    · intro hs
      apply toNat_inj
      exact hval.trans hs.symm
  next hc =>
    simp only [reduceCtorEq, false_iff]
    intro hs
    have := toNat_lt s
    have : 256 ^ 32 ≤ (addBytes v.val o.val).2 * 256 ^ 32 :=
      Nat.le_mul_of_pos_left _ (Nat.pos_of_ne_zero hc)
    unfold toNat at *
    omega

end U256

def leafPreimage (key data : Bytes32) (v : U256) : Bytes :=
  0x10 :: (key.val ++ data.val ++ v.val)

def leafHash (H : Bytes → Bytes32) (key data : Bytes32) (v : U256) : Bytes32 :=
  H (leafPreimage key data v)

def nodePreimage (depth : UInt8) (l r : Bytes32 × U256) : Bytes :=
  0x11 :: depth :: (l.1.val ++ l.2.val ++ r.1.val ++ r.2.val)

def nodeHash (H : Bytes → Bytes32) (depth : UInt8) (l r : Bytes32 × U256) :
    Option (Bytes32 × U256) :=
  (U256.checkedAdd l.2 r.2).map fun sum => (H (nodePreimage depth l r), sum)

theorem keyBit_index (key : Bytes32) (i : UInt8) : i.toNat / 8 < key.val.length := by
  have := i.toNat_lt
  rw [key.property]
  omega

def keyBit (key : Bytes32) (i : UInt8) : Bool :=
  (key.val.get ⟨i.toNat / 8, keyBit_index key i⟩).toNat.testBit (7 - i.toNat % 8)

structure Step where
  depth : UInt8
  hash : Bytes32
  sum : U256
  deriving DecidableEq

/-- A leaf-first allocation proof. -/
abbrev Proof := List Step

namespace Proof

/-- The two sides of the node above `below` at a step. -/
def sides (key : Bytes32) (s : Step) (below : Bytes32 × U256) :
    (Bytes32 × U256) × (Bytes32 × U256) :=
  if keyBit key s.depth then ((s.hash, s.sum), below) else (below, (s.hash, s.sum))

def stepHash (H : Bytes → Bytes32) (key : Bytes32) (s : Step) (below : Bytes32 × U256) :
    Option (Bytes32 × U256) :=
  nodeHash H s.depth (sides key s below).1 (sides key s below).2

/-- The loop over the steps; `prev` is the depth of the step before. -/
def verifyLoop (H : Bytes → Bytes32) (key : Bytes32) :
    Proof → Bytes32 × U256 → Nat → Option (Bytes32 × U256)
  | [], below, _ => some below
  | s :: rest, below, prev =>
    if s.depth.toNat ≥ prev then none
    else (stepHash H key s below).bind fun above => verifyLoop H key rest above s.depth.toNat

/-- Verification returns the reconstructed root sum. -/
def verify (H : Bytes → Bytes32) (proof : Proof) (key data : Bytes32) (value : U256)
    (root : Bytes32) : Option U256 :=
  (verifyLoop H key proof (leafHash H key data value, value) 256).bind fun (h, sum) =>
    if h = root then some sum else none

/-- The node preimages the loop hashes, in order. -/
def loopPreimages (H : Bytes → Bytes32) (key : Bytes32) :
    Proof → Bytes32 × U256 → Nat → List Bytes
  | [], _, _ => []
  | s :: rest, below, prev =>
    if s.depth.toNat ≥ prev then []
    else match stepHash H key s below with
      | none => []
      | some above => nodePreimage s.depth (sides key s below).1 (sides key s below).2 ::
          loopPreimages H key rest above s.depth.toNat

/-- Every string `verify` hashes. -/
def preimages (H : Bytes → Bytes32) (proof : Proof) (key data : Bytes32) (value : U256) :
    List Bytes :=
  leafPreimage key data value :: loopPreimages H key proof (leafHash H key data value, value) 256

end Proof

/-! ## The sum tree of a manifest -/

open SumTree (Opening Claim)

/-- What a manifest digest commits to: token identities are the keys, output
commitments the values, branching bits the labels. -/
abbrev ManifestOpening := Opening Bytes32 Bytes32 UInt8 Bytes32

def wordOf (n : Nat) : U256 := ⟨beBytes 32 n, beBytes_length 32 n⟩

@[simp] theorem wordOf_toNat (v : U256) : wordOf v.toNat = v := by
  apply Subtype.ext
  have := beBytes_beNat v.val
  rwa [v.property] at this

/-- The string hashed for an opening. -/
def openingPreimage : ManifestOpening → Bytes
  | .leaf key value weight => leafPreimage key value (wordOf weight)
  | .node label left right =>
    nodePreimage label (left.1, wordOf left.2) (right.1, wordOf right.2)

/-- The weights of an opening fit 256 bits. -/
def OpeningFits : ManifestOpening → Prop
  | .leaf _ _ weight => weight < 256 ^ 32
  | .node _ left right => left.2 < 256 ^ 32 ∧ right.2 < 256 ^ 32

theorem wordOf_inj {m n : Nat} (hm : m < 256 ^ 32) (hn : n < 256 ^ 32)
    (h : wordOf m = wordOf n) : m = n := by
  simp only [wordOf, Subtype.mk.injEq] at h
  exact beBytes_inj hm hn h

/-- Leaf and node strings differ in their first byte, and their fields have fixed widths. -/
theorem openingPreimage_inj {o o' : ManifestOpening} (ho : OpeningFits o) (ho' : OpeningFits o')
    (h : openingPreimage o = openingPreimage o') : o = o' := by
  cases o with
  | leaf key value weight =>
    cases o' with
    | leaf key' value' weight' =>
      simp only [openingPreimage, leafPreimage, List.cons.injEq, true_and] at h
      obtain ⟨hkv, hw⟩ := List.append_inj h (by simp)
      obtain ⟨hk, hv⟩ := List.append_inj hkv (by simp)
      rw [Subtype.ext hk, Subtype.ext hv, wordOf_inj ho ho' (Subtype.ext hw)]
    | node label left right => simp [openingPreimage, leafPreimage, nodePreimage] at h
  | node label left right =>
    cases o' with
    | leaf key' value' weight' => simp [openingPreimage, leafPreimage, nodePreimage] at h
    | node label' left' right' =>
      simp only [openingPreimage, nodePreimage, List.cons.injEq, true_and] at h
      obtain ⟨hl, h⟩ := h
      obtain ⟨h, hrs⟩ := List.append_inj h (by simp)
      obtain ⟨h, hrh⟩ := List.append_inj h (by simp)
      obtain ⟨hlh, hls⟩ := List.append_inj h (by simp)
      have hleft : left = left' := Prod.ext (Subtype.ext hlh) (wordOf_inj ho.1 ho'.1 (Subtype.ext hls))
      have hright : right = right' :=
        Prod.ext (Subtype.ext hrh) (wordOf_inj ho.2 ho'.2 (Subtype.ext hrs))
      rw [hl, hleft, hright]

def manifestCommit (H : Bytes → Bytes32) (o : ManifestOpening) : Bytes32 := H (openingPreimage o)

/-- Without a collision among `inputs` the manifest digest is binding on the
openings hashed there. -/
theorem manifestCommit_injOn {H : Bytes → Bytes32} {inputs : List Bytes}
    (h : ¬ Collision H inputs) :
    Set.InjOn (manifestCommit H) {o | OpeningFits o ∧ openingPreimage o ∈ inputs} := by
  rintro o ⟨ho, hin⟩ o' ⟨ho', hin'⟩ heq
  exact openingPreimage_inj ho ho' (injOn_of_not_collision h hin hin' heq)

def sumStep (s : Step) : SumTree.Step UInt8 Bytes32 where
  label := s.depth
  sibling := (s.hash, s.sum.toNat)

/-- The claim an allocation proof makes; the abstract path starts at the root. -/
def allocationClaim (proof : Proof) (key data : Bytes32) (value : U256) :
    Claim Bytes32 Bytes32 UInt8 Bytes32 where
  key := key
  value := data
  weight := value.toNat
  path := (proof.map sumStep).reverse

/-- A digest and a word, as the abstract tree has them. -/
def sumPair (x : Bytes32 × U256) : Bytes32 × Nat := (x.1, x.2.toNat)

theorem openingPreimage_join (key : Bytes32) (s : Step) (below : Bytes32 × U256) :
    openingPreimage (SumTree.join keyBit key (sumStep s) (sumPair below)) =
      nodePreimage s.depth (Proof.sides key s below).1 (Proof.sides key s below).2 := by
  unfold SumTree.join Proof.sides sumStep sumPair
  simp only
  split <;> simp [openingPreimage]

theorem openingFits_join (key : Bytes32) (s : Step) (below : Bytes32 × U256) :
    OpeningFits (SumTree.join keyBit key (sumStep s) (sumPair below)) := by
  unfold SumTree.join sumStep sumPair
  simp only
  split
  · exact ⟨U256.toNat_lt _, U256.toNat_lt _⟩
  · exact ⟨U256.toNat_lt _, U256.toNat_lt _⟩

/-- One step of the loop is one step of the abstract climb. -/
theorem stepHash_eq_some {H : Bytes → Bytes32} {key : Bytes32} {s : Step}
    {below above : Bytes32 × U256} (h : Proof.stepHash H key s below = some above) :
    sumPair above = (manifestCommit H (SumTree.join keyBit key (sumStep s) (sumPair below)),
      (sumPair below).2 + (sumStep s).sibling.2) := by
  unfold Proof.stepHash nodeHash at h
  obtain ⟨sum, hadd, rfl⟩ := Option.map_eq_some_iff.mp h
  have hsum := U256.checkedAdd_eq_some.mp hadd
  unfold manifestCommit
  rw [openingPreimage_join]
  refine Prod.ext rfl ?_
  simp only [sumPair, sumStep, hsum]
  unfold Proof.sides
  split
  · exact Nat.add_comm _ _
  · rfl

/-- The loop climbs the abstract path, and hashes the strings of its nodes. -/
theorem verifyLoop_climb {H : Bytes → Bytes32} {key : Bytes32} (proof : Proof)
    (below top : Bytes32 × U256) (prev : Nat)
    (h : Proof.verifyLoop H key proof below prev = some top) :
    SumTree.climb (manifestCommit H) keyBit key (sumPair below) (proof.map sumStep).reverse =
        sumPair top ∧
      ∀ o ∈ SumTree.nodes (manifestCommit H) keyBit key (sumPair below)
          (proof.map sumStep).reverse,
        OpeningFits o ∧ openingPreimage o ∈ Proof.loopPreimages H key proof below prev := by
  induction proof generalizing below prev with
  | nil =>
    simp only [Proof.verifyLoop, Option.some.injEq] at h
    subst h
    simp [SumTree.climb, SumTree.nodes]
  | cons s rest ih =>
    rw [Proof.verifyLoop] at h
    split at h
    next => simp at h
    next hprev =>
      obtain ⟨above, hstep, hrest⟩ := Option.bind_eq_some_iff.mp h
      obtain ⟨hclimb, hnodes⟩ := ih above s.depth.toNat hrest
      have habove := stepHash_eq_some hstep
      simp only [List.map_cons, List.reverse_cons, SumTree.climb_append_singleton,
        SumTree.nodes_append_singleton, ← habove]
      refine ⟨hclimb, fun o ho => ?_⟩
      rw [Proof.loopPreimages, if_neg hprev, hstep]
      rcases List.mem_append.mp ho with ho | ho
      · exact ⟨(hnodes o ho).1, List.mem_cons_of_mem _ (hnodes o ho).2⟩
      · rw [List.mem_singleton] at ho
        subst ho
        refine ⟨openingFits_join key s below, ?_⟩
        rw [openingPreimage_join]
        exact List.mem_cons_self ..

/-- A verified proof is a claim of the sum tree under the same root, opened by
the strings the verification hashed. -/
theorem verify_claim {H : Bytes → Bytes32} {proof : Proof} {key data root : Bytes32}
    {value sum : U256} (h : proof.verify H key data value root = some sum) :
    (allocationClaim proof key data value).top (manifestCommit H) keyBit = (root, sum.toNat) ∧
      ∀ o ∈ (allocationClaim proof key data value).openings (manifestCommit H) keyBit,
        OpeningFits o ∧ openingPreimage o ∈ proof.preimages H key data value := by
  unfold Proof.verify at h
  obtain ⟨⟨top, s⟩, hloop, hroot⟩ := Option.bind_eq_some_iff.mp h
  dsimp only at hroot
  split at hroot
  next heq =>
    obtain rfl := Option.some.inj hroot
    obtain ⟨hclimb, hnodes⟩ := verifyLoop_climb proof _ _ _ hloop
    have hbase : (allocationClaim proof key data value).base (manifestCommit H) =
        sumPair (leafHash H key data value, value) := by
      simp [SumTree.Claim.base, allocationClaim, manifestCommit, openingPreimage, sumPair, leafHash]
    refine ⟨?_, ?_⟩
    · rw [SumTree.Claim.top, hbase, ← heq]
      exact hclimb
    · intro o ho
      rw [SumTree.Claim.openings, hbase] at ho
      rcases List.mem_cons.mp ho with rfl | ho
      · refine ⟨U256.toNat_lt value, ?_⟩
        simp [allocationClaim, openingPreimage, Proof.preimages]
      · exact ⟨(hnodes o ho).1, List.mem_cons_of_mem _ (hnodes o ho).2⟩
  next => simp at hroot

/-- The amounts a proof allocates besides its own leaf. -/
def proofSum (proof : Proof) : Nat := (proof.map (·.sum.toNat)).sum

/-- The reconstructed sum is the leaf's value plus the step sums. -/
theorem verify_sum {H : Bytes → Bytes32} {proof : Proof} {key data root : Bytes32} {value sum : U256}
    (h : proof.verify H key data value root = some sum) :
    sum.toNat = value.toNat + proofSum proof := by
  have htop := congrArg Prod.snd (verify_claim h).1
  rw [SumTree.Claim.top, SumTree.climb_weight] at htop
  simp only [allocationClaim, SumTree.Claim.base, List.map_reverse, List.map_map,
    List.sum_reverse] at htop
  exact htop.symm

theorem beNat_pos {b : Bytes} (hne : b ≠ []) (hhead : b.head? ≠ some 0) : 0 < beNat b := by
  cases b with
  | nil => exact absurd rfl hne
  | cons x b =>
    rw [beNat_cons]
    have hx : 0 < x.toNat := by
      rw [Nat.pos_iff_ne_zero]
      intro h0
      exact hhead (by simp [UInt8.toNat.inj (h0.trans (by rfl : (0 : Nat) = (0 : UInt8).toNat))])
    have := Nat.mul_pos hx (Nat.pow_pos (n := b.length) (show 0 < 256 by omega))
    omega

theorem beNat_zeros (n : Nat) : beNat (List.replicate n 0) = 0 := by
  induction n with
  | zero => rfl
  | succ n ih => rw [List.replicate_succ, beNat_cons, ih]; simp

/-- A decoded amount is positive. -/
theorem U256.amount_pos {b : Bytes} {v : U256} (h : U256.amount b = some v) : 0 < v.toNat := by
  unfold U256.amount at h
  split at h
  next => simp at h
  next hbad =>
    simp only [not_or, not_lt] at hbad
    obtain ⟨hne, hlen, hhead⟩ := hbad
    simp only [Fixed.padLeft?, hlen, dif_pos, Option.some.injEq] at h
    subst h
    simp only [U256.toNat, beNat_append, beNat_zeros]
    have := beNat_pos hne hhead
    omega

end Ureth.Source.B2
