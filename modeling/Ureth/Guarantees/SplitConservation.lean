import Ureth.Foundation.Sha256
import Ureth.Source.B2.Lineage

/-!
# A split does not create value

Children accepted under one parent are leaves of one manifest tree. Different
children share the parent's amount, and a child cannot be presented with two
different outputs or amounts, unless two of the strings hashed by the
verifications collide.
-/

namespace Ureth.Guarantees
open Ureth.Foundation
open Ureth.Source.B2

/-- An allocation proof presented for a child: its identity, its output
commitment and its amount. -/
structure AllocationEdge where
  proof : Proof
  id : Bytes32
  data : Bytes32
  value : U256

namespace AllocationEdge

/-- The edge passes the relation's check against the parent. -/
def Accepted (H : Bytes → Bytes32) (parent : Parent) (e : AllocationEdge) : Prop :=
  allocationEdge H parent e.proof e.id e.data e.value = .ok ()

/-- The leaf and node strings hashed by the edge's verification. -/
def preimages (H : Bytes → Bytes32) (e : AllocationEdge) : List Bytes :=
  e.proof.preimages H e.id e.data e.value

def claim (e : AllocationEdge) : SumTree.Claim Bytes32 Bytes32 UInt8 Bytes32 :=
  allocationClaim e.proof e.id e.data e.value

theorem Accepted.verify {H : Bytes → Bytes32} {parent : Parent} {e : AllocationEdge}
    (h : e.Accepted H parent) : e.proof.verify H e.id e.data e.value parent.root = some parent.amount := by
  unfold Accepted allocationEdge at h
  simp only [Res.bind_eq_ok, Res.okOr_eq_ok, Res.refuse_eq_ok, not_not] at h
  obtain ⟨sum, hverify, rfl⟩ := h
  exact hverify

/-- An accepted edge is a claim of the sum tree under the parent, within the
openings hashed for the whole family. -/
theorem Accepted.against {H : Bytes → Bytes32} {parent : Parent} {e : AllocationEdge}
    (h : e.Accepted H parent) {inputs : List Bytes} (hsub : ∀ x ∈ e.preimages H, x ∈ inputs) :
    SumTree.Within (manifestCommit H) keyBit {o | OpeningFits o ∧ openingPreimage o ∈ inputs} e.claim ∧
      e.claim.top (manifestCommit H) keyBit = (parent.root, U256.toNat parent.amount) := by
  obtain ⟨htop, hopenings⟩ := verify_claim h.verify
  exact ⟨fun o ho => ⟨(hopenings o ho).1, hsub _ (hopenings o ho).2⟩, htop⟩

end AllocationEdge

/-- Accepted edges of one parent: different children share its amount, and one
child has one output and one amount. -/
theorem split_conservation (H : Bytes → Bytes32) (parent : Parent) (edges : List AllocationEdge)
    (haccepted : ∀ e ∈ edges, e.Accepted H parent) :
    Collision H (edges.flatMap (AllocationEdge.preimages H)) ∨
      (((edges.map (·.id)).Nodup → (edges.map (·.value.toNat)).sum ≤ U256.toNat parent.amount) ∧
        ∀ e ∈ edges, ∀ e' ∈ edges, e.id = e'.id → e.data = e'.data ∧ e.value = e'.value) := by
  by_cases hcol : Collision H (edges.flatMap (AllocationEdge.preimages H))
  · exact .inl hcol
  · right
    have hinj := manifestCommit_injOn hcol
    have hwithin := fun e he => (haccepted e he).against
      (fun x hx => List.mem_flatMap.mpr ⟨e, he, hx⟩)
    refine ⟨fun hdistinct => ?_, fun e he e' he' hid => ?_⟩
    · -- one bound on the path lengths serves the whole family
      obtain ⟨n, hn⟩ : ∃ n, ∀ e ∈ edges, e.claim.path.length ≤ n :=
        ⟨(edges.map (·.claim.path.length)).sum, fun e he =>
          List.le_sum_of_mem (List.mem_map_of_mem he)⟩
      have hsum := SumTree.sum_weight_le hinj n (edges.map (·.claim))
        (parent.root, U256.toNat parent.amount)
        (by
          intro c hc
          obtain ⟨e, he, rfl⟩ := List.mem_map.mp hc
          exact ⟨hn e he, (hwithin e he).1, (hwithin e he).2⟩)
        (by
          rw [List.map_map]
          exact hdistinct)
      rw [List.map_map] at hsum
      exact hsum
    · obtain ⟨hw, htop⟩ := hwithin e he
      obtain ⟨hw', htop'⟩ := hwithin e' he'
      obtain ⟨hdata, hvalue⟩ := SumTree.value_weight_unique hinj e.claim.path.length e.claim
        e'.claim le_rfl hw hw' hid (by rw [htop, htop'])
      exact ⟨hdata, U256.toNat_inj hvalue⟩

/-- An identity with the given first byte. -/
def idOf (first : UInt8) : Bytes32 := ⟨first :: List.replicate 31 0, by simp⟩

def amountOf (n : UInt8) : U256 := ⟨List.replicate 31 0 ++ [n], by simp⟩

/-- Two children of amounts 5 and 7, whose identities differ in the first bit. -/
def twoChildren : List AllocationEdge :=
  [⟨[⟨0, leafHash Sha256.sha256 (idOf 0x80) (idOf 0x80) (amountOf 7), amountOf 7⟩],
     idOf 0x00, idOf 0x00, amountOf 5⟩,
   ⟨[⟨0, leafHash Sha256.sha256 (idOf 0x00) (idOf 0x00) (amountOf 5), amountOf 5⟩],
     idOf 0x80, idOf 0x80, amountOf 7⟩]

/-- Their parent, of amount 12. -/
def twoChildrenParent : Parent where
  id := .zero 32
  amount := amountOf 12
  root := Sha256.sha256 (nodePreimage 0
    (leafHash Sha256.sha256 (idOf 0x00) (idOf 0x00) (amountOf 5), amountOf 5)
    (leafHash Sha256.sha256 (idOf 0x80) (idOf 0x80) (amountOf 7), amountOf 7))

instance (H : Bytes → Bytes32) (parent : Parent) (e : AllocationEdge) :
    Decidable (e.Accepted H parent) :=
  inferInstanceAs (Decidable (_ = _))

theorem split_conservation_two_children :
    Collision Sha256.sha256 (twoChildren.flatMap (AllocationEdge.preimages Sha256.sha256)) ∨
      (((twoChildren.map (·.id)).Nodup →
          (twoChildren.map (·.value.toNat)).sum ≤ U256.toNat twoChildrenParent.amount) ∧
        ∀ e ∈ twoChildren, ∀ e' ∈ twoChildren, e.id = e'.id → e.data = e'.data ∧ e.value = e'.value) :=
  split_conservation Sha256.sha256 twoChildrenParent twoChildren (by decide +kernel)

/-- Every sum of the relation is a sum of numbers: the big-endian encoding of it where it has
256 bits, nothing otherwise. The carry out of the bytes from `i` on is the loop's carry after
byte `i`. -/
theorem checked_sum_exact (a b : U256) :
    U256.checkedAdd a b =
        (if a.toNat + b.toNat < 2 ^ 256 then some (Fixed.ofNat 32 (a.toNat + b.toNat)) else none) ∧
      ∀ i, (U256.addBytes (a.val.drop i) (b.val.drop i)).2 ≤ 1 := by
  refine ⟨?_, fun i => U256.addBytes_carry_le _ _⟩
  split
  next hfits =>
    refine U256.checkedAdd_eq_some.mpr ?_
    rw [U256.toNat, Fixed.ofNat, beNat_beBytes]
    exact Nat.mod_eq_of_lt (lt_of_lt_of_eq hfits (by norm_num))
  next hlarge =>
    refine Option.eq_none_iff_forall_ne_some.mpr fun s hs => hlarge ?_
    rw [← U256.checkedAdd_eq_some.mp hs]
    exact lt_of_lt_of_eq s.toNat_lt (by norm_num)

end Ureth.Guarantees
