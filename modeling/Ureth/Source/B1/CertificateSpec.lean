import Ureth.Foundation.HashPath
import Ureth.Source.B1.Certificate
import Ureth.Source.B1.CborItem

/-!
# Accepted claims and their folds

What the structural checks of a claim say of its parts, and the two folds of a claim as paths of
hashes: the shard tree from the input record up, and the Unicity tree from the partition's leaf
to the root that the seal signs.
-/

namespace Ureth.Source.B1
open Ureth.Foundation
open Ureth.Foundation.Cbor (Value)
open Cbor (Item itemOf Scanned Scannable)

/-- A string of 32 bytes. -/
def IsHash (t : Value) : Prop := ∃ b, t = .bytes b ∧ b.length = 32

/-- A step of the Unicity tree. -/
def IsStep (t : Value) : Prop :=
  ∃ key b, t = .array [.uint key, .bytes b] ∧ key < 2 ^ 32 ∧ b.length = 32

/-- What an accepted claim is made of. -/
structure Claim.Formed (c : Claim) : Prop where
  ir : Scanned c.ir
  tr : ∃ t, IsHash t ∧ c.tr = itemOf t
  conf : ∃ t, IsHash t ∧ c.conf = itemOf t
  siblings : ∃ ts : List Value, (∀ t ∈ ts, IsHash t) ∧
    ∀ ε : Type, (c.shardCert[2].children : Res ε (List Item)) = .ok (ts.map itemOf)
  steps : ∃ ts : List Value, (∀ t ∈ ts, Scannable t ∧ IsStep t) ∧
    ∀ ε : Type, (c.treeCert[2].children : Res ε (List Item)) = .ok (ts.map itemOf)

theorem isHash_of_bytes {it : Item} (h : Scanned it) {b : Bytes} (hb : it.bytes 32 = .ok b) :
    ∃ t, IsHash t ∧ it = itemOf t := by
  obtain ⟨t, -, rfl⟩ := h
  obtain ⟨rfl, hlen⟩ := Cbor.bytes_itemOf.mp hb
  exact ⟨_, ⟨b, rfl, hlen⟩, rfl⟩

/-- The members of an array or of null. -/
theorem kids_of_collection {it : Item} (h : Scanned it) {max n : Nat}
    (hcol : it.collection 4 max = .ok n) :
    ∃ ts : List Value, (∀ t ∈ ts, Scannable t) ∧ ∀ ε : Type, (it.children : Res ε (List Item)) = .ok (ts.map itemOf) := by
  obtain ⟨t, ht, rfl⟩ := h
  refine ⟨t.kids, fun u hu => ht.kid hu, fun ε => ?_⟩
  rcases Cbor.collection4_itemOf.mp hcol with ⟨rfl, -⟩ | ⟨ts, rfl, -⟩
  · exact Cbor.children_itemOf ht (by simp) (by simp)
  · exact Cbor.children_itemOf ht (by simp) (by simp)

theorem isStep_of_treeStep {t : Value} (ht : Scannable t) (h : treeStep (itemOf t) = .ok ()) : IsStep t := by
  simp only [treeStep, Res.bind_eq_ok, Res.pure_eq_ok, and_true] at h
  obtain ⟨pair, hpair, key, hkey, b, hb⟩ := h
  obtain ⟨ts, rfl, hlen, hts⟩ := (Cbor.array_itemOf ht).mp hpair
  obtain ⟨x, y, rfl⟩ := List.length_eq_two.mp hlen
  have hx := FieldList.getElem_of_toList hts 0 (by omega)
  have hy := FieldList.getElem_of_toList hts 1 (by omega)
  simp only [List.map_cons, List.getElem?_cons_zero, List.getElem?_cons_succ, Option.some.injEq] at hx hy
  rw [← hx] at hkey
  rw [← hy] at hb
  obtain ⟨rfl, hle⟩ := Cbor.uint_itemOf.mp hkey
  obtain ⟨rfl, hsize⟩ := Cbor.bytes_itemOf.mp hb
  exact ⟨key, b, rfl, by omega, hsize⟩

theorem shardCertificate_ok {it : Item} (h : Scanned it) {sc : FieldList Item 3} {n : Nat}
    (hsc : shardCertificate it = .ok (sc, n)) :
    ∃ ts : List Value, (∀ t ∈ ts, IsHash t) ∧ ∀ ε : Type, (sc[2].children : Res ε (List Item)) = .ok (ts.map itemOf) := by
  simp only [shardCertificate, Res.bind_eq_ok, Res.pure_eq_ok, Prod.mk.injEq,
    Res.each_eq_ok] at hsc
  obtain ⟨sc', htag, _, -, _, -, _, hcol, kids, hkids, _, hall, rfl, -⟩ := hsc
  obtain ⟨ts, hts, hchildren⟩ := kids_of_collection (h.tagged htag 2 (by omega)) hcol
  obtain rfl := Except.ok.inj ((hchildren Malformed).symm.trans hkids)
  refine ⟨ts, fun t ht => ?_, hchildren⟩
  obtain ⟨b, hb, -⟩ := hall (itemOf t) (List.mem_map_of_mem ht)
  obtain ⟨rfl, hlen⟩ := Cbor.bytes_itemOf.mp hb
  exact ⟨b, rfl, hlen⟩

theorem treeCertificate_ok {it : Item} (h : Scanned it) {tc : FieldList Item 3} {n : Nat}
    (htc : treeCertificate it = .ok (tc, n)) :
    ∃ ts : List Value, (∀ t ∈ ts, Scannable t ∧ IsStep t) ∧
      ∀ ε : Type, (tc[2].children : Res ε (List Item)) = .ok (ts.map itemOf) := by
  simp only [treeCertificate, Res.bind_eq_ok, Res.pure_eq_ok, Prod.mk.injEq,
    Res.each_eq_ok] at htc
  obtain ⟨tc', htag, _, -, _, hcol, kids, hkids, _, hall, rfl, -⟩ := htc
  obtain ⟨ts, hts, hchildren⟩ := kids_of_collection (h.tagged htag 2 (by omega)) hcol
  obtain rfl := Except.ok.inj ((hchildren Malformed).symm.trans hkids)
  exact ⟨ts, fun t ht => ⟨hts t ht, isStep_of_treeStep (hts t ht) (hall _ (List.mem_map_of_mem ht))⟩,
    hchildren⟩

/-- A claim that is parsed is well formed, and it names its partition in four bytes. -/
theorem formed_of_parseClaim {r rest : Bytes} {tokens tokens' : Nat} {p : Parsed}
    (h : parseClaim r tokens = .ok (p, rest, tokens')) : p.claim.Formed ∧ p.claim.partition < 2 ^ 32 := by
  simp only [parseClaim, Res.bind_eq_ok, Prod.exists, Res.pure_eq_ok, Prod.mk.injEq] at h
  obtain ⟨partition, r1, hpartition, _, r2, -, _, -, _, r3, -, _, -, _, r4, -, _, r5, -, _, r6, -, _, r7, -,
    _, -, raw, r8, -, it, _, hone, uc, huc, body, hbody, rfl, -, -⟩ := h
  have hscanned : Scanned it := Cbor.scanned_of_oneWith Cbor.maxItems_lt hone
  have hfield := fun i hi => hscanned.tagged huc i hi
  simp only [certificateBody, Res.bind_eq_ok, Prod.exists, Res.pure_eq_ok] at hbody
  obtain ⟨ir, -, trBytes, htr, confBytes, hconf, sc, _, hsc, tc, _, htc, _, _, -, _, -, rfl⟩ := hbody
  obtain ⟨v, hlen, rfl, -⟩ := uint_eq_ok.mp hpartition
  have hlt := beNat_lt v
  refine ⟨⟨hfield 1 (by omega), isHash_of_bytes (hfield 2 (by omega)) htr,
    isHash_of_bytes (hfield 3 (by omega)) hconf, shardCertificate_ok (hfield 4 (by omega)) hsc,
    treeCertificate_ok (hfield 5 (by omega)) htc⟩, ?_⟩
  rw [hlen] at hlt
  exact hlt

/-! ## The folds as paths -/

/-- The bit of the shard ID at which sibling `i` stands. -/
def siblingBit (shard : Bytes) (depth i : Nat) : Bool :=
  ((bitAt shard (depth - 1 - i) : Res Malformed Bool).value?).getD false

/-- The nodes of the shard tree above a record, sibling `i` first. -/
def shardPath (shard : Bytes) (depth : Nat) : Nat → List Item → List (Bytes32 → Bytes)
  | _, [] => []
  | i, sib :: rest =>
    (fun h => shardNode (siblingBit shard depth i) h sib.data) :: shardPath shard depth (i + 1) rest

/-- The node of the Unicity tree at a step. -/
def stepNode (partition : Nat) (step : Item) (h : Bytes32) : Bytes :=
  ((step.array 2).value?).elim [] fun pair => partitionNode partition (pair[0].arg % 2 ^ 32) h pair[1].data

section Folds

variable {ε : Type} {H : Bytes → Bytes32}

theorem bitAt_eq_ok {b : Bytes} {d : Nat} {bit : Bool} :
    (bitAt b d : Res ε Bool) = .ok bit ↔ ∃ byte, b[d / 8]? = some byte ∧ byte.toNat.testBit (7 - d % 8) = bit := by
  simp only [bitAt, Res.bind_eq_ok, Res.index_eq_ok, Res.pure_eq_ok]

theorem siblingBit_eq {shard : Bytes} {depth i : Nat} {bit : Bool}
    (h : (bitAt shard (depth - 1 - i) : Res ε Bool) = .ok bit) : siblingBit shard depth i = bit := by
  have hbit : (bitAt shard (depth - 1 - i) : Res Malformed Bool) = .ok bit := bitAt_eq_ok.mpr (bitAt_eq_ok.mp h)
  simp [siblingBit, hbit, Res.value?]

theorem foldShard_climb {shard : Bytes} {depth i : Nat} {siblings : List Item} {h root : Bytes32}
    (hfold : (foldShard H shard depth i siblings h : Res ε Bytes32) = .ok root) :
    root = Foundation.climb H (shardPath shard depth i siblings) h := by
  induction siblings generalizing i h with
  | nil => exact (Except.ok.inj hfold).symm
  | cons sib rest ih =>
    simp only [foldShard, Res.bind_eq_ok, Res.sub_eq_ok] at hfold
    obtain ⟨_, ⟨-, rfl⟩, _, ⟨-, rfl⟩, bit, hbit, hrest⟩ := hfold
    rw [ih hrest, shardPath, Foundation.climb, siblingBit_eq hbit]

theorem foldTree_climb {partition : Nat} {steps : List Item} {h root : Bytes32}
    (hfold : (foldTree H partition steps h : Res ε Bytes32) = .ok root) :
    root = Foundation.climb H (steps.map (stepNode partition)) h := by
  induction steps generalizing h with
  | nil => exact (Except.ok.inj hfold).symm
  | cons step rest ih =>
    simp only [foldTree, Res.bind_eq_ok, Res.expect_eq_ok] at hfold
    obtain ⟨pair, hpair, hrest⟩ := hfold
    rw [ih hrest, List.map_cons, Foundation.climb]
    simp [stepNode, hpair, Res.value?]

end Folds

/-- The parts of a claim that its folds read: the depth of the shard ID, the siblings and the steps. -/
def Claim.depth (c : Claim) : Nat := ((shardDepth c.shardCert[1].data).value?).getD 0

def Claim.siblings (c : Claim) : List Item :=
  ((c.shardCert[2].children : Res Malformed (List Item)).value?).getD []

def Claim.steps (c : Claim) : List Item :=
  ((c.treeCert[2].children : Res Malformed (List Item)).value?).getD []

/-- The record under the shard tree: the input record, the technical record's hash and the shard
configuration's. -/
def Claim.record (c : Claim) : Bytes := c.ir.raw ++ c.tr.raw ++ c.conf.raw

def Claim.shardNodes (c : Claim) : List (Bytes32 → Bytes) :=
  shardPath c.shardCert[1].data c.depth 0 c.siblings

/-- What the leaf of the Unicity tree holds the hash of: the root of the shard tree. -/
def Claim.shardTop (H : Bytes → Bytes32) (c : Claim) : Bytes :=
  head32 ++ (Foundation.climb H c.shardNodes (H c.record)).val

def Claim.leaf (H : Bytes → Bytes32) (c : Claim) : Bytes :=
  partitionLeaf (c.treeCert[1].arg % 2 ^ 32) (H (c.shardTop H))

def Claim.treeNodes (c : Claim) : List (Bytes32 → Bytes) :=
  c.steps.map (stepNode (c.treeCert[1].arg % 2 ^ 32))

/-- Every string that the folds of a claim hash. -/
def foldInputs (H : Bytes → Bytes32) (c : Claim) : List Bytes :=
  c.ir.raw :: c.record :: (climbed H c.shardNodes (H c.record) ++
    c.shardTop H :: c.leaf H :: climbed H c.treeNodes (H (c.leaf H)))

/-- What it takes that a claim folds. -/
structure Folded (H : Bytes → Bytes32) (c : Claim) (fields : FieldList Item 10) : Prop where
  ir : c.ir.tagged 10 39002 = .ok fields
  matched : claimMatches H c fields = true
  depth : shardDepth c.shardCert[1].data = .ok c.depth
  siblings : c.siblings.length = c.depth
  root : (Foundation.climb H c.treeNodes (H (c.leaf H))).val = c.sealFields[6].data

theorem folded_of_folds {ε : Type} {H : Bytes → Bytes32} {c : Claim} (hc : c.Formed)
    (h : (folds H c : Res ε Bool) = .ok true) : ∃ ir, Folded H c ir := by
  obtain ⟨siblings, -, hsiblings⟩ := hc.siblings
  obtain ⟨steps, -, hsteps⟩ := hc.steps
  have hsib : c.siblings = siblings.map itemOf := by simp [Claim.siblings, hsiblings, Res.value?]
  have hstep : c.steps = steps.map itemOf := by simp [Claim.steps, hsteps, Res.value?]
  simp only [folds, Res.bind_eq_ok, Res.expect_eq_ok] at h
  obtain ⟨ir, hir, h⟩ := h
  split at h
  · simp at h
  next hmatched =>
    simp only [Res.bind_eq_ok, Res.expect_eq_ok, hsiblings, Except.ok.injEq, exists_eq_left'] at h
    obtain ⟨depth, hdepth, h⟩ := h
    have hd : c.depth = depth := by simp [Claim.depth, hdepth, Res.value?]
    split at h
    · simp at h
    next hlen =>
      simp only [Res.bind_eq_ok, Res.pure_eq_ok, Except.ok.injEq, claimRoot, hsteps,
        exists_eq_left', decide_eq_true_eq] at h
      obtain ⟨root, ⟨top, htop, hroot⟩, heq⟩ := h
      refine ⟨ir, hir, by simpa using hmatched, hd ▸ hdepth, ?_, ?_⟩
      · rw [hsib, hd]
        simpa using hlen
      · rw [← heq, foldTree_climb hroot, foldShard_climb htop]
        simp only [Claim.treeNodes, Claim.leaf, Claim.shardTop, Claim.shardNodes, Claim.record, hsib, hstep, hd]

/-! ## What a node or a leaf determines -/

/-- The hash below a node stands at its end or right behind its first head. -/
theorem shardNode_inj {bit : Bool} {h k : Bytes32} {a b : Bytes}
    (heq : shardNode bit h a = shardNode bit k b) : h = k := by
  cases bit with
  | true =>
    simp only [shardNode, if_true] at heq
    exact Subtype.ext (List.append_inj' heq (by simp)).2
  | false =>
    simp only [shardNode, Bool.false_eq_true, if_false, List.append_assoc] at heq
    exact Subtype.ext (List.append_inj (List.append_cancel_left heq) (by simp)).1

theorem partitionNode_eq (partition key : Nat) (h : Bytes32) (sib : Bytes) :
    partitionNode partition key h sib =
      [0x41, 0, 0x44] ++ (beBytes 4 key ++ shardNode (partition > key) h sib) := by
  by_cases hlt : partition > key <;> simp [partitionNode, shardNode, hlt]

/-- Nodes of one partition with one string have one hash below them. -/
theorem partitionNode_inj {partition key key' : Nat} {h k : Bytes32} {a b : Bytes}
    (hkey : key < 2 ^ 32) (hkey' : key' < 2 ^ 32)
    (heq : partitionNode partition key h a = partitionNode partition key' k b) : h = k := by
  rw [partitionNode_eq, partitionNode_eq] at heq
  obtain ⟨hkeys, hsides⟩ := List.append_inj (List.append_cancel_left heq) (by simp)
  obtain rfl : key = key' := by
    have := congrArg beNat hkeys
    rw [beNat_beBytes, beNat_beBytes] at this
    omega
  exact shardNode_inj hsides

theorem partitionNode_ne_leaf (partition key : Nat) (h : Bytes32) (a : Bytes) (partition' : Nat)
    (data : Bytes32) : partitionNode partition key h a ≠ partitionLeaf partition' data := by
  intro heq
  have := congrArg (fun b => b[1]?) heq
  simp [partitionNode, partitionLeaf] at this

theorem partitionLeaf_inj {partition : Nat} {d d' : Bytes32}
    (heq : partitionLeaf partition d = partitionLeaf partition d') : d = d' :=
  Subtype.ext (List.append_cancel_left heq)

/-- A step of an accepted claim, with its key and its hash. -/
theorem stepNode_itemOf {t : Value} (ht : Scannable t) (hstep : IsStep t) (partition : Nat) :
    ∃ key b, key < 2 ^ 32 ∧ stepNode partition (itemOf t) = fun h => partitionNode partition key h b := by
  obtain ⟨key, b, rfl, hkey, -⟩ := hstep
  refine ⟨key, b, hkey, funext fun h => ?_⟩
  have hpair : (itemOf (.array [.uint key, .bytes b])).array 2 =
      .ok ⟨[itemOf (.uint key), itemOf (.bytes b)], rfl⟩ :=
    (Cbor.array_itemOf ht).mpr ⟨_, rfl, rfl, rfl⟩
  have hmod : key % 4294967296 = key := Nat.mod_eq_of_lt hkey
  simp [stepNode, hpair, Res.value?, FieldList.getElem_mk, hmod]

/-- The nodes of one shard ID at one depth, above any siblings. -/
theorem shardPath_related {shard : Bytes} {depth i : Nat} {as bs : List Item} (hlen : as.length = bs.length) :
    List.Forall₂ (fun n m => ∀ h k, n h = m k → h = k) (shardPath shard depth i as)
      (shardPath shard depth i bs) := by
  induction as generalizing bs i with
  | nil =>
    obtain rfl := List.length_eq_zero_iff.mp hlen.symm
    exact .nil
  | cons a as ih =>
    obtain ⟨b, bs, rfl⟩ := List.exists_cons_of_length_eq_add_one hlen.symm
    exact .cons (fun h k heq => shardNode_inj heq) (ih (by simpa using hlen))

/-- The fields of a claim that folds are those of its certificate. -/
theorem Folded.fields {H : Bytes → Bytes32} {c : Claim} {ir : FieldList Item 10} (h : Folded H c ir) :
    c.treeCert[1].arg = c.partition ∧ c.shardCert[1].data = c.shard ∧ c.conf.data = c.config ∧
      ir[4].data = c.state ∧ (H c.ir.raw).val = c.irHash := by
  have hmatched := h.matched
  simp only [claimMatches, Bool.and_eq_true, Bool.not_eq_true', Bool.or_eq_false_iff, decide_eq_false_iff_not,
    not_not] at hmatched
  obtain ⟨-, ⟨⟨⟨hpartition, hshard⟩, hconf⟩, hstate⟩, hhash⟩ := hmatched
  exact ⟨hpartition, hshard, hconf, hstate, hhash⟩

end Ureth.Source.B1
