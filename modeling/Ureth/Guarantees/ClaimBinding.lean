import Ureth.Foundation.Sha256
import Ureth.Source.B1.CertificateSpec

/-!
# What a seal certifies

Two accepted claims of one partition and one shard that fold to one root have one input record,
one technical record and one shard configuration, up to collisions of the hash among the strings
the folds hash. So a seal certifies at most one state root for a partition and shard.
-/

namespace Ureth.Guarantees
open Ureth.Foundation Ureth.Source.B1
open Ureth.Foundation.Cbor (Value)
open Cbor (Item itemOf Scanned Scannable)

theorem mem_foldInputs_of_tree {H : Bytes → Bytes32} {c d : Claim} {x : Bytes}
    (hx : x ∈ (c.leaf H :: climbed H c.treeNodes (H (c.leaf H))) ++
      (d.leaf H :: climbed H d.treeNodes (H (d.leaf H)))) : x ∈ foldInputs H c ++ foldInputs H d := by
  simp only [foldInputs, List.mem_append, List.mem_cons] at hx ⊢
  rcases hx with (hx | hx) | hx | hx <;> simp [hx]

theorem mem_foldInputs_of_shard {H : Bytes → Bytes32} {c d : Claim} {x : Bytes}
    (hx : x ∈ climbed H c.shardNodes (H c.record) ++ climbed H d.shardNodes (H d.record)) :
    x ∈ foldInputs H c ++ foldInputs H d := by
  simp only [foldInputs, List.mem_append, List.mem_cons] at hx ⊢
  rcases hx with hx | hx <;> simp [hx]

/-- The leaves of two claims of one partition under one root. -/
theorem leaf_of_root {H : Bytes → Bytes32} {c d : Claim} {ir ir' : FieldList Item 10} (hc : c.Formed)
    (hd : d.Formed) (fc : Folded H c ir) (fd : Folded H d ir')
    (hseal : c.sealFields[6].data = d.sealFields[6].data) (hpartition : c.partition = d.partition)
    (hno : ¬ Collision H (foldInputs H c ++ foldInputs H d)) : c.leaf H = d.leaf H := by
  have hp : c.treeCert[1].arg = d.treeCert[1].arg := by rw [fc.fields.1, fd.fields.1, hpartition]
  -- Every node of either path is a node of the partition, with some key below `2 ^ 32`.
  have hnode : ∀ e : Claim, e.Formed → e.treeCert[1].arg = d.treeCert[1].arg → ∀ n ∈ e.treeNodes,
      ∃ key b, key < 2 ^ 32 ∧ n = fun h => partitionNode (d.treeCert[1].arg % 2 ^ 32) key h b := by
    intro e he heq n hn
    obtain ⟨steps, hsteps, hchildren⟩ := he.steps
    have hstep : e.steps = steps.map itemOf := by simp [Claim.steps, hchildren, Res.value?]
    rw [Claim.treeNodes, hstep, heq] at hn
    obtain ⟨it, hit, rfl⟩ := List.mem_map.mp hn
    obtain ⟨t, ht, rfl⟩ := List.mem_map.mp hit
    exact stepNode_itemOf (hsteps t ht).1 (hsteps t ht).2 _
  refine climb_leaf_inj ?_ ?_ ?_ (fun hcol => hno (hcol.mono ?_))
    (Subtype.ext (fc.root.trans (hseal.trans fd.root.symm)))
  · intro n hn m hm h k heq
    obtain ⟨key, a, hkey, rfl⟩ := hnode c hc hp n hn
    obtain ⟨key', b, hkey', rfl⟩ := hnode d hd rfl m hm
    exact partitionNode_inj hkey hkey' heq
  · intro n hn h
    obtain ⟨key, a, -, rfl⟩ := hnode c hc hp n hn
    exact partitionNode_ne_leaf _ _ _ _ _ _
  · intro m hm k
    obtain ⟨key, a, -, rfl⟩ := hnode d hd rfl m hm
    exact partitionNode_ne_leaf _ _ _ _ _ _
  · exact fun x hx => mem_foldInputs_of_tree hx

/-- The records of two claims of one shard under one leaf. -/
theorem record_of_leaf {H : Bytes → Bytes32} {c d : Claim} {ir ir' : FieldList Item 10}
    (fc : Folded H c ir) (fd : Folded H d ir') (hpartition : c.partition = d.partition)
    (hshard : c.shard = d.shard) (hno : ¬ Collision H (foldInputs H c ++ foldInputs H d))
    (hleaf : c.leaf H = d.leaf H) : c.record = d.record := by
  have hinj := injOn_of_not_collision hno
  have hp : c.treeCert[1].arg = d.treeCert[1].arg := by rw [fc.fields.1, fd.fields.1, hpartition]
  have hs : c.shardCert[1].data = d.shardCert[1].data := by rw [fc.fields.2.1, fd.fields.2.1, hshard]
  have hdepth : c.depth = d.depth := by
    have := fc.depth
    rw [hs, fd.depth] at this
    exact (Except.ok.inj this).symm
  rw [Claim.leaf, Claim.leaf, hp] at hleaf
  have htop : c.shardTop H = d.shardTop H :=
    hinj (by simp [foldInputs]) (by simp [foldInputs]) (partitionLeaf_inj hleaf)
  have hroot : Foundation.climb H c.shardNodes (H c.record) = Foundation.climb H d.shardNodes (H d.record) :=
    Subtype.ext (List.append_cancel_left htop)
  have hnodes : List.Forall₂ (fun n m => ∀ h k, n h = m k → h = k) c.shardNodes d.shardNodes := by
    rw [Claim.shardNodes, Claim.shardNodes, hs, hdepth]
    exact shardPath_related (by rw [fc.siblings, fd.siblings, hdepth])
  have hbase := climb_inj hnodes (fun hcol => hno (hcol.mono fun x hx => mem_foldInputs_of_shard hx)) hroot
  exact hinj (by simp [foldInputs]) (by simp [foldInputs]) hbase

/-- The three items of a record are those of its bytes: the last two are 34 bytes each. -/
theorem items_of_record {c d : Claim} (hc : c.Formed) (hd : d.Formed) (h : c.record = d.record) :
    c.ir = d.ir ∧ c.tr = d.tr ∧ c.conf = d.conf := by
  obtain ⟨_, ⟨a, rfl, ha⟩, hctr⟩ := hc.tr
  obtain ⟨_, ⟨b, rfl, hb⟩, hcconf⟩ := hc.conf
  obtain ⟨_, ⟨a', rfl, ha'⟩, hdtr⟩ := hd.tr
  obtain ⟨_, ⟨b', rfl, hb'⟩, hdconf⟩ := hd.conf
  have hencode : ∀ x : Bytes, x.length = 32 → (Value.bytes x).encode = head32 ++ x := by
    intro x hx
    rw [Value.encode_eq]
    simp only [Value.major, Value.arg, Value.content, hx]
    rfl
  rw [Claim.record, Claim.record, hctr, hcconf, hdtr, hdconf, Cbor.itemOf_raw, Cbor.itemOf_raw,
    Cbor.itemOf_raw, Cbor.itemOf_raw, hencode a ha, hencode b hb, hencode a' ha', hencode b' hb'] at h
  obtain ⟨hfront, hb⟩ := List.append_inj' h (by simp [hb, hb'])
  obtain ⟨hir, ha⟩ := List.append_inj' hfront (by simp [ha, ha'])
  obtain rfl := List.append_cancel_left ha
  obtain rfl := List.append_cancel_left hb
  obtain ⟨t, ht, htree⟩ := hc.ir
  obtain ⟨u, hu, hutree⟩ := hd.ir
  rw [htree, hutree, Cbor.itemOf_raw, Cbor.itemOf_raw] at hir
  obtain rfl := Value.encode_inj ht.fits hu.fits hir
  exact ⟨htree.trans hutree.symm, hctr.trans hdtr.symm, hcconf.trans hdconf.symm⟩

/-- **Claim binding.** Two accepted claims of one partition and one shard that fold to one root of
the Unicity tree agree in their input record, technical record and shard configuration, and so in
the state they certify, or two of the strings that their folds hash collide. -/
theorem claim_binding {ε : Type} {H : Bytes → Bytes32} {r r' rest rest' : Bytes}
    {tokens tokens' counted counted' : Nat} {p q : Parsed}
    (hp : parseClaim r tokens = .ok (p, rest, counted))
    (hq : parseClaim r' tokens' = .ok (q, rest', counted'))
    (hseal : p.claim.sealFields[6].data = q.claim.sealFields[6].data)
    (hpartition : p.claim.partition = q.claim.partition) (hshard : p.claim.shard = q.claim.shard)
    (hfp : (folds H p.claim : Res ε Bool) = .ok true) (hfq : (folds H q.claim : Res ε Bool) = .ok true) :
    (p.claim.ir.raw = q.claim.ir.raw ∧ p.claim.tr.data = q.claim.tr.data ∧
        p.claim.conf.data = q.claim.conf.data ∧ p.claim.config = q.claim.config ∧
        p.claim.state = q.claim.state) ∨
      Collision H (foldInputs H p.claim ++ foldInputs H q.claim) := by
  by_cases hcol : Collision H (foldInputs H p.claim ++ foldInputs H q.claim)
  · exact .inr hcol
  have hc := (formed_of_parseClaim hp).1
  have hd := (formed_of_parseClaim hq).1
  obtain ⟨ir, fc⟩ := folded_of_folds hc hfp
  obtain ⟨ir', fd⟩ := folded_of_folds hd hfq
  have hleaf := leaf_of_root hc hd fc fd hseal hpartition hcol
  have hrecord := record_of_leaf fc fd hpartition hshard hcol hleaf
  obtain ⟨hir, htr, hconf⟩ := items_of_record hc hd hrecord
  have hfields : ir = ir' := by
    have := fc.ir
    rw [hir, fd.ir] at this
    exact (Except.ok.inj this).symm
  refine .inl ⟨by rw [hir], by rw [htr], by rw [hconf], ?_, ?_⟩
  · rw [← fc.fields.2.2.1, ← fd.fields.2.2.1, hconf]
  · rw [← fc.fields.2.2.2.1, ← fd.fields.2.2.2.1, hfields]

/-! ## Two claims under one seal -/

namespace SealedClaim

def fill (x : UInt8) : Value := .bytes (List.replicate 32 x)

/-- The root that the seal signs. -/
def root : Bytes := literal 32 0xe5fda2976ac2156c7c38bba0b31306d775cc39671001881d21e63fc5e81483ca

/-- A certificate for shard `1` of partition 7, one step below the root, with a signature of one byte. -/
def certificate (signature : UInt8) : Value :=
  .tag 39001 (.array [.uint 1,
    .tag 39002 (.array [.uint 1, .uint 0, .uint 0, fill 17, fill 17, .null, .uint 0, .null, .uint 0, .null]),
    fill 34, fill 51,
    .tag 39003 (.array [.uint 1, .bytes [0xc0], .array [fill 68]]),
    .tag 39004 (.array [.uint 1, .uint 7, .array [.array [.uint 3, fill 85]]]),
    .tag 39005 (.array [.uint 1, .uint 1, .uint 1, .uint 0, .uint 1681971084, fill 17,
      .bytes root,
      .map [.text [97], .bytes [signature]]])])

def packed (signature : UInt8) : Bytes :=
  beBytes 4 7 ++ beBytes 2 1 ++ [0xc0] ++ List.replicate 32 51 ++ List.replicate 32 17 ++
    literal 32 0x848d46476e4186f8ae268a276ba20758b64b3694156eefaee93480ebf096fda6 ++
    beBytes 4 (certificate signature).encode.length ++ (certificate signature).encode

/-- What the premises say of a packed claim: its partition, shard and root, and whether it folds. -/
def reading (r : Bytes) : Option ((Nat × Bytes × Bytes) × Bool) :=
  (parseClaim r 0).value?.map fun (p, _) =>
    ((p.claim.partition, p.claim.shard, p.claim.sealFields[6].data),
      ((folds Sha256.sha256 p.claim : Res Malformed Bool).value?).getD false)

theorem reading_packed : ∀ signature ∈ [1, 2], reading (packed signature) = some ((7, [0xc0], root), true) := by
  decide +kernel

theorem accepted_of_reading {r : Bytes} {fields : Nat × Bytes × Bytes} (h : reading r = some (fields, true)) :
    ∃ p rest, parseClaim r 0 = .ok (p, rest) ∧
      (p.claim.partition, p.claim.shard, p.claim.sealFields[6].data) = fields ∧
      (folds Sha256.sha256 p.claim : Res Malformed Bool) = .ok true := by
  obtain ⟨⟨p, rest⟩, hp, hread⟩ := Option.map_eq_some_iff.mp h
  obtain ⟨hfields, hfolds⟩ := Prod.mk.inj hread
  refine ⟨p, rest, ?_, hfields, ?_⟩
  · cases hparse : parseClaim r 0 <;> simp_all [Res.value?]
  · cases hfold : (folds Sha256.sha256 p.claim : Res Malformed Bool) <;> simp_all [Res.value?]

end SealedClaim

open SealedClaim in
/-- Two claims under one root that differ in a signature of the seal. -/
theorem claim_binding_two_signatures :
    ∃ p q rest rest', parseClaim (packed 1) 0 = .ok (p, rest) ∧ parseClaim (packed 2) 0 = .ok (q, rest') ∧
      ((p.claim.ir.raw = q.claim.ir.raw ∧ p.claim.tr.data = q.claim.tr.data ∧
          p.claim.conf.data = q.claim.conf.data ∧ p.claim.config = q.claim.config ∧
          p.claim.state = q.claim.state) ∨
        Collision Sha256.sha256 (foldInputs Sha256.sha256 p.claim ++ foldInputs Sha256.sha256 q.claim)) := by
  obtain ⟨p, rest, hp, hpf, hfp⟩ := accepted_of_reading (reading_packed 1 (by simp))
  obtain ⟨q, rest', hq, hqf, hfq⟩ := accepted_of_reading (reading_packed 2 (by simp))
  obtain ⟨hpartition, hshard, hseal⟩ : p.claim.partition = q.claim.partition ∧ p.claim.shard = q.claim.shard ∧
      p.claim.sealFields[6].data = q.claim.sealFields[6].data := by
    simpa using hpf.trans hqf.symm
  exact ⟨p, q, rest, rest', hp, hq, claim_binding hp hq hseal hpartition hshard hfp hfq⟩

end Ureth.Guarantees
