import Ureth.Guarantees.LineageAccounting
import Ureth.Source.B2.ReturnSpec

/-!
# The lineage relation and the unsplit redemption

`BRIDGE_COMPOSE_V2` verifies every return as a lineage, also one whose token was
never split. On such a return the lineage relation gives the outcome of the
one-pass relation of `BRIDGE_COMPOSE_V1`, but only up to `Items.max` items: a
level scans its history with the per-object ceiling, the one-pass relation
without any.
-/

namespace Ureth.Guarantees
open Ureth.Foundation Ureth.Source Ureth.Source.B2
open Ureth.Foundation.Cbor (Value)
open Cbor (Item Items)
open Ureth.Source.B1.Cbor (usizeMax usizeMax_lt Scannable)

/-- The outcome of an unsplit return in the lineage's terms: the part is the token. -/
def asPart (o : Outcome) : Outcome := { o with partTokenId := o.tokenId, partAmount := o.amount }

/-- **The lineage relation on unsplit returns.** With charges that never refuse:
what the lineage accepts with depth zero the one-pass relation accepts with the
same outcome, and what the one-pass relation accepts the lineage accepts, with
the same outcome and depth zero, exactly if the history has at most `Items.max`
items as the composition counts them. -/
theorem unsplit_return_agrees {H : Bytes → Bytes32} {K : K256} {σ : Type}
    {charge : Nat → Run σ Error Unit} (hcharge : ∀ n s, (charge n s).1 = .ok ())
    {chargeV1 : Nat → Res Error Unit} (hchargeV1 : ∀ n, chargeV1 n = .ok ())
    (cfgBytes history : Bytes) (s : σ) :
    (∀ o', (Lineage.relation H K charge cfgBytes history s).1 = .ok o' → o'.depth = 0 →
      ∃ o, relation H K 2 cfgBytes history chargeV1 = .ok o ∧ o' = asPart o) ∧
    ∀ o, relation H K 2 cfgBytes history chargeV1 = .ok o →
      ((∃ o', (Lineage.relation H K charge cfgBytes history s).1 = .ok o' ∧ o'.depth = 0 ∧
          o' = asPart o) ↔
        ∃ n, (Bridge.historyItems history : Res Error Nat) = .ok n ∧ n ≤ Items.max) := by
  obtain rfl : chargeV1 = fun _ => .ok () := funext hchargeV1
  constructor
  · intro o' hrun hdepth
    obtain ⟨cfg, p, h, hcfg, hp, hdec, hcount, r, rfl⟩ := lineage_root_ok hrun hdepth
    have hwide : Cbor.one history (.perObject usizeMax) = .ok p :=
      Cbor.one_mono (show Items.max ≤ usizeMax by decide) usizeMax_lt hp
    exact ⟨r.outcome, relation_return.mpr ⟨cfg, p, h, hcfg, hwide, hdec, hcount, r, rfl⟩, rfl⟩
  · intro o hv1
    obtain ⟨cfg, p, h, hcfg, hp, hdec, hcount, r, rfl⟩ := relation_return.mp hv1
    rw [← Bridge.one_default_iff hp]
    constructor
    · rintro ⟨o', hrun, hdepth, -⟩
      obtain ⟨_, p', _, -, hp', -⟩ := lineage_root_ok hrun hdepth
      have hwide : Cbor.one history (.perObject usizeMax) = .ok p' :=
        Cbor.one_mono (show Items.max ≤ usizeMax by decide) usizeMax_lt hp'
      obtain rfl := Except.ok.inj (hp.symm.trans hwide)
      exact hp'
    · intro hp'
      obtain ⟨s', hrun⟩ := lineage_root_of hcharge hcfg hp' hdec hcount r s
      exact ⟨_, congrArg Prod.fst hrun, (derive_eq_ok r.base_ok).2.2.2, rfl⟩

/-- The recorded redemption: both relations accept it, with one outcome. -/
theorem unsplit_return_agrees_recorded :
    ∃ o, relation Sha256.sha256 recordedKeys 2 recordedCfg recordedReturn (fun _ => .ok ()) = .ok o ∧
      (Lineage.relation Sha256.sha256 recordedKeys freeCharge recordedCfg recordedReturn ()).1 =
        .ok (asPart o) ∧ o.leaves.length = 3 ∧
      ∃ n, (Bridge.historyItems recordedReturn : Res Error Nat) = .ok n ∧ n ≤ Items.max := by
  have hrun := recordedReturn_holds
  have hagree := unsplit_return_agrees (H := Sha256.sha256) (K := recordedKeys)
    (fun _ _ => rfl : ∀ n s, (freeCharge n s).1 = .ok ()) (fun _ => rfl) recordedCfg recordedReturn ()
  rcases hrel : (Lineage.relation Sha256.sha256 recordedKeys freeCharge recordedCfg recordedReturn ()).1
    with _ | out
  · rw [hrel] at hrun
    simp [Res.value?] at hrun
  · rw [hrel] at hrun
    simp only [Res.value?, Option.map_some, Option.some.injEq, Prod.mk.injEq] at hrun
    obtain ⟨o, hv1, rfl⟩ := hagree.1 out hrel hrun.1
    exact ⟨o, hv1, rfl, hrun.2, (hagree.2 o hv1).mp ⟨_, hrel, hrun.1, rfl⟩⟩

/-! ## A return of more than `Items.max` items

The token is handed on 1310 times before it is burnt, 25 items a transfer. The
hash is replaced by one that keeps the last 32 bytes and the signature check by
one that accepts, which keeps the states of the chain apart and leaves every
other check as it is. -/

/-- The last 32 bytes of a string. -/
def tailHash (b : Bytes) : Bytes32 :=
  ⟨(List.replicate 32 0 ++ b).drop b.length, by
    rw [List.length_drop, List.length_append, List.length_replicate]
    omega⟩

theorem tailHash_append (a : Bytes) (s : Bytes32) : tailHash (a ++ s.val) = s := by
  have hsplit : List.replicate 32 (0 : UInt8) ++ (a ++ s.val) = (List.replicate 32 0 ++ a) ++ s.val :=
    (List.append_assoc _ _ _).symm
  have hlen : (a ++ s.val).length = (List.replicate 32 (0 : UInt8) ++ a).length := by
    rw [List.length_append, List.length_append, List.length_replicate, s.property, Nat.add_comm]
  apply Subtype.ext
  calc (tailHash (a ++ s.val)).val
      = (List.replicate 32 0 ++ (a ++ s.val)).drop (a ++ s.val).length := rfl
    _ = s.val := by rw [hsplit, hlen, List.drop_left]

/-- A library with one key that accepts every signature. -/
@[reducible] def oneKey : K256 where
  VerifyingKey := Unit
  decEq := inferInstance
  Signature := Unit
  fromSec1Bytes _ := some ()
  verifyingKey _ := some ()
  encodedPoint _ := ⟨2 :: List.replicate 32 1, rfl⟩
  fromSlice _ := some ()
  highS _ := false
  recoverFromPrehash _ _ _ := some ()
  verifyPrehash _ _ _ := true

namespace LongReturn

set_option maxRecDepth 20000

def fill (n : Nat) (x : UInt8) : Value := .bytes (List.replicate n x)

/-- The last 32 bytes of the deployment strings: digits zero. -/
def typeId : Value := fill 32 48

def vault : Value := fill 20 7

def keyPred : Value := .tag 39032 (.array [.uint 1, .bytes [1], .bytes (2 :: List.replicate 32 1)])

def cfgTree : Value :=
  .array [.bytes cfgDomain, .uint 3, fill 32 0, .uint 1, fill 32 0, .uint 1, .bytes [], vault,
    fill 20 0, typeId, typeId, fill 32 0, fill 20 0, fill 32 0, fill 32 0, fill 32 17]

def lockReason : Value :=
  .tag 39049 (.array [.uint 2, .uint 1, vault, fill 20 0, .uint 1,
    .array [.uint 1, fill 32 17, fill 32 0, .bytes [1], .bytes [1], .bytes [1], .array [.bytes [1]],
      .array [.bytes [1]]]])

def mintDataTree : Value := .tag 39050 (.array [.uint 1, .array [.array [typeId, .bytes [100]]], .null])

def mintTree : Value :=
  .tag 39041 (.array [.uint 2, .uint 3, keyPred, .bytes (List.replicate 31 17 ++ [1]), typeId,
    .bytes lockReason.encode, .bytes mintDataTree.encode, .null])

/-- Certification data of a transition out of `source`. -/
def certTree (source txHash : Bytes32) : Value :=
  .tag 39031 (.array [.uint 2, keyPred, .bytes source.val, .bytes txHash.val, .null, fill 65 0])

def tokenId : Bytes32 := ⟨List.replicate 30 17 ++ [1, 3], rfl⟩

def genesisTree : Value :=
  .array [mintTree, certTree (tailHash (ascii "TOKENID")) (tailHash mintTree.encode), .uint 0]

/-- A transfer to the key's holder. -/
def hopTx (mask : Bytes32) : Value :=
  .tag 39045 (.array [.uint 2, keyPred, .bytes mask.val, .null, .null])

def returnTree : Value :=
  .tag 39048 (.array [.uint 1, .uint 1, vault, fill 20 0, typeId, typeId, fill 20 9, .bytes [100],
    fill 20 0, .bytes [], .uint 0])

def burnPred : Value :=
  .tag 39032 (.array [.uint 1, .bytes [2], .bytes (tailHash returnTree.encode).val])

def burnTx : Value :=
  .tag 39045 (.array [.uint 2, burnPred, fill 32 0, .bytes returnTree.encode, .null])

def tupleTree (tx : Value) (source : Bytes32) : Value :=
  .array [tx, certTree source (tailHash tx.encode), .uint 0]

/-- The transfers from `source` over the given states, and the return burn. -/
def chain : Bytes32 → List Bytes32 → List Value
  | source, [] => [tupleTree burnTx source]
  | source, mask :: rest => tupleTree (hopTx mask) source :: chain mask rest

def state (i : Nat) : Bytes32 := Fixed.ofNat 32 i

def historyTree (states : List Bytes32) : Value := .array [genesisTree, .array (chain tokenId states)]

theorem predicate_keyPred :
    predicate (Cbor.itemOf keyPred) = .ok (1, 2 :: List.replicate 32 1) := by rfl

def certOf (source txHash : Bytes32) : Cd where
  pred := Cbor.itemOf keyPred
  source := source.val
  tx := txHash.val
  e := none
  unlock := List.replicate 65 0

def hopOf (mask : Bytes32) : Tx where
  raw := (hopTx mask).encode
  pred := Cbor.itemOf keyPred
  mask := mask.val
  data := none
  e := none

theorem scannable_certTree (source txHash : Bytes32) : Scannable (certTree source txHash) := by
  refine ⟨?_, ?_, ?_⟩
  · simp [certTree, keyPred, fill, Value.All, Value.Fits, Value.arg, Value.major]
  · simp [certTree, keyPred, fill, Value.height, B1.Cbor.maxDepth]
  · simp [certTree, keyPred, fill, Value.count]

theorem scannable_hopTx (mask : Bytes32) : Scannable (hopTx mask) := by
  refine ⟨?_, ?_, ?_⟩
  · simp [hopTx, keyPred, Value.All, Value.Fits, Value.arg, Value.major]
  · simp [hopTx, keyPred, Value.height, B1.Cbor.maxDepth]
  · simp [hopTx, keyPred, Value.count]

theorem cdStrict_certTree (source txHash : Bytes32) :
    cdStrict oneKey (Cbor.itemOf (certTree source txHash)) = .ok (certOf source txHash) := by
  have hfields : (Cbor.itemOf (certTree source txHash)).tagged 6 39031 2 = .ok
      ⟨[Cbor.itemOf (.uint 2), Cbor.itemOf keyPred, Cbor.itemOf (.bytes source.val),
        Cbor.itemOf (.bytes txHash.val), Cbor.itemOf .null, Cbor.itemOf (fill 65 0)], rfl⟩ :=
    (Cbor.tagged_itemOf (scannable_certTree source txHash) (by omega)).mpr ⟨_, rfl, rfl, rfl, rfl⟩
  have hsource : (Cbor.itemOf (.bytes source.val)).bytes 32 = .ok source.val :=
    Cbor.bytes_itemOf.mpr ⟨rfl, source.property⟩
  have htx : (Cbor.itemOf (.bytes txHash.val)).bytes 32 = .ok txHash.val :=
    Cbor.bytes_itemOf.mpr ⟨rfl, txHash.property⟩
  have hunlock : (Cbor.itemOf (fill 65 0)).blob 65 = .ok (List.replicate 65 0) := by rfl
  have hdeadline : deadline (Cbor.itemOf .null) = .ok none := by rfl
  simp only [cdStrict, cd, hfields, Res.bind_ok, FieldList.getElem_mk, List.getD_cons_succ, List.getD_cons_zero,
    predicate_keyPred, hsource, htx, hdeadline, hunlock,
    Res.pure_def, predStrict, if_true, key, Res.okOr, certOf]

theorem transferStrict_hopTx (mask : Bytes32) :
    transferStrict oneKey (Cbor.itemOf (hopTx mask)) = .ok (hopOf mask) := by
  have hfields : (Cbor.itemOf (hopTx mask)).tagged 5 39045 2 = .ok
      ⟨[Cbor.itemOf (.uint 2), Cbor.itemOf keyPred, Cbor.itemOf (.bytes mask.val), Cbor.itemOf .null,
        Cbor.itemOf .null], rfl⟩ :=
    (Cbor.tagged_itemOf (scannable_hopTx mask) (by omega)).mpr ⟨_, rfl, rfl, rfl, rfl⟩
  have hmask : (Cbor.itemOf (.bytes mask.val)).bytes 32 = .ok mask.val :=
    Cbor.bytes_itemOf.mpr ⟨rfl, mask.property⟩
  have hnull : nullable (Cbor.itemOf .null) = .ok none := by rfl
  have hdeadline : deadline (Cbor.itemOf .null) = .ok none := by rfl
  simp only [transferStrict, transfer, hfields, Res.bind_ok, FieldList.getElem_mk, List.getD_cons_succ, List.getD_cons_zero,
    predicate_keyPred, hmask, hnull, hdeadline,
    Res.pure_def, predStrict, if_true, key, Res.okOr, hopOf, Cbor.itemOf_raw]

theorem scannable_tupleTree {tx : Value} (htx : Scannable tx) (hheight : tx.height ≤ 10)
    (hcount : tx.count ≤ 100) (source : Bytes32) : Scannable (tupleTree tx source) := by
  have hcert := scannable_certTree source (tailHash tx.encode)
  refine ⟨?_, ?_, ?_⟩
  · simp only [tupleTree]
    refine Value.all_fits_array (by simp) ?_
    rintro t ht
    simp only [List.mem_cons, List.not_mem_nil, or_false] at ht
    rcases ht with rfl | rfl | rfl
    · exact htx.fits
    · exact hcert.fits
    · simp [Value.All, Value.Fits, Value.arg, Value.major]
  · simp [tupleTree, certTree, keyPred, fill, Value.height, B1.Cbor.maxDepth]
    omega
  · simp [tupleTree, certTree, keyPred, fill, Value.count]
    omega

theorem decodeTuple_tupleTree {tx : Value} {d : Tx} (hs : ∀ source, Scannable (tupleTree tx source))
    (htx : transferStrict oneKey (Cbor.itemOf tx) = .ok d) (source : Bytes32) :
    decodeTuple oneKey (Cbor.itemOf (tupleTree tx source)) =
      .ok { tx := d, cert := certOf source (tailHash tx.encode), t := 0 } := by
  have hfields : (Cbor.itemOf (tupleTree tx source)).array 3 = .ok
      ⟨[Cbor.itemOf tx, Cbor.itemOf (certTree source (tailHash tx.encode)), Cbor.itemOf (.uint 0)], rfl⟩ :=
    (Cbor.array_itemOf (hs source)).mpr ⟨_, rfl, rfl, rfl⟩
  have htime : (Cbor.itemOf (.uint 0)).uint u64Max = .ok 0 := by rfl
  simp only [decodeTuple, hfields, Res.bind_ok, FieldList.getElem_mk, List.getD_cons_succ, List.getD_cons_zero,
    htx, cdStrict_certTree, htime, Res.pure_def]

theorem sidOf_keyPred (source : Bytes32) : sidOf tailHash keyPred.encode source = source := by
  have hsplit : Cbor.array [keyPred.encode, Cbor.bytes source.val] =
      (Cbor.header 4 2 ++ keyPred.encode ++ Cbor.header 2 source.val.length) ++ source.val := by
    simp [Cbor.array, Cbor.bytes]
  rw [sidOf, hashArray, hsplit, tailHash_append]

theorem outputState_eq (source mask : Bytes32) : outputState tailHash source mask.val = mask := by
  have hsplit : Cbor.array [Cbor.bytes (0 :: 0 :: source.val), Cbor.bytes mask.val] =
      (Cbor.header 4 2 ++ Cbor.bytes (0 :: 0 :: source.val) ++ Cbor.header 2 mask.val.length) ++
        mask.val := by
    simp [Cbor.array, Cbor.bytes]
  rw [outputState, hashArray, hsplit, tailHash_append]

/-- A transfer out of a state not seen before. -/
theorem spend_tuple {tx : Tx} (he : tx.e = none) (source : Bytes32) {seen : List Bytes32}
    (hfresh : source ∉ seen) :
    ∃ leaf, spend tailHash oneKey (Cbor.itemOf keyPred) source
        { tx, cert := certOf source (tailHash tx.raw), t := 0 } seen = .ok (leaf, source :: seen) ∧
      leaf.txHash = tailHash tx.raw := by
  refine ⟨{ sid := source, txHash := tailHash tx.raw, referenceTime := 0,
            value := hashArray tailHash [Cbor.bytes (tailHash tx.raw).val, Cbor.uint 0] }, ?_, rfl⟩
  have hunlock : ∀ s th : Bytes, unlock tailHash oneKey () s th (List.replicate 65 0) = .ok () :=
    fun _ _ => rfl
  simp only [spend, predicate_keyPred, Res.bind_ok, key, Res.okOr, step, certOf, Cbor.itemOf_raw, he,
    hunlock, sidOf_keyPred, insertSid, Res.refuse_of_not hfresh, Res.pure_def]
  simp [Res.refuse]

def burnOf : Tx where
  raw := burnTx.encode
  pred := Cbor.itemOf burnPred
  mask := List.replicate 32 0
  data := some returnTree.encode
  e := none

theorem scannable_burnTx : Scannable burnTx := by
  refine ⟨?_, ?_, ?_⟩
  · have hlen : returnTree.encode.length < 2 ^ 64 := by decide
    simpa [burnTx, burnPred, fill, Value.All, Value.Fits, Value.arg, Value.major] using hlen
  · simp [burnTx, burnPred, fill, Value.height, B1.Cbor.maxDepth]
  · simp [burnTx, burnPred, fill, Value.count]

theorem transferStrict_burnTx : transferStrict oneKey (Cbor.itemOf burnTx) = .ok burnOf := by
  have hfields : (Cbor.itemOf burnTx).tagged 5 39045 2 = .ok
      ⟨[Cbor.itemOf (.uint 2), Cbor.itemOf burnPred, Cbor.itemOf (fill 32 0),
        Cbor.itemOf (.bytes returnTree.encode), Cbor.itemOf .null], rfl⟩ :=
    (Cbor.tagged_itemOf scannable_burnTx (by omega)).mpr ⟨_, rfl, rfl, rfl, rfl⟩
  have hpred : predicate (Cbor.itemOf burnPred) = .ok (2, (tailHash returnTree.encode).val) := by
    rfl
  have hmask : (Cbor.itemOf (fill 32 0)).bytes 32 = .ok (List.replicate 32 0) := by rfl
  have hdata : nullable (Cbor.itemOf (.bytes returnTree.encode)) = .ok (some returnTree.encode) := by
    rfl
  have hdeadline : deadline (Cbor.itemOf .null) = .ok none := by rfl
  simp only [transferStrict, transfer, hfields, Res.bind_ok, FieldList.getElem_mk, List.getD_cons_succ, List.getD_cons_zero,
    hpred, hmask, hdata, hdeadline, Res.pure_def,
    predStrict, show ¬ (2 : Nat) = 1 by decide, if_false, burnOf, Cbor.itemOf_raw]

theorem interior_hopOf (mask : Bytes32) : B2.interior oneKey (hopOf mask) = .ok () := by
  simp only [B2.interior, hopOf, predicate_keyPred, Res.bind_ok, key, Res.okOr]
  rfl

/-- Every chain over states that are distinct and new verifies up to its burn. -/
theorem chain_ok (masks : List Bytes32) (source : Bytes32) :
    ∃ trs last, Res.collect (decodeTuple oneKey) ((chain source masks).map Cbor.itemOf) = .ok trs ∧
      trs.getLast? = some last ∧ last.tx = burnOf ∧
      ∀ seen, (∀ s ∈ source :: masks, s ∉ seen) → (source :: masks).Nodup →
        ∃ leaves seen' leaf, levelTransfers tailHash oneKey trs (Cbor.itemOf keyPred) source seen =
          .ok (leaves, seen') ∧ leaves.getLast? = some leaf ∧ leaf.txHash = tailHash burnTx.encode := by
  induction masks generalizing source with
  | nil =>
    have hs := fun s => scannable_tupleTree scannable_burnTx (by decide) (by decide) s
    refine ⟨[{ tx := burnOf, cert := certOf source (tailHash burnTx.encode), t := 0 }], _, ?_, rfl, rfl, ?_⟩
    · simp only [chain, List.map_cons, List.map_nil, Res.collect,
        decodeTuple_tupleTree hs transferStrict_burnTx, Res.bind_ok, Res.pure_def]
    · intro seen hnew _
      obtain ⟨leaf, hspend, hhash⟩ := spend_tuple (show burnOf.e = none from rfl) source
        (hnew source (by simp))
      refine ⟨[leaf], source :: seen, leaf, ?_, rfl, hhash⟩
      simp only [levelTransfers, if_true, Res.bind_eq_ok, Res.pure_eq_ok]
      exact ⟨_, hspend, (), trivial, _, rfl, rfl⟩
  | cons mask rest ih =>
    have hs := fun s => scannable_tupleTree (scannable_hopTx mask)
      (by simp [hopTx, keyPred, Value.height]) (by simp [hopTx, keyPred, Value.count]) s
    obtain ⟨trs, last, hcollect, hlast, hburn, hrun⟩ := ih mask
    have hne : trs ≠ [] := by
      rintro rfl
      simp at hlast
    refine ⟨{ tx := hopOf mask, cert := certOf source (tailHash (hopTx mask).encode), t := 0 } :: trs,
      last, ?_, ?_, hburn, ?_⟩
    · simp only [chain, List.map_cons, Res.collect, decodeTuple_tupleTree hs (transferStrict_hopTx mask),
        hcollect, Res.bind_ok, Res.pure_def]
    · rwa [List.getLast?_cons_of_ne_nil hne]
    · intro seen hnew hnodup
      obtain ⟨leaf, hspend, -⟩ := spend_tuple (show (hopOf mask).e = none from rfl) source
        (hnew source (by simp))
      have hnew' : ∀ s ∈ mask :: rest, s ∉ source :: seen := by
        intro s hmem hin
        rcases List.mem_cons.mp hin with rfl | hin
        · exact (List.nodup_cons.mp hnodup).1 hmem
        · exact hnew s (List.mem_cons_of_mem _ hmem) hin
      obtain ⟨leaves, seen', burnt, hrest, hburnt, hhash⟩ :=
        hrun (source :: seen) hnew' (List.nodup_cons.mp hnodup).2
      have hleaves : leaves ≠ [] := by
        rintro rfl
        simp at hburnt
      refine ⟨leaf :: leaves, seen', burnt, ?_, ?_, hhash⟩
      · simp only [levelTransfers, if_neg hne, Res.bind_eq_ok, Res.pure_eq_ok]
        refine ⟨_, hspend, (), interior_hopOf mask, (leaves, seen'), ?_, rfl⟩
        simpa only [hopOf, outputState_eq] using hrest
      · rwa [List.getLast?_cons_of_ne_nil hleaves]

/-- The genesis and the burn, up to what the chain of transfers needs of them. -/
def genesisRun : Res Error (Item × Bytes32 × List Bytes32) := do
  let cfg ← parseCfg tailHash cfgTree.encode
  let m ← decodeMint oneKey (Cbor.itemOf mintTree)
  let (n, amt) ← verifyMint tailHash cfg m true .default
  let n ← Res.unwrap n
  let base ← derive tailHash oneKey cfg n amt m.fields[2]
  let (_, seen) ← mintLeaf tailHash oneKey base.tokenId mintTree.encode m.deadline
    (certOf (tailHash (ascii "TOKENID")) (tailHash mintTree.encode)) 0 []
  let _ ← burn tailHash cfg base.amount burnOf .default
  return (m.fields[2], base.tokenId, seen)

theorem genesisRun_eq :
    genesisRun = .ok (Cbor.itemOf keyPred, tokenId, [tailHash (ascii "TOKENID")]) := by
  rfl

theorem nullifierOf_eq (cfgHash : Bytes32) (leaf : Leaf) :
    nullifierOf tailHash cfgHash leaf = leaf.txHash := by
  have hlast : ∀ (a b : Bytes) (s : Bytes32), hashArray tailHash [a, b, Cbor.bytes s.val] = s := by
    intro a b s
    have hsplit : Cbor.array [a, b, Cbor.bytes s.val] =
        (Cbor.header 4 3 ++ a ++ b ++ Cbor.header 2 s.val.length) ++ s.val := by
      simp [Cbor.array, Cbor.bytes]
    rw [hashArray, hsplit, tailHash_append]
  rw [nullifierOf]
  simp only [hlast]

theorem chain_tree (masks : List Bytes32) (source : Bytes32) :
    (∀ t ∈ chain source masks, Value.All (Cbor.NodeOk false) t ∧ t.height ≤ 6) ∧
      Value.countAll (chain source masks) = 25 * masks.length + 25 ∧
      (chain source masks).length = masks.length + 1 := by
  have hhop : ∀ s m, Value.All (Cbor.NodeOk false) (tupleTree (hopTx m) s) ∧
      (tupleTree (hopTx m) s).height ≤ 6 ∧ (tupleTree (hopTx m) s).count = 25 := by
    intro s m
    refine ⟨?_, ?_, ?_⟩
    · simp [tupleTree, hopTx, certTree, keyPred, fill, Value.All, Cbor.NodeOk, Value.Fits, Value.arg,
        Value.major]
    · simp [tupleTree, hopTx, certTree, keyPred, fill, Value.height]
    · simp [tupleTree, hopTx, certTree, keyPred, fill, Value.count]
  have hburn : ∀ s, Value.All (Cbor.NodeOk false) (tupleTree burnTx s) ∧
      (tupleTree burnTx s).height ≤ 6 ∧ (tupleTree burnTx s).count = 25 := by
    intro s
    have hlen : returnTree.encode.length < 2 ^ 64 := by decide
    refine ⟨?_, ?_, ?_⟩
    · simpa [tupleTree, burnTx, burnPred, certTree, keyPred, fill, Value.All, Cbor.NodeOk, Value.Fits,
        Value.arg, Value.major] using hlen
    · simp [tupleTree, burnTx, burnPred, certTree, keyPred, fill, Value.height]
    · simp [tupleTree, burnTx, burnPred, certTree, keyPred, fill, Value.count]
  induction masks generalizing source with
  | nil =>
    obtain ⟨hall, hheight, hcount⟩ := hburn source
    refine ⟨?_, by simp [chain, hcount], rfl⟩
    intro t ht
    obtain rfl := List.mem_singleton.mp ht
    exact ⟨hall, hheight⟩
  | cons mask rest ih =>
    obtain ⟨hall, hheight, hcount⟩ := hhop source mask
    obtain ⟨hrest, hcountRest, hlenRest⟩ := ih mask
    refine ⟨?_, ?_, ?_⟩
    · intro t ht
      rcases List.mem_cons.mp ht with rfl | ht
      · exact ⟨hall, hheight⟩
      · exact hrest t ht
    · rw [chain, Value.countAll_cons, hcount, hcountRest, List.length_cons]
      omega
    · rw [chain, List.length_cons, hlenRest, List.length_cons]

theorem genesis_tree : Value.All (Cbor.NodeOk false) genesisTree ∧ genesisTree.height ≤ 6 ∧
    genesisTree.count = 28 := by
  have hreason : lockReason.encode.length < 2 ^ 64 := by decide
  have hdata : mintDataTree.encode.length < 2 ^ 64 := by decide
  refine ⟨?_, ?_, ?_⟩
  · simpa [genesisTree, mintTree, certTree, keyPred, typeId, fill, Value.All, Cbor.NodeOk, Value.Fits,
      Value.arg, Value.major] using And.intro hreason hdata
  · simp [genesisTree, mintTree, certTree, keyPred, typeId, fill, Value.height]
  · simp [genesisTree, mintTree, certTree, keyPred, typeId, fill, Value.count]

theorem count_historyTree (masks : List Bytes32) :
    (historyTree masks).count = 25 * masks.length + 55 := by
  have hgenesis := genesis_tree.2.2
  have hchain := (chain_tree masks tokenId).2.1
  simp only [historyTree, Value.count, Value.countAll_cons, Value.countAll_nil, hgenesis, hchain]
  omega

theorem accepted_historyTree {masks : List Bytes32} (hfew : masks.length < 2 ^ 50) :
    Cbor.Accepted false Cbor.maxDepth (historyTree masks) := by
  obtain ⟨hgenesis, hheight, -⟩ := genesis_tree
  obtain ⟨hchain, -, hlen⟩ := chain_tree masks tokenId
  have hdeep : Value.heightAll (chain tokenId masks) ≤ 6 := Value.heightAll_le fun t ht => (hchain t ht).2
  refine ⟨?_, ?_⟩
  · simp only [historyTree, Value.height, Value.heightAll_cons, Value.heightAll_nil, Cbor.maxDepth]
    omega
  · simp only [historyTree, Value.All, Value.allAll_iff, Value.AllAll, and_true]
    refine ⟨⟨⟨by simp [Value.arg], by simp [Value.major]⟩, by simp [Value.major]⟩, hgenesis, ?_,
      fun t ht => (hchain t ht).1⟩
    refine ⟨⟨?_, by simp [Value.major]⟩, by simp [Value.major]⟩
    rw [Value.arg, hlen]
    omega

/-- The one-pass relation accepts the return over any states that are distinct and new. -/
theorem relation_historyTree {masks : List Bytes32} (hfew : masks.length < 2 ^ 50)
    (hnodup : (tokenId :: masks).Nodup) (hnew : tailHash (ascii "TOKENID") ∉ tokenId :: masks) :
    ∃ o, relation tailHash oneKey 2 cfgTree.encode (historyTree masks).encode (fun _ => .ok ()) = .ok o := by
  have hacc := accepted_historyTree hfew
  have hcount := count_historyTree masks
  have hscan : Scannable (historyTree masks) := hacc.scannable (by omega)
  have hp : Cbor.one (historyTree masks).encode (.perObject usizeMax) =
      .ok (Cbor.itemOf (historyTree masks)) := by
    refine (Cbor.one_eq_ok usizeMax_lt).mpr ⟨_, hacc, rfl, rfl, ?_⟩
    simp only [Items.perObject, usizeMax]
    omega
  have hlen := (chain_tree masks tokenId).2.2
  have hgenesis := genesisRun_eq
  simp only [genesisRun, Res.bind_eq_ok, Res.unwrap_eq_ok, Res.pure_eq_ok,
    Prod.mk.injEq] at hgenesis
  obtain ⟨cfg, hcfg, m, hm, ⟨_, amt⟩, hmint, nonce, rfl, base, hbase, ⟨first, _⟩, hfirst, releaseTo, hburn,
    howner, hid, rfl⟩ := hgenesis
  obtain ⟨trs, last, hcollect, hlast, hlastTx, hrun⟩ := chain_ok masks tokenId
  obtain ⟨leaves, seen', leaf, hleaves, hleaf, hhash⟩ := hrun [tailHash (ascii "TOKENID")]
    (fun s hs hin => hnew (List.mem_singleton.mp hin ▸ hs)) hnodup
  have hfields : (Cbor.itemOf (historyTree masks)).array 2 = .ok
      ⟨[Cbor.itemOf genesisTree, Cbor.itemOf (.array (chain tokenId masks))], rfl⟩ :=
    (Cbor.array_itemOf hscan).mpr ⟨_, rfl, rfl, rfl⟩
  have hgen : (Cbor.itemOf genesisTree).array 3 = .ok
      ⟨[Cbor.itemOf mintTree, Cbor.itemOf (certTree (tailHash (ascii "TOKENID"))
        (tailHash mintTree.encode)), Cbor.itemOf (.uint 0)], rfl⟩ :=
    (Cbor.array_itemOf (hscan.kid (by simp [historyTree, Value.kids]))).mpr ⟨_, rfl, rfl, rfl⟩
  have hcountTx : (Cbor.itemOf (.array (chain tokenId masks))).count u64Max = .ok (masks.length + 1) :=
    Cbor.count_itemOf.mpr ⟨_, rfl, hlen, by simp only [usizeMax]; omega⟩
  have hkids := Cbor.children_array (hscan.kid (u := .array (chain tokenId masks))
    (by simp [historyTree, Value.kids]))
  have htime : (Cbor.itemOf (.uint 0)).uint u64Max = .ok 0 := by rfl
  have hdec : decodeFields oneKey (Cbor.itemOf (historyTree masks)) u64Max = .ok
      { count := masks.length + 1, mintItem := Cbor.itemOf mintTree, mint := m,
        cd0 := certOf (tailHash (ascii "TOKENID")) (tailHash mintTree.encode), t0 := 0,
        transfers := trs } := by
    simp only [decodeFields, hfields, Res.bind_ok, FieldList.getElem_mk, List.getD_cons_succ, List.getD_cons_zero,
    hgen, hcountTx, hm, cdStrict_certTree, htime, hkids,
      hcollect, Res.pure_def]
  have hstart : outputState tailHash (mintSource tailHash base.tokenId) base.tokenId.val = tokenId := by
    rw [outputState_eq, hid]
  have hnull : nullifierOf tailHash base.cfg leaf ≠ .zero 32 := by
    rw [nullifierOf_eq, hhash]
    decide
  exact ⟨_, relation_return.mpr ⟨cfg, _, _, hcfg, hp, hdec, Nat.succ_ne_zero _,
    ⟨nonce, amt, base, first, _, leaves, seen', last, leaf, releaseTo, hmint, hbase, hfirst,
      by rw [hstart]; exact howner ▸ hleaves, hlast, hleaf, hlastTx ▸ hburn, hnull⟩, rfl⟩⟩

/-- The states of 1310 transfers. -/
def states : List Bytes32 := (List.range 1310).map fun i => state (i + 1)

theorem beNat_state {i : Nat} (hi : i < 2 ^ 32) : beNat (state i).val = i := by
  rw [state, Fixed.ofNat, beNat_beBytes, Nat.mod_eq_of_lt (lt_trans hi (by norm_num))]

theorem nodup_states : (tokenId :: states).Nodup := by
  have hid : beNat tokenId.val > 2 ^ 32 := by decide
  refine List.nodup_cons.mpr ⟨?_, ?_⟩
  · intro hmem
    obtain ⟨i, hi, heq⟩ := List.mem_map.mp hmem
    have hi' := List.mem_range.mp hi
    rw [← heq, beNat_state (by omega)] at hid
    omega
  · refine List.Nodup.map_on ?_ List.nodup_range
    intro i hi j hj heq
    have hi' := List.mem_range.mp hi
    have hj' := List.mem_range.mp hj
    have := congrArg (fun s : Bytes32 => beNat s.val) heq
    simp only [beNat_state (show i + 1 < 2 ^ 32 by omega), beNat_state (show j + 1 < 2 ^ 32 by omega)]
      at this
    omega

theorem minter_not_mem_states : tailHash (ascii "TOKENID") ∉ tokenId :: states := by
  have hbig : beNat (tailHash (ascii "TOKENID")).val > 2 ^ 32 := by decide
  intro hmem
  rcases List.mem_cons.mp hmem with heq | hmem
  · exact absurd heq (by decide)
  · obtain ⟨i, hi, heq⟩ := List.mem_map.mp hmem
    have hi' := List.mem_range.mp hi
    rw [← heq, beNat_state (by omega)] at hbig
    omega

end LongReturn

open LongReturn in
/-- A return after 1310 transfers has 32805 items: the one-pass relation accepts it
and the lineage relation does not. -/
theorem long_return_diverges :
    (∃ o, relation tailHash oneKey 2 cfgTree.encode (historyTree states).encode (fun _ => .ok ()) =
      .ok o) ∧
    (historyTree states).count = 32805 ∧
    ¬ ∃ o', (Lineage.relation tailHash oneKey freeCharge cfgTree.encode (historyTree states).encode ()).1 =
      .ok o' ∧ o'.depth = 0 := by
  have hlen : states.length = 1310 := by simp [states]
  have hfew : states.length < 2 ^ 50 := by omega
  have hcount : (historyTree states).count = 32805 := by
    have := count_historyTree states
    omega
  have hacc := accepted_historyTree hfew
  refine ⟨relation_historyTree hfew nodup_states minter_not_mem_states, hcount, ?_⟩
  rintro ⟨o', hrun, hdepth⟩
  obtain ⟨_, p, _, -, hp, -⟩ := lineage_root_ok hrun hdepth
  obtain ⟨t, ht, henc, -, hle⟩ := (Cbor.one_eq_ok items_default_word).mp hp
  have hle' : t.count ≤ 32768 := hle
  have hfits := (hacc.scannable (by omega)).fits
  have hfits' := (ht.scannable (lt_of_le_of_lt hle items_default_word)).fits
  obtain rfl := Value.encode_inj hfits hfits' henc
  omega

end Ureth.Guarantees
