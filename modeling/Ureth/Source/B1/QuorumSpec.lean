import Ureth.Foundation.Quorum
import Ureth.Source.B1.Batch
import Ureth.Source.B1.CertificateSpec
import Ureth.Source.B1.RegistrySpec

/-!
# The weight behind a seal

The signature map of a parsed claim as its list of names and signatures, and the quorum loop as the
weight of the members that signed. The map's keys are in strict order, so no name is met twice.
-/

namespace Ureth.Source.B1
open Ureth.Foundation
open Ureth.Foundation.Cbor (Value)
open Cbor (Item itemOf Scanned Scannable)

/-! ## The signature map -/

/-- The names and signatures of a signature map in turn. -/
def pairsOf : List Item → List (Bytes × Bytes)
  | id :: sig :: rest => (id.data, sig.data) :: pairsOf rest
  | _ => []

/-- The pairs of the claim's signature map. -/
def Claim.signatures (c : Claim) : List (Bytes × Bytes) :=
  pairsOf (((c.sealFields[7].children : Res Malformed (List Item)).value?).getD [])

/-- The bytes of the seal before its signature map. -/
def Claim.unsigned (c : Claim) : Bytes :=
  c.sealItem.raw.take (c.sealItem.raw.length - c.sealFields[7].raw.length)

/-- The items of a list of pairs. -/
def pairValues (pairs : List (Bytes × Bytes)) : List Value :=
  pairs.flatMap fun pair => [.text pair.1, .bytes pair.2]

theorem pairsOf_pairValues (pairs : List (Bytes × Bytes)) :
    pairsOf ((pairValues pairs).map itemOf) = pairs := by
  induction pairs with
  | nil => rfl
  | cons pair rest ih =>
    show (pair.1, pair.2) :: pairsOf ((pairValues rest).map itemOf) = pair :: rest
    rw [ih]

/-- What passes the check of names and values is a list of pairs. -/
theorem exists_pairs : ∀ {ts : List Value}, signaturePairs (ts.map itemOf) = .ok () →
    ∃ pairs, ts = pairValues pairs
  | [], _ => ⟨[], rfl⟩
  | [t], h => by
    simp [signaturePairs, Res.bind_eq_ok] at h
  | t :: u :: ts, h => by
    simp only [List.map_cons, signaturePairs, Res.bind_eq_ok] at h
    obtain ⟨id, hid, sig, hsig, hrest⟩ := h
    obtain ⟨rfl, -⟩ := Cbor.blob3_itemOf.mp hid
    obtain ⟨rfl, -⟩ := Cbor.blob2_itemOf.mp hsig
    obtain ⟨pairs, rfl⟩ := exists_pairs hrest
    exact ⟨(id, sig) :: pairs, rfl⟩

theorem pick_pairValues (pairs : List (Bytes × Bytes)) (k : Nat) :
    Cbor.pick (2 * k) (pairValues pairs) = pairs.map fun pair => .text pair.1 := by
  induction pairs generalizing k with
  | nil => rfl
  | cons pair rest ih =>
    have hvalues : pairValues (pair :: rest) = .text pair.1 :: .bytes pair.2 :: pairValues rest := rfl
    have heven : 2 * k % 2 = 0 := by omega
    have hodd : ¬ (2 * k + 1) % 2 = 0 := by omega
    rw [hvalues, Cbor.pick, if_pos heven, Cbor.pick, if_neg hodd, List.map_cons]
    exact congrArg _ (ih (k + 1))

/-- A name stands once in a map whose keys are in strict order. -/
theorem nodup_of_keys {pairs : List (Bytes × Bytes)}
    (h : (Cbor.keysOf (.map (pairValues pairs))).Pairwise (· < ·)) : (pairs.map Prod.fst).Nodup := by
  have hkeys : Cbor.keysOf (.map (pairValues pairs)) =
      (pairs.map Prod.fst).map fun id => (Value.text id).encode := by
    rw [Cbor.keysOf, Value.kids, pick_pairValues pairs 0, List.map_map, List.map_map]
    rfl
  rw [hkeys] at h
  have hnodup : ((pairs.map Prod.fst).map fun id => (Value.text id).encode).Nodup :=
    h.imp fun {a b} (hlt : a < b) (heq : a = b) => List.lt_irrefl b (heq ▸ hlt)
  exact List.Nodup.of_map _ hnodup

/-- A field of a versioned record, as a tree below the record's. -/
theorem tagged_field {rule : Value → Prop} {t : Value} (ht : Scannable t) (hrule : Value.All rule t)
    {n tag : Nat} [NeZero n] {v : FieldList Item n} (h : (itemOf t).tagged n tag = .ok v) (i : Nat)
    (hi : i < n) :
    ∃ u, v[i] = itemOf u ∧ Scannable u ∧ Value.All rule u ∧ u.encode.length ≤ t.encode.length := by
  obtain ⟨ts, rfl, -, hts, -⟩ := (Cbor.tagged_itemOf ht).mp h
  have hinner : Value.array ts ∈ (Value.tag tag (.array ts)).kids := by simp
  have hget := FieldList.getElem_of_toList hts i hi
  rw [List.getElem?_map] at hget
  obtain ⟨u, hu, hv⟩ := Option.map_eq_some_iff.mp hget
  have hmem : u ∈ (Value.array ts).kids := List.mem_of_getElem? hu
  refine ⟨u, hv.symm, (ht.kid hinner).kid hmem, (hrule.kid hinner).kid hmem, ?_⟩
  exact (Value.length_encode_kid_lt hmem).le.trans (Value.length_encode_kid_lt hinner).le

/-- What the quorum reads of a claim. -/
structure Claim.Sealed (c : Claim) : Prop where
  kids : ∀ ε : Type, (c.sealFields[7].children : Res ε (List Item)) =
    .ok ((pairValues c.signatures).map itemOf)
  empty : (c.sealFields[7].null = true ∨ c.sealFields[7].arg = 0) ↔ c.signatures = []
  ids : (c.signatures.map Prod.fst).Nodup
  within : c.sealFields[7].raw.length ≤ c.sealItem.raw.length

/-- A seal and its signature map as trees. -/
theorem Claim.sealed_of_trees {c : Claim} {v w : Value} {pairs : List (Bytes × Bytes)}
    (hseal : c.sealItem = itemOf v) (hmap : c.sealFields[7] = itemOf w) (hw : Scannable w)
    (hrule : Value.All (Cbor.NodeOk true true) w) (hle : w.encode.length ≤ v.encode.length)
    (hpairs : w = .null ∧ pairs = [] ∨ w = .map (pairValues pairs)) : c.Sealed := by
  have hchildren (ε : Type) : (c.sealFields[7].children : Res ε (List Item)) =
      .ok ((pairValues pairs).map itemOf) := by
    rw [hmap]
    rcases hpairs with ⟨rfl, rfl⟩ | rfl
    · rfl
    · exact Cbor.children_itemOf hw (by simp) (by simp)
  have hsignatures : c.signatures = pairs := by
    rw [Claim.signatures, hchildren]
    exact pairsOf_pairValues pairs
  have hlength : (pairValues pairs).length / 2 = pairs.length := by
    rw [pairValues, List.length_flatMap]
    simp
  rw [← hsignatures] at hchildren
  refine ⟨hchildren, ?_, ?_, ?_⟩
  · rw [hsignatures, hmap]
    rcases hpairs with ⟨rfl, rfl⟩ | rfl
    · simp [Item.null]
    · simp [Item.null, hlength]
  · rw [hsignatures]
    rcases hpairs with ⟨-, rfl⟩ | rfl
    · exact List.nodup_nil
    · exact nodup_of_keys (hrule.root.keys rfl rfl).2
  · rw [hmap, hseal]
    exact hle

theorem sealed_of_parseClaim {r rest : Bytes} {tokens tokens' : Nat} {p : Parsed}
    (h : parseClaim r tokens = .ok (p, rest, tokens')) : p.claim.Sealed := by
  simp only [parseClaim, Res.bind_eq_ok, Prod.exists, Res.pure_eq_ok, Prod.mk.injEq] at h
  obtain ⟨_, _, -, _, _, -, _, -, _, _, -, _, -, _, _, -, _, _, -, _, _, -, _, _, -, _, -, raw, _, -, it, _, hone,
    uc, huc, body, hbody, rfl, -, -⟩ := h
  obtain ⟨t, hacc, -, rfl, rfl, hcap⟩ := (Cbor.oneWith_eq_ok Cbor.maxItems_lt).mp hone
  have hscannable : Scannable t := by
    refine hacc.scannable ?_
    have := Cbor.maxItems_lt
    omega
  simp only [certificateBody, unicitySeal, Res.bind_eq_ok, Prod.exists, Res.pure_eq_ok,
    Prod.mk.injEq] at hbody
  obtain ⟨_, -, _, -, _, -, _, _, -, _, _, -, _, _, ⟨fields, hfields, _, -, _, -, _, -, _, -, count, hcount, kids,
    hkids, _, hpairs, rfl, rfl⟩, _, -, rfl⟩ := hbody
  -- the seal is a field of the certificate, the map a field of the seal
  obtain ⟨v, hseal, hv, hvrule, -⟩ := tagged_field hscannable hacc.2 huc 6 (by omega)
  rw [hseal] at hfields
  obtain ⟨w, hmap, hw, hwrule, hle⟩ := tagged_field hv hvrule hfields 7 (by omega)
  rw [hmap] at hcount hkids
  obtain ⟨pairs, hw'⟩ : ∃ pairs, w = .null ∧ pairs = [] ∨ w = .map (pairValues pairs) := by
    rcases Cbor.collection5_itemOf.mp hcount with ⟨rfl, -⟩ | ⟨ts, rfl, -⟩
    · exact ⟨[], .inl ⟨rfl, rfl⟩⟩
    · rw [Cbor.children_itemOf hw (by simp) (by simp)] at hkids
      obtain rfl := Except.ok.inj hkids
      obtain ⟨pairs, rfl⟩ := exists_pairs hpairs
      exact ⟨pairs, .inr rfl⟩
  exact Claim.sealed_of_trees hseal hmap hw hwrule hle hw'

/-! ## The members that signed -/

section Count

variable {ρ ε : Type} {S : Secp256k1}

/-- A signature of the message under the member's name recovers to the member's key. -/
def signedBy (message : Bytes32) (pairs : List (Bytes × Bytes)) (m : Member S) : Bool :=
  pairs.any fun pair => decide (m.id = pair.1) && recoversTo S message pair.2 m.key

theorem recoversTo_nil (message : Bytes32) (key : S.PublicKey) : recoversTo S message [] key = false := rfl

/-- What one pair adds to the weight. -/
def pairWeight (message : Bytes32) (members : List (Member S)) (pair : Bytes × Bytes) : Nat :=
  ((members.find? fun m => decide (m.id = pair.1)).map fun m =>
    if recoversTo S message pair.2 m.key then m.weight else 0).getD 0

variable (message : Bytes32) {members : List (Member S)}

theorem pickWeight_signedBy_cons {pair : Bytes × Bytes} {pairs : List (Bytes × Bytes)}
    (hmembers : (members.map Member.id).Nodup) (hfresh : pair.1 ∉ pairs.map Prod.fst) :
    pickWeight Member.weight (signedBy message (pair :: pairs)) members =
      pairWeight message members pair + pickWeight Member.weight (signedBy message pairs) members := by
  have hone : pickWeight Member.weight
      (fun m => decide (m.id = pair.1) && recoversTo S message pair.2 m.key) members =
        pairWeight message members pair := pickWeight_key hmembers pair.1
  rw [← hone, ← pickWeight_or]
  · rfl
  · intro m _ hm
    have hid : m.id = pair.1 := of_decide_eq_true (Bool.and_eq_true_iff.mp hm).1
    rw [signedBy, List.any_eq_false]
    intro other hother hsigned
    have hid' : m.id = other.1 := of_decide_eq_true (Bool.and_eq_true_iff.mp hsigned).1
    exact hfresh (List.mem_map.mpr ⟨other, hother, hid'.symm.trans hid⟩)

/-- An empty name or signature adds nothing. -/
theorem pairWeight_eq_zero {pair : Bytes × Bytes} (hnamed : ∀ m ∈ members, m.id ≠ [])
    (h : pair.2 = [] ∨ pair.1 = []) : pairWeight message members pair = 0 := by
  unfold pairWeight
  cases hfound : members.find? (fun m => decide (m.id = pair.1)) with
  | none => rfl
  | some m =>
    rcases h with hsig | hid
    · rw [Option.map_some, hsig, recoversTo_nil]
      rfl
    · have hname := List.find?_some hfound
      exact absurd ((of_decide_eq_true hname).trans hid) (hnamed m (List.mem_of_find?_eq_some hfound))

/-- The loop over the signature map adds up the weight of the members that signed, each once, and
never overflows where the weights of all members do not. -/
theorem countSignatures_eq {pairs : List (Bytes × Bytes)} (hmembers : (members.map Member.id).Nodup)
    (hnamed : ∀ m ∈ members, m.id ≠ []) (hids : (pairs.map Prod.fst).Nodup) {good : Nat} (empty : Bool)
    (hfits : good + pickWeight Member.weight (signedBy message pairs) members < 2 ^ 64) (s : Session ρ) :
    ∃ s', (countSignatures S message members ((pairValues pairs).map itemOf) good empty :
        Run (Session ρ) (Error ε) (Nat × Bool)) s =
      (.ok (good + pickWeight Member.weight (signedBy message pairs) members,
        empty || pairs.any fun pair => decide (pair.2 = [] ∨ pair.1 = [])), s') := by
  induction pairs generalizing good empty s with
  | nil =>
    have hzero : pickWeight Member.weight (signedBy message []) members = 0 :=
      pickWeight_eq_zero fun _ _ => rfl
    refine ⟨s, ?_⟩
    rw [hzero, List.any_nil, Bool.or_false]
    rfl
  | cons pair rest ih =>
    rw [List.map_cons, List.nodup_cons] at hids
    have hadds := pickWeight_signedBy_cons message hmembers hids.1
    rw [hadds] at hfits
    rw [hadds, List.any_cons]
    have hitems : (pairValues (pair :: rest)).map itemOf =
        itemOf (.text pair.1) :: itemOf (.bytes pair.2) :: (pairValues rest).map itemOf := rfl
    have hid : (itemOf (.text pair.1)).data = pair.1 := rfl
    have hsig : (itemOf (.bytes pair.2)).data = pair.2 := rfl
    rw [hitems, countSignatures, Run.bind_apply_ok (Run.modify_apply _ _), hid, hsig]
    by_cases hempty : pair.2 = [] ∨ pair.1 = []
    · have hzero := pairWeight_eq_zero message hnamed hempty
      rw [if_pos hempty, decide_eq_true hempty, hzero, Nat.zero_add, Bool.true_or, Bool.or_true]
      rw [hzero, Nat.zero_add] at hfits
      exact ih hids.2 _ hfits _
    · rw [if_neg hempty, decide_eq_false hempty, Bool.false_or]
      unfold pairWeight at hfits ⊢
      cases hfound : members.find? (fun m => decide (m.id = pair.1)) with
      | none =>
        rw [hfound, Option.map_none, Option.getD_none, Nat.zero_add] at hfits
        rw [Option.map_none, Option.getD_none, Nat.zero_add]
        exact ih hids.2 _ hfits _
      | some m =>
        rw [hfound, Option.map_some, Option.getD_some] at hfits
        rw [Option.map_some, Option.getD_some]
        dsimp only
        by_cases hrecovers : recoversTo S message pair.2 m.key = true
        · rw [if_pos hrecovers] at hfits ⊢
          rw [if_pos hrecovers]
          have hsum : (Res.u64 (good + m.weight) : Res (Error ε) Nat) = .ok (good + m.weight) :=
            Res.u64_eq_ok.mpr ⟨by omega, rfl⟩
          rw [Run.bind_apply_ok (Run.lift_eq_ok.mpr ⟨hsum, rfl⟩), ← Nat.add_assoc]
          exact ih hids.2 _ (by omega) _
        · rw [if_neg hrecovers] at hfits ⊢
          rw [if_neg hrecovers, Nat.zero_add]
          rw [Nat.zero_add] at hfits
          exact ih hids.2 _ hfits _

end Count

/-! ## The verdict -/

/-- The message the claim's seal signs: the seal with a null signature map. -/
def Claim.message (H : Bytes → Bytes32) (c : Claim) : Bytes32 := H (c.unsigned ++ [0xf6])

/-- The member has a valid signature under the claim's seal. -/
def Claim.signer {S : Secp256k1} (H : Bytes → Bytes32) (c : Claim) (m : Member S) : Bool :=
  signedBy (c.message H) c.signatures m

/-- The weight of the members with a valid signature under the claim's seal. -/
def Claim.signedWeight {S : Secp256k1} (H : Bytes → Bytes32) (c : Claim) (e : Entry S) : Nat :=
  pickWeight Member.weight (c.signer H) e.members

/-- The quorum condition: signatures, none of them empty or without a name, by more than two
thirds of the weight. -/
def Claim.Backed {S : Secp256k1} (H : Bytes → Bytes32) (c : Claim) (e : Entry S) : Prop :=
  c.signatures ≠ [] ∧ (∀ pair ∈ c.signatures, pair.1 ≠ [] ∧ pair.2 ≠ []) ∧
    2 * e.total < 3 * c.signedWeight H e

variable {ρ ε : Type} {S : Secp256k1} {H : Bytes → Bytes32} {c : Claim} {e : Entry S}

theorem Entry.Sound.nodup_ids (h : e.Sound) : (e.members.map Member.id).Nodup :=
  h.roll.ids.imp fun {a b} (hlt : a < b) (heq : a = b) => List.lt_irrefl b (heq ▸ hlt)

theorem Entry.Sound.pickWeight_le (h : e.Sound) (p : Member S → Bool) :
    pickWeight Member.weight p e.members ≤ e.total := by
  rw [← h.roll.sum_eq]
  exact pickWeight_le_sum

theorem quorumReached_eq (h : e.Sound) {good : Nat} :
    (quorumReached good e.total : Res (Error ε) Bool) = .ok (decide (2 * e.total < 3 * good)) := by
  have hpos := h.pos
  have hless : (Res.sub e.total 1 : Res (Error ε) Nat) = .ok (e.total - 1) :=
    Res.sub_eq_ok.mpr ⟨by omega, rfl⟩
  have hneed : (Res.sub e.total ((e.total - 1) / 3) : Res (Error ε) Nat) =
      .ok (e.total - (e.total - 1) / 3) := Res.sub_eq_ok.mpr ⟨by omega, rfl⟩
  simp only [quorumReached, Res.bind_eq_ok, Res.pure_eq_ok]
  refine ⟨_, hless, _, hneed, ?_⟩
  rw [decide_eq_decide.mpr (two_thirds_iff hpos)]

/-- The quorum of a parsed claim under a stored entry is its quorum condition, from every session. -/
theorem quorum_eq (hc : c.Sealed) (he : e.Sound) (s : Session ρ) :
    ∃ verdict s', (quorum H S c e : Run (Session ρ) (Error ε) Bool) s = (.ok verdict, s') ∧
      (verdict = true ↔ c.Backed H e) := by
  unfold quorum
  split
  next hempty =>
    refine ⟨false, s, rfl, ?_⟩
    have hnone := hc.empty.mp hempty
    simp [Claim.Backed, hnone]
  next hsome =>
    have hsome' : c.signatures ≠ [] := fun h => hsome (hc.empty.mpr h)
    have hmessage : (sealMessage H c : Res (Error ε) Bytes32) = .ok (c.message H) := by
      simp only [sealMessage, Res.bind_eq_ok, Res.pure_eq_ok]
      exact ⟨_, Res.sub_eq_ok.mpr ⟨hc.within, rfl⟩, rfl⟩
    have hfits : 0 + pickWeight Member.weight (signedBy (c.message H) c.signatures) e.members < 2 ^ 64 := by
      have hle := he.pickWeight_le (signedBy (c.message H) c.signatures)
      have hlt := he.roll.fits
      omega
    obtain ⟨s', hcount⟩ := countSignatures_eq (ε := ε) (c.message H) he.nodup_ids he.roll.named hc.ids
      false hfits s
    rw [Nat.zero_add, Bool.false_or] at hcount
    rw [Run.bind_apply_ok (Run.lift_eq_ok.mpr ⟨hmessage, rfl⟩),
      Run.bind_apply_ok (Run.lift_eq_ok.mpr ⟨hc.kids (Error ε), rfl⟩), Run.bind_apply_ok hcount]
    dsimp only
    have hany : (c.signatures.any fun pair => decide (pair.2 = [] ∨ pair.1 = [])) = true ↔
        ¬ ∀ pair ∈ c.signatures, pair.1 ≠ [] ∧ pair.2 ≠ [] := by
      simp only [List.any_eq_true, decide_eq_true_eq]
      push Not
      refine exists_congr fun pair => and_congr_right fun _ => ?_
      tauto
    split
    next hbad =>
      refine ⟨false, s', rfl, ?_⟩
      have hnot := hany.mp hbad
      exact ⟨fun h => absurd h Bool.false_ne_true, fun h => absurd h.2.1 hnot⟩
    next hgood =>
      refine ⟨_, s', Run.lift_eq_ok.mpr ⟨quorumReached_eq he, rfl⟩, ?_⟩
      have hall := not_not.mp fun h => hgood (hany.mpr h)
      rw [decide_eq_true_eq]
      exact ⟨fun hlt => ⟨hsome', hall, hlt⟩, fun h => h.2.2⟩

end Ureth.Source.B1
