import Ureth.Source.B1.EvaluateSpec
import Ureth.Source.B2.SemanticsSpec
import Ureth.Source.Bridge.AbiSpec
import Ureth.Source.Bridge.Compose

/-!
# The anchor table and its batch

What the plan and the scans of the anchors establish, that the claims of the batch
request are the anchors one by one, and that an accepted claim's input record opens.
The request is read back by the certificate kernel's own parser, and the opened
record by the token kernel's stricter one.
-/

namespace Ureth.Source.Bridge
open Ureth.Foundation
open Ureth.Foundation.Cbor (Value)
open Ureth.Source.B1.Cbor (usizeMax Scannable)

/-! ## The plan -/

/-- Both kernels read the same depth off a canonical shard ID. -/
theorem b1_shardDepth {ε : Type} {shard : Bytes} {d : Nat}
    (h : (shardDepth shard : Res ε (Option Nat)) = .ok (some d)) : B1.shardDepth shard = .ok d := by
  unfold shardDepth at h
  cases hlast : shard.getLast? with
  | none => simp [hlast] at h
  | some last =>
    simp only [hlast] at h
    split at h
    · simp at h
    next hgood =>
      obtain ⟨hmarker, hshort⟩ := not_or.mp hgood
      simp only [Res.bind_eq_ok, Res.sub_eq_ok, Res.pure_eq_ok] at h
      obtain ⟨bits, ⟨hle, rfl⟩, _, ⟨hpos, rfl⟩, hd⟩ := h
      split at hd
      next hsmall =>
        obtain rfl := Option.some.inj hd
        simp only [B1.shardDepth, Res.bind_eq_ok, Res.okOr_eq_ok, Res.refuse_eq_ok, exists_const, Res.sub_eq_ok,
          Res.pure_eq_ok]
        refine ⟨last, hlast, hmarker, _, ⟨by omega, rfl⟩, _, ⟨by omega, rfl⟩, by omega, ?_⟩
        rw [Nat.mul_comm]
      next => simp at hd

/-- An anchor of the policy's partition with a canonical shard ID. -/
def Anchor.Of (partition : Nat) (a : Anchor) : Prop :=
  a.partition = partition ∧ ∃ d, B1.shardDepth a.shard = .ok d

section Plan

variable {H : Bytes → Bytes32}

theorem checkTable_ok {partition : Nat} {anchors : List Anchor} {digests : List Bytes32}
    (h : checkTable H partition anchors digests = .ok ()) :
    (∀ a ∈ anchors, a.Of partition) ∧ (anchors.map fun a => H a.uc).Nodup ∧ ∀ a ∈ anchors, H a.uc ∉ digests := by
  induction anchors generalizing digests with
  | nil => simp
  | cons a rest ih =>
    simp only [checkTable, Res.bind_eq_ok, Res.refuse_eq_ok, exists_const, not_or, not_not] at h
    obtain ⟨depth, hdepth, ⟨hsome, hpartition⟩, hfresh, hrest⟩ := h
    obtain ⟨hall, hnodup, hnew⟩ := ih hrest
    obtain ⟨d, rfl⟩ := Option.ne_none_iff_exists'.mp hsome
    refine ⟨List.forall_mem_cons.mpr ⟨⟨hpartition, d, b1_shardDepth hdepth⟩, hall⟩, ?_, ?_⟩
    · rw [List.map_cons, List.nodup_cons]
      refine ⟨?_, hnodup⟩
      intro hmem
      obtain ⟨b, hb, heq⟩ := List.mem_map.mp hmem
      exact hnew b hb (by simp [heq])
    · refine List.forall_mem_cons.mpr ⟨hfresh, fun b hb hmem => hnew b hb (by simp [hmem])⟩

/-- Indices in order of first use: each is one of the `next` in use, or the next number. -/
inductive FirstUse : Nat → List Nat → Nat → Prop where
  | nil {next : Nat} : FirstUse next [] next
  | again {next j last : Nat} {plan : List Nat} (hj : j < next) (hrest : FirstUse next plan last) :
      FirstUse next (j :: plan) last
  | first {next last : Nat} {plan : List Nat} (hrest : FirstUse (next + 1) plan last) :
      FirstUse next (next :: plan) last

/-- The leaf's state ID lies under the shard prefix of the anchor with the proof's index. -/
def Assigned (anchors : List Anchor) (leaf : B2.Leaf) (p : LeafProof) : Prop :=
  ∃ a, anchors[p.anchorIndex]? = some a ∧ (inShard a.shard leaf.sid : Res Status Bool) = .ok true

theorem planLeaves_ok {anchors : List Anchor} {pairs : List (B2.Leaf × LeafProof)} {next last : Nat} {plan : List Nat}
    (h : planLeaves anchors pairs next = .ok (plan, last)) :
    plan = pairs.map (fun x => x.2.anchorIndex) ∧ FirstUse next plan last ∧
      ∀ x ∈ pairs, Assigned anchors x.1 x.2 := by
  induction pairs generalizing next plan last with
  | nil =>
    simp only [planLeaves, Except.ok.injEq, Prod.mk.injEq] at h
    obtain ⟨rfl, rfl⟩ := h
    exact ⟨rfl, .nil, by simp⟩
  | cons x rest ih =>
    obtain ⟨leaf, p⟩ := x
    simp only [planLeaves, Res.bind_eq_ok, Res.refuse_eq_ok, exists_const, Res.index_eq_ok, Prod.exists,
      Res.pure_eq_ok, Prod.mk.injEq, not_lt, Bool.not_eq_false] at h
    obtain ⟨-, hle, a, ha, inside, hin, rfl, more, _, hrest, rfl, rfl⟩ := h
    obtain ⟨rfl, huse, hall⟩ := ih hrest
    refine ⟨rfl, ?_, List.forall_mem_cons.mpr ⟨⟨a, ha, hin⟩, hall⟩⟩
    split at huse
    next heq =>
      rw [heq]
      exact .first huse
    next hne => exact .again (by omega) huse

/-- What an accepted plan establishes of the envelope. -/
structure Planned (H : Bytes → Bytes32) (partition : Nat) (env : Envelope) (outcome : B2.Outcome)
    (plan : List Nat) : Prop where
  proofs : env.leafProofs.length = outcome.leaves.length
  few : env.anchors.length ≤ maxAnchors
  table : ∀ a ∈ env.anchors, a.Of partition
  distinct : (env.anchors.map fun a => H a.uc).Nodup
  plan_eq : plan = env.leafProofs.map LeafProof.anchorIndex
  assigned : ∀ x ∈ outcome.leaves.zip env.leafProofs, Assigned env.anchors x.1 x.2
  numbered : FirstUse 0 plan env.anchors.length

theorem planAnchors_ok {partition : Nat} {env : Envelope} {outcome : B2.Outcome} {plan : List Nat}
    (h : planAnchors H partition env outcome = .ok plan) : Planned H partition env outcome plan := by
  simp only [planAnchors, Res.bind_eq_ok, Res.refuse_eq_ok, exists_const, Prod.exists, Res.pure_eq_ok, not_not, not_lt] at h
  obtain ⟨hproofs, hfew, -, _, htable, _, last, hplan, rfl, rfl⟩ := h
  obtain ⟨hall, hdistinct, -⟩ := checkTable_ok htable
  obtain ⟨hindex, huse, hassigned⟩ := planLeaves_ok hplan
  refine ⟨hproofs, hfew, hall, hdistinct, ?_, hassigned, huse⟩
  have hzip : (outcome.leaves.zip env.leafProofs).map Prod.snd = env.leafProofs :=
    List.map_snd_zip (by omega)
  rw [hindex]
  calc (outcome.leaves.zip env.leafProofs).map (fun x => x.2.anchorIndex)
      = ((outcome.leaves.zip env.leafProofs).map Prod.snd).map LeafProof.anchorIndex := by
        rw [List.map_map]
        rfl
    _ = env.leafProofs.map LeafProof.anchorIndex := by rw [hzip]

end Plan

/-! ## The batch request -/

/-- The head of an anchor's claim. -/
def Anchor.head (a : Anchor) : B1.ClaimHead :=
  ⟨a.partition, a.shard, a.shardConfHash, a.expectedStateRoot, a.expectedIrHash⟩

theorem packedClaim_eq (a : Anchor) : packedClaim a = a.head.pack a.uc := rfl

theorem scanAnchor_length {a : Anchor} (h : scanAnchor a = .ok ()) :
    a.uc.length ≤ maxAnchorUcBytes ∧ a.inputRecord.length ≤ maxInputRecordBytes := by
  simp only [scanAnchor, Res.bind_eq_ok, Res.refuse_eq_ok, not_or, not_lt] at h
  obtain ⟨_, hlen, -⟩ := h
  exact hlen

/-- An anchor that packs into a claim of its own. -/
structure Anchor.Packs (a : Anchor) : Prop where
  head : a.head.Valid
  uc : a.uc.length ≤ 24576

theorem Anchor.Of.packs {partition : Nat} {a : Anchor} (h : a.Of partition) (ht : a.Typed)
    (hscan : scanAnchor a = .ok ()) : a.Packs := by
  refine ⟨⟨ht.partition, h.2, ht.shardConfHash, ht.expectedStateRoot, ht.expectedIrHash⟩, ?_⟩
  have hlen := (scanAnchor_length hscan).1
  simp only [maxAnchorUcBytes] at hlen
  omega

/-- The claim read for an anchor: its own fields, and the certificate of its bytes. -/
def Anchor.ReadAs (a : Anchor) (o : B1.Occurrence) : Prop :=
  o.packed = packedClaim a ∧ ∃ it n uc body, B1.Cbor.one a.uc 0 = .ok (it, n) ∧ it.tagged 7 39001 = .ok uc ∧
    B1.certificateBody uc = .ok body ∧ o.parsed = a.head.parsed uc body

/-- Claims in a row that are anchors in a row are the anchors one by one: a packed claim shows where it
ends. -/
theorem readAs_of_packedAll {anchors : List Anchor} {occurrences : List B1.Occurrence}
    (hpacks : ∀ a ∈ anchors, a.Packs) (hreads : ∀ o ∈ occurrences, o.Reads)
    (hlen : occurrences.length = anchors.length)
    (h : B1.packedAll occurrences = anchors.flatMap packedClaim) :
    List.Forall₂ Anchor.ReadAs anchors occurrences := by
  induction anchors generalizing occurrences with
  | nil =>
    rw [List.eq_nil_of_length_eq_zero hlen]
    exact .nil
  | cons a rest ih =>
    obtain ⟨o, more, rfl⟩ := List.exists_cons_of_length_eq_add_one hlen
    rw [List.forall_mem_cons] at hpacks hreads
    obtain ⟨hpack, hpacks⟩ := hpacks
    obtain ⟨hread, hreads⟩ := hreads
    rw [B1.packedAll, List.flatMap_cons, List.flatMap_cons, packedClaim_eq] at h
    have hparse : B1.parseClaim (o.packed ++ more.flatMap B1.Occurrence.packed) 0 =
        .ok (o.parsed, more.flatMap B1.Occurrence.packed, 0 + o.items) :=
      B1.parseClaim_append.mpr ⟨o.items, hread.parse, rfl, by simpa using hread.items_le⟩
    rw [h] at hparse
    obtain ⟨hrest, it, uc, body, hone, huc, hbody, hparsed⟩ := (B1.parseClaim_pack hpack.head hpack.uc).mp hparse
    rw [← hrest] at h
    refine .cons ⟨List.append_cancel_right h, it, _, uc, body, hone, huc, hbody, hparsed⟩ ?_
    exact ih hpacks hreads (by simpa using hlen) hrest

/-- The claims of the batch request are the anchors. -/
theorem readAs_of_scan {ε : Type} {anchors : List Anchor} (hpacks : ∀ a ∈ anchors, a.Packs)
    (hfew : anchors.length ≤ maxAnchors) {gas : Nat} {s : B1.Scanned}
    (h : (B1.scan (batchRequest anchors) gas .composed : Res (B1.Error ε) B1.Scanned) = .ok s) :
    List.Forall₂ Anchor.ReadAs anchors s.occurrences ∧ ∀ o ∈ s.occurrences, o.Reads := by
  obtain ⟨hrequest, hacc, -⟩ := (B1.scan_iff B1.Limits.composed_word).mp h
  have hcap : s.occurrences.length ≤ 65535 := hacc.few
  simp only [maxAnchors] at hfew
  rw [batchRequest, B1.request, List.append_assoc, List.append_assoc, List.append_cancel_left_eq] at hrequest
  obtain ⟨hcount, hbody⟩ := List.append_inj hrequest (by rw [beBytes_length, beBytes_length])
  have hlen := congrArg beNat hcount
  rw [beNat_beBytes, beNat_beBytes, Nat.mod_eq_of_lt (by omega), Nat.mod_eq_of_lt (by omega)] at hlen
  exact ⟨readAs_of_packedAll hpacks hacc.reads hlen.symm hbody.symm, hacc.reads⟩

/-! ## The input record -/

/-- A value without parts: an integer, a byte string or null. -/
def Atom (t : Value) : Prop := (∃ n, t = .uint n) ∨ (∃ b, t = .bytes b) ∨ t = .null

theorem Atom.count {t : Value} (h : Atom t) : t.count = 1 := by
  rcases h with ⟨n, rfl⟩ | ⟨b, rfl⟩ | rfl <;> simp [Value.count]

theorem countAll_atoms {ts : List Value} (h : ∀ t ∈ ts, Atom t) : Value.countAll ts = ts.length := by
  induction ts with
  | nil => simp
  | cons t ts ih =>
    rw [List.forall_mem_cons] at h
    rw [Value.countAll_cons, h.1.count, ih h.2, List.length_cons, add_comm]

theorem atoms_plain {ts : List Value} (h : ∀ t ∈ ts, Atom t) :
    Value.All (fun u => u.major ≠ 3 ∧ u.major ≠ 5) (.array ts) := by
  refine (Value.all_iff _).mpr ⟨by simp, fun u hu => ?_⟩
  rcases h u hu with ⟨n, rfl⟩ | ⟨b, rfl⟩ | rfl <;> simp [Value.All]

/-- The token kernel reads what the certificate kernel has read, if it holds no text and no map. -/
theorem one_plain {t : Value} (ht : Scannable t) (hplain : Value.All (fun u => u.major ≠ 3 ∧ u.major ≠ 5) t)
    (hfew : t.count ≤ B2.Cbor.Items.max) :
    B2.Cbor.one t.encode .default = .ok (B2.Cbor.itemOf t) := by
  refine (B2.Cbor.one_eq_ok B2.items_default_word).mpr ⟨t, ⟨ht.shallow, ?_⟩, rfl, rfl, hfew⟩
  exact ((Value.all_and _).mpr ⟨ht.fits, hplain⟩).imp fun u hu => ⟨hu.1, fun _ => hu.2⟩

section Record

variable {t : Value} {ir : FieldList B1.Cbor.Item 10}

/-- The fields of an input record that the certificate kernel has checked. -/
structure RecordFields (ir : FieldList B1.Cbor.Item 10) : Prop where
  uints : ∀ v ∈ [ir[1], ir[2], ir[6], ir[8]], ∃ n, v.uint usizeMax = .ok n
  hashes : ∀ v ∈ [ir[3], ir[7], ir[9]], B1.nullableHash v = .ok ()
  state : ∃ b, ir[4].bytes 32 = .ok b
  summary : ir[5].null = true ∨ ∃ b, ir[5].blob 2 0 256 = .ok b

theorem inputRecord_ok {it : B1.Cbor.Item} (h : B1.inputRecord it = .ok ir) :
    it.tagged 10 39002 = .ok ir ∧ RecordFields ir := by
  simp only [B1.inputRecord, Res.bind_eq_ok, Res.each_eq_ok, Res.pure_eq_ok] at h
  obtain ⟨v, hv, _, huints, _, hhashes, state, hstate, h⟩ := h
  have hfields : v = ir ∧ (v[5].null = true ∨ ∃ b, v[5].blob 2 0 256 = .ok b) := by
    split at h
    next hnull => exact ⟨Except.ok.inj h, .inl hnull⟩
    next =>
      rw [Res.bind_eq_ok] at h
      obtain ⟨b, hb, h⟩ := h
      exact ⟨Except.ok.inj h, .inr ⟨b, hb⟩⟩
  obtain ⟨rfl, hsummary⟩ := hfields
  exact ⟨hv, fun w hw => (huints w hw).imp fun n hn => hn.1, hhashes, ⟨state, hstate⟩, hsummary⟩

/-- A field of the record as both kernels read it. -/
def SameField (ir : FieldList B1.Cbor.Item 10) (k : FieldList B2.Cbor.Item 10) (ts : List Value) : Prop :=
  ∀ i, (hi : i < 10) → ∃ u, ts[i]? = some u ∧ ir[i] = B1.Cbor.itemOf u ∧ k[i] = B2.Cbor.itemOf u

theorem sameField {k : FieldList B2.Cbor.Item 10} {ts : List Value} (hir : ir.toList = ts.map B1.Cbor.itemOf)
    (hk : k.toList = ts.map B2.Cbor.itemOf) : SameField ir k ts := by
  intro i hi
  have h1 := FieldList.getElem_of_toList hir i hi
  have h2 := FieldList.getElem_of_toList hk i hi
  rw [List.getElem?_map] at h1 h2
  obtain ⟨u, hu, hu1⟩ := Option.map_eq_some_iff.mp h1
  rw [hu, Option.map_some, Option.some.injEq] at h2
  exact ⟨u, hu, hu1.symm, h2.symm⟩

theorem atom_of_uint {u : Value} {max n : Nat} (h : (B1.Cbor.itemOf u).uint max = .ok n) : Atom u :=
  .inl ⟨n, (B1.Cbor.uint_itemOf.mp h).1⟩

theorem nullableHash_itemOf {u : Value} (h : B1.nullableHash (B1.Cbor.itemOf u) = .ok ()) :
    u = .null ∨ ∃ b, u = .bytes b ∧ b.length = 32 := by
  unfold B1.nullableHash at h
  split at h
  next hnull => exact .inl (B1.Cbor.null_itemOf.mp hnull)
  next =>
    simp only [Res.bind_eq_ok, Res.pure_eq_ok, and_true] at h
    obtain ⟨b, hb⟩ := h
    exact .inr ⟨b, B1.Cbor.bytes_itemOf.mp hb⟩

namespace SameField

variable {k : FieldList B2.Cbor.Item 10} {ts : List Value}

theorem uint (h : SameField ir k ts) (i : Nat) (hi : i < 10) (hn : ∃ n, ir[i].uint usizeMax = .ok n) :
    ∃ n, k[i].uint usizeMax = .ok n := by
  obtain ⟨n, hn⟩ := hn
  obtain ⟨u, -, h1, h2⟩ := h i hi
  rw [h1] at hn
  rw [h2]
  exact ⟨n, B2.Cbor.uint_itemOf.mpr (B1.Cbor.uint_itemOf.mp hn)⟩

theorem hash (h : SameField ir k ts) (i : Nat) (hi : i < 10) (hn : B1.nullableHash ir[i] = .ok ()) :
    irHash k[i] = .ok () := by
  obtain ⟨u, -, h1, h2⟩ := h i hi
  rw [h1] at hn
  rw [h2]
  rcases nullableHash_itemOf hn with rfl | ⟨b, rfl, hb⟩
  · rfl
  · have hbytes : (B2.Cbor.itemOf (.bytes b)).bytes 32 = .ok b := B2.Cbor.bytes_itemOf.mpr ⟨rfl, hb⟩
    simp [irHash, hbytes]

theorem summary (h : SameField ir k ts) (hs : ir[5].null = true ∨ ∃ b, ir[5].blob 2 0 256 = .ok b) :
    (if k[5].null then .ok () else do
      let _ ← k[5].blob maxSummaryBytes
      return () : Res B2.Error Unit) = .ok () := by
  obtain ⟨u, -, h1, h2⟩ := h 5 (by omega)
  rw [h1] at hs
  rw [h2]
  rcases hs with hnull | ⟨b, hb⟩
  · rw [B1.Cbor.null_itemOf.mp hnull]
    rfl
  · obtain ⟨rfl, -, hle⟩ := B1.Cbor.blob2_itemOf.mp hb
    have hblob : (B2.Cbor.itemOf (.bytes b)).blob maxSummaryBytes = .ok b := B2.Cbor.blob_itemOf.mpr ⟨rfl, hle⟩
    simp [hblob]

end SameField

/-- Every field of a checked record is an atom. -/
theorem RecordFields.atoms {k : FieldList B2.Cbor.Item 10} {ts : List Value} (h : RecordFields ir)
    (hsame : SameField ir k ts) (hhead : ts.head? = some (.uint 1)) (hlen : ts.length = 10) : ∀ u ∈ ts, Atom u := by
  intro u hu
  obtain ⟨i, hi, rfl⟩ := List.getElem_of_mem hu
  rw [hlen] at hi
  obtain ⟨v, hv, hir, -⟩ := hsame i hi
  rw [List.getElem?_eq_getElem (by omega), Option.some.injEq] at hv
  rw [hv]
  have huint : ∀ w ∈ [ir[1], ir[2], ir[6], ir[8]], w = B1.Cbor.itemOf v → Atom v := by
    rintro w hw rfl
    obtain ⟨n, hn⟩ := h.uints _ hw
    exact atom_of_uint hn
  have hhash : ∀ w ∈ [ir[3], ir[7], ir[9]], w = B1.Cbor.itemOf v → Atom v := by
    rintro w hw rfl
    rcases nullableHash_itemOf (h.hashes _ hw) with rfl | ⟨b, rfl, -⟩
    · exact .inr (.inr rfl)
    · exact .inr (.inl ⟨b, rfl⟩)
  interval_cases i
  · rw [List.head?_eq_getElem?, List.getElem?_eq_getElem (by omega), Option.some.injEq, hv] at hhead
    exact .inl ⟨1, hhead⟩
  · exact huint _ (by simp) hir
  · exact huint _ (by simp) hir
  · exact hhash _ (by simp) hir
  · obtain ⟨b, hb⟩ := h.state
    rw [hir] at hb
    exact .inr (.inl ⟨b, (B1.Cbor.bytes_itemOf.mp hb).1⟩)
  · rcases h.summary with hnull | ⟨b, hb⟩
    · rw [hir] at hnull
      exact .inr (.inr (B1.Cbor.null_itemOf.mp hnull))
    · rw [hir] at hb
      exact .inr (.inl ⟨b, (B1.Cbor.blob2_itemOf.mp hb).1⟩)
  · exact huint _ (by simp) hir
  · exact hhash _ (by simp) hir
  · exact huint _ (by simp) hir
  · exact hhash _ (by simp) hir

/-- The bridge reads the timestamp and the state hash off a record the certificate kernel has checked. -/
theorem irFields_of_inputRecord (ht : Scannable t) (h : B1.inputRecord (B1.Cbor.itemOf t) = .ok ir) :
    irFields t.encode = .ok (ir[6].arg, ir[4].data) := by
  obtain ⟨htagged, hfields⟩ := inputRecord_ok h
  obtain ⟨ts, rfl, hlen, hir, hhead⟩ := (B1.Cbor.tagged_itemOf ht).mp htagged
  have hinner : Scannable (.array ts) := ht.kid (by simp)
  obtain ⟨k, hk⟩ : ∃ k : FieldList B2.Cbor.Item 10, k.toList = ts.map B2.Cbor.itemOf :=
    ⟨⟨ts.map B2.Cbor.itemOf, by rw [List.length_map, hlen]⟩, rfl⟩
  have hsame := sameField hir hk
  have hatoms := hfields.atoms hsame hhead hlen
  have hplain := atoms_plain hatoms
  have hcount : (Value.array ts).count = 11 := by simp [Value.count, countAll_atoms hatoms, hlen]
  have hone : B2.Cbor.one (Value.tag 39002 (.array ts)).encode .default =
      .ok (B2.Cbor.itemOf (.tag 39002 (.array ts))) := by
    refine one_plain ht ((Value.all_iff _).mpr ⟨by simp, by simpa using hplain⟩) ?_
    simp only [Value.count, B2.Cbor.Items.max] at hcount ⊢
    omega
  have hone' : B2.Cbor.one (B2.Cbor.itemOf (.tag 39002 (.array ts))).data .default =
      .ok (B2.Cbor.itemOf (.array ts)) := by
    refine one_plain hinner hplain ?_
    rw [hcount]
    decide
  have harray : (B2.Cbor.itemOf (.array ts)).array 10 = .ok k :=
    (B2.Cbor.array_itemOf hinner).mpr ⟨ts, rfl, hlen, hk⟩
  obtain ⟨u0, hu0, -, hk0⟩ := hsame 0 (by omega)
  rw [← List.head?_eq_getElem?, hhead] at hu0
  obtain rfl := Option.some.inj hu0
  have hversion : k[0].uint usizeMax = .ok 1 := by
    rw [hk0]
    exact B2.Cbor.uint_itemOf.mpr ⟨rfl, by decide⟩
  obtain ⟨u6, -, hir6, hk6⟩ := hsame 6 (by omega)
  have htime : k[6].arg = ir[6].arg := by
    rw [hir6, hk6]
    rfl
  obtain ⟨b, hb⟩ := hfields.state
  obtain ⟨u4, -, hir4, hk4⟩ := hsame 4 (by omega)
  rw [hir4] at hb
  obtain ⟨rfl, hb32⟩ := B1.Cbor.bytes_itemOf.mp hb
  have hstate : k[4].bytes 32 = .ok ir[4].data := by
    rw [hk4, hir4]
    exact B2.Cbor.bytes_itemOf.mpr ⟨rfl, hb32⟩
  have hfour : ∀ v ∈ [k[1], k[2], k[6], k[8]], ∃ n, v.uint usizeMax = .ok n := by
    have hall := hfields.uints
    simp only [List.forall_mem_cons, List.not_mem_nil, false_implies, implies_true, and_true] at hall ⊢
    exact ⟨hsame.uint 1 (by omega) hall.1, hsame.uint 2 (by omega) hall.2.1, hsame.uint 6 (by omega) hall.2.2.1,
      hsame.uint 8 (by omega) hall.2.2.2⟩
  have hthree : ∀ v ∈ [k[3], k[7], k[9]], irHash v = .ok () := by
    have hall := hfields.hashes
    simp only [List.forall_mem_cons, List.not_mem_nil, false_implies, implies_true, and_true] at hall ⊢
    exact ⟨hsame.hash 3 (by omega) hall.1, hsame.hash 7 (by omega) hall.2.1, hsame.hash 9 (by omega) hall.2.2⟩
  simp only [irFields, Res.bind_eq_ok, Res.refuse_eq_ok, exists_const, Res.each_eq_ok, Res.pure_eq_ok]
  refine ⟨_, hone, by simp, _, hone', k, harray, 1, hversion, by simp, ?_, hthree, _, hstate,
    (), hsame.summary hfields.summary, by rw [htime]⟩
  intro v hv
  obtain ⟨n, hn⟩ := hfour v hv
  exact ⟨n, hn, trivial⟩

end Record

/-- The record of an accepted claim opens its anchor. -/
theorem irFields_of_folds {ε : Type} {H : Bytes → Bytes32} {a : Anchor} {o : B1.Occurrence} (hread : a.ReadAs o)
    (hreads : o.Reads) (hfold : (B1.folds H o.claim : Res ε Bool) = .ok true) :
    (H o.claim.ir.raw).val = a.expectedIrHash ∧
      ∃ time, irFields o.claim.ir.raw = .ok (time, a.expectedStateRoot) := by
  obtain ⟨-, it, n, uc, body, hone, huc, hbody, hparsed⟩ := hread
  have hclaim : o.claim = (a.head.parsed uc body).claim := congrArg B1.Parsed.claim hparsed
  have hformed : o.claim.Formed := (B1.formed_of_parseClaim hreads.parse).1
  obtain ⟨ir, hfolded⟩ := B1.folded_of_folds hformed hfold
  obtain ⟨-, -, -, hstate, hhash⟩ := hfolded.fields
  have hscanned : B1.Cbor.Scanned it := B1.Cbor.scanned_of_oneWith B1.Cbor.maxItems_lt hone
  obtain ⟨t, ht, hitem⟩ := hscanned.tagged huc 1 (by omega)
  have hir : o.claim.ir = uc[1] := by rw [hclaim]; rfl
  have hrecord : B1.inputRecord (B1.Cbor.itemOf t) = .ok body.ir := by
    simp only [B1.certificateBody, Res.bind_eq_ok, Prod.exists, Res.pure_eq_ok] at hbody
    obtain ⟨v, hv, _, -, _, -, _, _, -, _, _, -, _, _, -, _, -, rfl⟩ := hbody
    rw [← hitem]
    exact hv
  have hsame : body.ir = ir := by
    have htagged := (inputRecord_ok hrecord).1
    rw [← hitem, ← hir, hfolded.ir] at htagged
    exact (Except.ok.inj htagged).symm
  rw [hclaim] at hstate hhash
  have hfields := irFields_of_inputRecord ht hrecord
  rw [hsame, hstate] at hfields
  rw [hir, hitem]
  rw [show (a.head.parsed uc body).claim.ir = uc[1] from rfl, hitem] at hhash
  exact ⟨hhash, _, hfields⟩

/-- Opening the anchor of an accepted claim: with a record that is not empty it fails only because the
record is not the one hashed. -/
theorem openAnchor_of_folds {ε : Type} {H : Bytes → Bytes32} {a : Anchor} {o : B1.Occurrence} (hread : a.ReadAs o)
    (hreads : o.Reads) (hfold : (B1.folds H o.claim : Res ε Bool) = .ok true) (hscan : scanAnchor a = .ok ())
    (hinj : H a.inputRecord = H o.claim.ir.raw → a.inputRecord = o.claim.ir.raw) (hne : a.inputRecord ≠ []) :
    (openAnchor H a).FailsOnly (· = .irOpening) := by
  obtain ⟨hhash, time, hfields⟩ := irFields_of_folds hread hreads hfold
  have hlen := (scanAnchor_length hscan).2
  unfold openAnchor
  rw [Res.refuse_of_not (by simp only [hne, false_or, not_lt]; exact hlen), Res.bind_ok]
  refine Res.FailsOnly.bind (Res.failsOnly_refuse rfl) fun _ hopen => ?_
  have hopen := not_not.mp (Res.refuse_eq_ok.mp hopen)
  have hrecord := hinj (Subtype.ext (hopen.trans hhash.symm))
  have hread : (irFields a.inputRecord).mapErr (fun _ => Status.irShape) = .ok (time, a.expectedStateRoot) := by
    rw [hrecord, hfields]
    rfl
  rw [hread, Res.bind_ok]
  dsimp only
  rw [Res.refuse_of_not (by simp), Res.bind_ok]
  trivial

end Ureth.Source.Bridge
