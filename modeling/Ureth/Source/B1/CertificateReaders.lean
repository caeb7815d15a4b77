import Ureth.Source.B1.CborWalk
import Ureth.Source.B1.CertificateSpec

/-!
# The readers of a certificate

One certificate is read by four functions: as part of a claim, by the bridge's scan of an
embedded proof, by the typed decode of an anchor and by the reader of the shard it names.
Each of them scans inner bytes again. A tree that one strict scan accepted is accepted by
every later scan of a part of it, so the readers see the same fields.
-/

namespace Ureth.Source.B1
open Ureth.Foundation
open Ureth.Foundation.Cbor (Value)
open Cbor (Item itemOf Scanned Scannable usizeMax usizeMax_lt)

/-! ## Scans of the parts -/

/-- A tree that the strict scan accepts on a fresh budget. -/
structure Strict (t : Value) : Prop where
  accepted : Cbor.Accepted true true Cbor.maxDepth t
  few : t.count ≤ Cbor.maxItems

theorem Strict.scannable {t : Value} (h : Strict t) : Scannable t :=
  h.accepted.scannable (lt_of_le_of_lt h.few Cbor.maxItems_lt)

theorem count_kid_le {t u : Value} (hu : u ∈ t.kids) : u.count ≤ t.count := by
  have hall : ∀ ts : List Value, u ∈ ts → u.count ≤ Value.countAll ts := by
    intro ts
    induction ts with
    | nil => simp
    | cons v vs ih =>
      intro hmem
      simp only [Value.countAll_cons]
      rcases List.mem_cons.mp hmem with rfl | hmem
      · omega
      · have := ih hmem
        omega
  have := hall _ hu
  rw [Value.count_eq t]
  omega

theorem Strict.kid {t u : Value} (h : Strict t) (hu : u ∈ t.kids) : Strict u := by
  refine ⟨⟨?_, h.accepted.2.kid hu⟩, le_trans (count_kid_le hu) h.few⟩
  exact le_trans (Value.height_kid_lt hu).le h.accepted.1

/-- The strict scan of a part, on a fresh budget. -/
theorem Strict.one {t : Value} (h : Strict t) : Cbor.one t.encode 0 = .ok (itemOf t, t.count) :=
  (Cbor.oneWith_eq_ok Cbor.maxItems_lt).mpr ⟨t, h.accepted, rfl, rfl, by simp, h.few⟩

theorem strict_of_one {raw : Bytes} {tokens tokens' : Nat} {it : Item}
    (h : Cbor.one raw tokens = .ok (it, tokens')) : ∃ t, Strict t ∧ raw = t.encode ∧ it = itemOf t := by
  obtain ⟨t, hacc, hraw, hit, htok, hcap⟩ := (Cbor.oneWith_eq_ok Cbor.maxItems_lt).mp h
  exact ⟨t, ⟨hacc, by omega⟩, hraw, hit⟩

/-- The structural scan of a part. -/
theorem oneLoose_encode_itemOf {t : Value} (h : Scannable t) :
    Cbor.oneLoose t.encode 0 usizeMax = .ok (itemOf t, t.count) := by
  refine (Cbor.oneWith_eq_ok usizeMax_lt).mpr ⟨t, h.accepted, rfl, rfl, by simp, ?_⟩
  have := h.few
  simp only [usizeMax]
  omega

/-- The field of a record at a position below its length, as a tree of the record. -/
theorem field_itemOf {n : Nat} {v : FieldList Item n} {ts : List Value} (h : v.toList = ts.map itemOf)
    (i : Nat) (hi : i < n) : ∃ u ∈ ts, v[i] = itemOf u := by
  have hget := FieldList.getElem_of_toList h i hi
  rw [List.getElem?_map] at hget
  obtain ⟨u, hu, hv⟩ := Option.map_eq_some_iff.mp hget
  exact ⟨u, List.mem_of_getElem? hu, hv.symm⟩

/-- The fields of a strictly scanned record are strictly scanned. -/
theorem Strict.field {t : Value} (h : Strict t) {n tag : Nat} [NeZero n] {v : FieldList Item n}
    (hv : (itemOf t).tagged n tag = .ok v) (i : Nat) (hi : i < n) : ∃ u, Strict u ∧ v[i] = itemOf u := by
  obtain ⟨ts, rfl, -, hts, -⟩ := (Cbor.tagged_itemOf h.scannable).mp hv
  obtain ⟨u, hu, hvi⟩ := field_itemOf hts i hi
  have hinner : Strict (.array ts) := h.kid (show Value.array ts ∈ (Value.tag tag (.array ts)).kids by simp)
  exact ⟨u, hinner.kid hu, hvi⟩

/-! ## What each part of a certificate is -/

theorem major_of_uint {it : Item} {max n : Nat} (h : it.uint max = .ok n) :
    it.major = 0 ∧ it.arg = n ∧ n ≤ max := by
  simp only [Item.uint, Res.bind_eq_ok, Res.refuse_eq_ok, Res.pure_eq_ok, not_or, not_not,
    not_lt, exists_const] at h
  obtain ⟨⟨hmajor, hle⟩, rfl⟩ := h
  exact ⟨hmajor, rfl, hle⟩

theorem major_of_bytes {it : Item} {n : Nat} {b : Bytes} (h : it.bytes n = .ok b) : it.major = 2 := by
  simp only [Item.bytes, Res.bind_eq_ok, Res.refuse_eq_ok, Res.pure_eq_ok, not_or, not_not,
    exists_const] at h
  exact h.1.1

theorem major_of_blob {it : Item} {major min max : Nat} {b : Bytes} (h : it.blob major min max = .ok b) :
    it.major = major ∧ b = it.data := by
  simp only [Item.blob, Res.bind_eq_ok, Res.refuse_eq_ok, Res.pure_eq_ok, not_or, not_not,
    exists_const] at h
  exact ⟨h.1.1, h.2.2.symm⟩

theorem major_of_collection {it : Item} {major max n : Nat} (h : it.collection major max = .ok n) :
    it.null = true ∨ it.major = major := by
  unfold Item.collection at h
  split at h
  next hnull => exact .inl hnull
  next =>
    simp only [Res.bind_eq_ok, Res.refuse_eq_ok, not_not, exists_const] at h
    exact .inr h.1

theorem inputRecord_parts {it : Item} {ir : FieldList Item 10} (h : inputRecord it = .ok ir) :
    it.tagged 10 39002 = .ok ir ∧ (∀ v ∈ [ir[1], ir[2], ir[6], ir[8]], ∃ n, v.uint usizeMax = .ok n) ∧
      (∀ v ∈ [ir[3], ir[7], ir[9]], nullableHash v = .ok ()) ∧ (∃ b, ir[4].bytes 32 = .ok b) ∧
      (ir[5].null = true ∨ ∃ b, ir[5].blob 2 0 256 = .ok b) := by
  simp only [inputRecord, Res.bind_eq_ok, Res.each_eq_ok, Res.pure_eq_ok, and_true] at h
  obtain ⟨ir', htag, _, huints, _, hhashes, b, hb, h⟩ := h
  split at h
  next hnull =>
    obtain rfl : ir' = ir := by simpa using h
    exact ⟨htag, huints, hhashes, ⟨b, hb⟩, .inl hnull⟩
  next =>
    simp only [Res.bind_eq_ok, Res.pure_eq_ok] at h
    obtain ⟨s, hs, rfl⟩ := h
    exact ⟨htag, huints, hhashes, ⟨b, hb⟩, .inr ⟨s, hs⟩⟩

theorem shardCertificate_parts {it : Item} {sc : FieldList Item 3} {n : Nat}
    (h : shardCertificate it = .ok (sc, n)) :
    it.tagged 3 39003 = .ok sc ∧ (∃ b, sc[1].blob 2 1 33 = .ok b) ∧
      (sc[2].null = true ∨ sc[2].major = 4) ∧
      ∃ kids, (sc[2].children : Res Malformed (List Item)) = .ok kids ∧ ∀ k ∈ kids, ∃ b, k.bytes 32 = .ok b := by
  simp only [shardCertificate, Res.bind_eq_ok, Res.each_eq_ok, Res.pure_eq_ok, Prod.mk.injEq,
    and_true] at h
  obtain ⟨sc', htag, b, hb, _, -, _, hcol, kids, hkids, _, hall, rfl, -⟩ := h
  exact ⟨htag, ⟨b, hb⟩, major_of_collection hcol, kids, hkids, hall⟩

theorem treeCertificate_parts {it : Item} {tc : FieldList Item 3} {n : Nat}
    (h : treeCertificate it = .ok (tc, n)) :
    it.tagged 3 39004 = .ok tc ∧ (∃ k, tc[1].uint (2 ^ 32 - 1) = .ok k) ∧
      (tc[2].null = true ∨ tc[2].major = 4) ∧
      ∃ kids, (tc[2].children : Res Malformed (List Item)) = .ok kids ∧ ∀ k ∈ kids, treeStep k = .ok () := by
  simp only [treeCertificate, Res.bind_eq_ok, Res.each_eq_ok, Res.pure_eq_ok,
    Prod.mk.injEq] at h
  obtain ⟨tc', htag, k, hk, _, hcol, kids, hkids, _, hall, rfl, -⟩ := h
  exact ⟨htag, ⟨k, hk⟩, major_of_collection hcol, kids, hkids, hall⟩

theorem unicitySeal_parts {it : Item} {sf : FieldList Item 8} {n : Nat} (h : unicitySeal it = .ok (sf, n)) :
    it.tagged 8 39005 = .ok sf ∧ (∃ k, sf[1].uint (2 ^ 16 - 1) = .ok k) ∧
      (∀ v ∈ [sf[2], sf[3], sf[4]], ∃ k, v.uint usizeMax = .ok k) ∧ (∃ b, sf[5].bytes 32 = .ok b) ∧
      (∃ b, sf[6].bytes 32 = .ok b) ∧ (sf[7].null = true ∨ sf[7].major = 5) ∧
      ∃ kids, (sf[7].children : Res Malformed (List Item)) = .ok kids ∧ signaturePairs kids = .ok () := by
  simp only [unicitySeal, Res.bind_eq_ok, Res.each_eq_ok, Res.pure_eq_ok, Prod.mk.injEq,
    and_true] at h
  obtain ⟨sf', htag, k, hk, _, huints, b, hb, b', hb', _, hcol, kids, hkids, _, hpairs, rfl, -⟩ := h
  exact ⟨htag, ⟨k, hk⟩, huints, ⟨b, hb⟩, ⟨b', hb'⟩, major_of_collection hcol, kids, hkids, hpairs⟩

theorem certificateBody_parts {uc : FieldList Item 7} {body : Body} (h : certificateBody uc = .ok body) :
    inputRecord uc[1] = .ok body.ir ∧ (∃ b, uc[2].bytes 32 = .ok b) ∧ (∃ b, uc[3].bytes 32 = .ok b) ∧
      (∃ n, shardCertificate uc[4] = .ok (body.shardCert, n)) ∧
      (∃ n, treeCertificate uc[5] = .ok (body.treeCert, n)) ∧
      ∃ n, unicitySeal uc[6] = .ok (body.sealFields, n) := by
  simp only [certificateBody, Res.bind_eq_ok, Prod.exists, Res.pure_eq_ok] at h
  obtain ⟨ir, hir, b, hb, b', hb', sc, n, hsc, tc, m, htc, sf, k, hsf, _, -, rfl⟩ := h
  exact ⟨hir, ⟨b, hb⟩, ⟨b', hb'⟩, ⟨n, hsc⟩, ⟨m, htc⟩, ⟨k, hsf⟩⟩

/-! ## The bridge's scan -/

/-- One required part, given the record that the checks of the body read there. -/
theorem requiredPart_eq_ok {uc : FieldList Item 7} {i tag arity req major : Nat} [NeZero arity] {u : Value}
    (hu : Strict u) (huc : uc[i] = itemOf u) {v : FieldList Item arity}
    (hv : uc[i].tagged arity tag = .ok v) (hreq : req < arity) :
    requiredPart uc (i, tag, arity, req, major) = .ok () ↔ v[req].major = major := by
  rw [huc] at hv
  obtain ⟨ts, rfl, hlen, hts, -⟩ := (Cbor.tagged_itemOf hu.scannable).mp hv
  have hinner : Strict (.array ts) := hu.kid (show Value.array ts ∈ (Value.tag tag (.array ts)).kids by simp)
  have hone : Cbor.one (itemOf (.tag tag (.array ts))).data 0 = .ok (itemOf (.array ts), (Value.array ts).count) :=
    hinner.one
  have hkids : ((itemOf (.array ts)).children : Res Malformed (List Item)) = .ok (ts.map itemOf) :=
    Cbor.children_itemOf hinner.scannable (by simp) (by simp)
  have hget := FieldList.getElem_of_toList hts req hreq
  simp only [requiredPart, huc, Res.bind_eq_ok, Res.refuse_eq_ok, hone, Except.ok.injEq, Prod.exists, Prod.mk.injEq]
  constructor
  · rintro ⟨_, -, _, _, ⟨rfl, -⟩, _, -, kids, hk, hmajor⟩
    obtain rfl := Except.ok.inj (hkids.symm.trans hk)
    rw [hget] at hmajor
    simpa using hmajor
  · intro hmajor
    refine ⟨(), by simp, _, _, ⟨rfl, rfl⟩, (), ?_, _, hkids, ?_⟩
    · simp [hlen]
    · rw [hget]
      simp [hmajor]

/-- The values of an accepted signature map are byte strings. -/
theorem oddBytes_of_signaturePairs {kids : List Item} (h : signaturePairs kids = .ok ()) (i : Nat)
    (hi : i % 2 = 0) : oddBytes i kids = .ok () := by
  induction kids using List.twoStepInduction generalizing i with
  | nil => rfl
  | singleton x =>
    simp only [signaturePairs, Res.bind_eq_ok] at h
    obtain ⟨_, -, hfail⟩ := h
    simp at hfail
  | cons_cons x y rest ih _ =>
    simp only [signaturePairs, Res.bind_eq_ok] at h
    obtain ⟨_, -, _, hsig, hrest⟩ := h
    have hmajor := (major_of_blob hsig).1
    simp only [oddBytes, Res.bind_eq_ok, Res.refuse_eq_ok]
    exact ⟨(), by omega, (), by simp [hmajor], ih hrest _ (by omega)⟩

/-- What the SDK codec requires of a certificate beyond the checks of a claim. -/
structure SdkForm (body : Body) : Prop where
  summary : body.ir[5].major = 2
  siblings : body.shardCert[2].major = 4
  steps : body.treeCert[2].major = 4
  signatures : body.sealFields[7].major = 5
  network : body.sealFields[1].arg ≠ 0

/-- The scan of an embedded certificate is the scan of a claim's certificate with the SDK's form. -/
theorem scanCertificate_eq_ok {raw : Bytes} (hraw : raw.length ≤ 24576) :
    scanCertificate raw = .ok () ↔
      ∃ it n uc body, Cbor.one raw 0 = .ok (it, n) ∧ it.tagged 7 39001 = .ok uc ∧
        certificateBody uc = .ok body ∧ SdkForm body := by
  have hmain : ∀ it n uc body, Cbor.one raw 0 = .ok (it, n) → it.tagged 7 39001 = .ok uc →
      certificateBody uc = .ok body → (SdkForm body ↔
        Res.each (requiredPart uc)
          [(1, 39002, 10, 5, 2), (4, 39003, 3, 2, 4), (5, 39004, 3, 2, 4), (6, 39005, 8, 7, 5)] = .ok () ∧
        ∃ sealItem m sf kids, Cbor.one uc[6].data 0 = .ok (sealItem, m) ∧ sealItem.array 8 = .ok sf ∧
          ¬ (sf[1].major ≠ 0 ∨ sf[1].arg = 0 ∨ sf[1].arg > 65535) ∧ (sf[7].children : Res Malformed (List Item)) = .ok kids ∧
          oddBytes 0 kids = .ok ()) := by
    intro it n uc body hone huc hbody
    obtain ⟨t, ht, -, rfl⟩ := strict_of_one hone
    obtain ⟨hir, -, -, ⟨_, hsc⟩, ⟨_, htc⟩, ⟨_, hsf⟩⟩ := certificateBody_parts hbody
    have hir := (inputRecord_parts hir).1
    have hsc := (shardCertificate_parts hsc).1
    have htc := (treeCertificate_parts htc).1
    obtain ⟨hsf, ⟨net, hnet⟩, -, -, -, -, kids, hkids, hpairs⟩ := unicitySeal_parts hsf
    obtain ⟨u1, hu1, hf1⟩ := ht.field huc 1 (by omega)
    obtain ⟨u4, hu4, hf4⟩ := ht.field huc 4 (by omega)
    obtain ⟨u5, hu5, hf5⟩ := ht.field huc 5 (by omega)
    obtain ⟨u6, hu6, hf6⟩ := ht.field huc 6 (by omega)
    have hparts : Res.each (requiredPart uc)
        [(1, 39002, 10, 5, 2), (4, 39003, 3, 2, 4), (5, 39004, 3, 2, 4), (6, 39005, 8, 7, 5)] = .ok () ↔
        body.ir[5].major = 2 ∧ body.shardCert[2].major = 4 ∧ body.treeCert[2].major = 4 ∧
          body.sealFields[7].major = 5 := by
      rw [Res.each_eq_ok]
      simp only [List.mem_cons, List.not_mem_nil, or_false, forall_eq_or_imp, forall_eq]
      rw [requiredPart_eq_ok hu1 hf1 hir (by omega), requiredPart_eq_ok hu4 hf4 hsc (by omega),
        requiredPart_eq_ok hu5 hf5 htc (by omega), requiredPart_eq_ok hu6 hf6 hsf (by omega)]
    have hsf' := hsf
    rw [hf6] at hsf'
    obtain ⟨ts, rfl, hlen, hts, -⟩ := (Cbor.tagged_itemOf hu6.scannable).mp hsf'
    have hinner : Strict (.array ts) :=
      hu6.kid (show Value.array ts ∈ (Value.tag 39005 (.array ts)).kids by simp)
    have hseal : Cbor.one uc[6].data 0 = .ok (itemOf (.array ts), (Value.array ts).count) := by
      rw [hf6]
      exact hinner.one
    have harray : (itemOf (.array ts)).array 8 = .ok body.sealFields :=
      (Cbor.array_itemOf hinner.scannable).mpr ⟨ts, rfl, hlen, hts⟩
    obtain ⟨hzero, harg, hle⟩ := major_of_uint hnet
    rw [hparts]
    constructor
    · intro hform
      refine ⟨⟨hform.summary, hform.siblings, hform.steps, hform.signatures⟩, _, _, _, kids, hseal, harray, ?_,
        hkids, oddBytes_of_signaturePairs hpairs 0 rfl⟩
      have hnonzero := hform.network
      omega
    · rintro ⟨⟨h5, h2, h2', h7⟩, sealItem, m, sf, kids', hseal', harray', hnetwork, -, -⟩
      obtain ⟨rfl, -⟩ : itemOf (.array ts) = sealItem ∧ _ := by simpa using hseal.symm.trans hseal'
      obtain rfl := Except.ok.inj (harray.symm.trans harray')
      exact ⟨h5, h2, h2', h7, fun hzero => hnetwork (.inr (.inl hzero))⟩
  simp only [scanCertificate, Res.bind_eq_ok, Res.refuse_eq_ok, Prod.exists, Res.pure_eq_ok, and_true]
  constructor
  · rintro ⟨_, -, it, n, hone, uc, huc, _, hparts, sealItem, m, hseal, sf, harray, _, hnet, kids, hkids, _, hodd,
      body, hbody⟩
    exact ⟨it, n, uc, body, hone, huc, hbody,
      (hmain it n uc body hone huc hbody).mpr ⟨hparts, sealItem, m, sf, kids, hseal, harray, hnet, hkids, hodd⟩⟩
  · rintro ⟨it, n, uc, body, hone, huc, hbody, hform⟩
    obtain ⟨hparts, sealItem, m, sf, kids, hseal, harray, hnet, hkids, hodd⟩ :=
      (hmain it n uc body hone huc hbody).mp hform
    exact ⟨(), by omega, it, n, hone, uc, huc, (), hparts, sealItem, m, hseal, sf, harray, (), hnet, kids, hkids,
      (), hodd, body, hbody⟩

/-! ## The certificate of a claim -/

/-- The fields of a packed claim before its certificate. -/
structure ClaimHead where
  partition : Nat
  shard : Bytes
  config : Bytes
  state : Bytes
  irHash : Bytes

/-- A claim's own fields: a four-byte partition, a shard ID and three hashes. -/
structure ClaimHead.Valid (h : ClaimHead) : Prop where
  partition : h.partition < 2 ^ 32
  shard : ∃ depth, shardDepth h.shard = .ok depth
  config : h.config.length = 32
  state : h.state.length = 32
  irHash : h.irHash.length = 32

/-- The packed claim of a head and a certificate. -/
def ClaimHead.pack (h : ClaimHead) (raw : Bytes) : Bytes :=
  beBytes 4 h.partition ++ beBytes 2 h.shard.length ++ h.shard ++ h.config ++ h.state ++ h.irHash ++
    beBytes 4 raw.length ++ raw

/-- What is parsed from a head, the fields of its certificate and their scanned parts. -/
def ClaimHead.parsed (h : ClaimHead) (uc : FieldList Item 7) (body : Body) : Parsed where
  claim :=
    { partition := h.partition, shard := h.shard, config := h.config, state := h.state, irHash := h.irHash
      ir := uc[1], tr := uc[2], conf := uc[3]
      shardCert := body.shardCert, treeCert := body.treeCert
      sealItem := uc[6], sealFields := body.sealFields }
  paths := body.paths
  sigs := body.sigs

theorem take_append {v rest : Bytes} {n : Nat} (h : v.length = n) : take n (v ++ rest) = .ok (v, rest) :=
  take_eq_ok.mpr ⟨h, rfl⟩

theorem uint_append {n k : Nat} (h : k < 256 ^ n) (rest : Bytes) : uint n (beBytes n k ++ rest) = .ok (k, rest) :=
  uint_eq_ok.mpr ⟨_, beBytes_length n k, by rw [beNat_beBytes, Nat.mod_eq_of_lt h], rfl⟩

theorem length_of_shardDepth {b : Bytes} {depth : Nat} (h : shardDepth b = .ok depth) : b.length ≤ 33 := by
  simp only [shardDepth, Res.bind_eq_ok, Res.refuse_eq_ok] at h
  obtain ⟨_, -, _, -, _, -, _, -, _, hsmall, -⟩ := h
  omega

/-- A claim is accepted exactly as its certificate is. -/
theorem parseClaim_pack {h : ClaimHead} (hv : h.Valid) {raw : Bytes} (hraw : raw.length ≤ 24576)
    {rest rest' : Bytes} {tokens tokens' : Nat} {p : Parsed} :
    parseClaim (h.pack raw ++ rest) tokens = .ok (p, rest', tokens') ↔
      rest' = rest ∧ ∃ it uc body, Cbor.one raw tokens = .ok (it, tokens') ∧ it.tagged 7 39001 = .ok uc ∧
        certificateBody uc = .ok body ∧ p = h.parsed uc body := by
  obtain ⟨depth, hdepth⟩ := hv.shard
  have hshard := length_of_shardDepth hdepth
  have hpartition := hv.partition
  simp only [parseClaim, ClaimHead.pack, List.append_assoc]
  rw [uint_append (by omega), Res.bind_ok]
  dsimp only
  rw [uint_append (by omega), Res.bind_ok]
  dsimp only
  rw [Res.refuse_of_not (by omega), Res.bind_ok, take_append rfl, Res.bind_ok]
  dsimp only
  rw [hdepth, Res.bind_ok, take_append hv.config, Res.bind_ok]
  dsimp only
  rw [take_append hv.state, Res.bind_ok]
  dsimp only
  rw [take_append hv.irHash, Res.bind_ok]
  dsimp only
  rw [uint_append (by omega), Res.bind_ok]
  dsimp only
  rw [Res.refuse_of_not (by omega), Res.bind_ok, take_append rfl, Res.bind_ok]
  simp only [Res.bind_eq_ok, Prod.exists, Res.pure_eq_ok, Prod.mk.injEq]
  constructor
  · rintro ⟨it, n, hone, uc, huc, body, hbody, rfl, rfl, rfl⟩
    exact ⟨rfl, it, uc, body, hone, huc, hbody, rfl⟩
  · rintro ⟨rfl, it, uc, body, hone, huc, hbody, rfl⟩
    exact ⟨it, tokens', hone, uc, huc, body, hbody, rfl, rfl, rfl⟩

/-! ## The typed decode -/

theorem not_null_of_major {it : Item} (h : it.major ≠ 7) : it.null = false := by
  simp [Item.null, h]

theorem uintOrNull_of_uint {it : Item} {max n : Nat} (h : it.uint max = .ok n) : uintOrNull it max = .ok () := by
  have hmajor := (major_of_uint h).1
  rw [uintOrNull, not_null_of_major (by omega)]
  simp [h]

theorem bytesLike_of_bytes {it : Item} {n : Nat} {b : Bytes} (h : it.bytes n = .ok b) :
    bytesLike it = .ok () := by
  rw [bytesLike, if_pos (.inr (major_of_bytes h))]

theorem bytesLike_of_blob {it : Item} {min max : Nat} {b : Bytes} (h : it.blob 2 min max = .ok b) :
    bytesLike it = .ok () := by
  rw [bytesLike, if_pos (.inr (major_of_blob h).1)]

theorem bytesLike_of_null {it : Item} (h : it.null = true) : bytesLike it = .ok () := by
  rw [bytesLike, if_pos (.inl h)]

theorem bytesLike_of_nullableHash {it : Item} (h : nullableHash it = .ok ()) : bytesLike it = .ok () := by
  unfold nullableHash at h
  split at h
  next hnull => exact bytesLike_of_null hnull
  next =>
    simp only [Res.bind_eq_ok, Res.pure_eq_ok, and_true] at h
    obtain ⟨b, hb⟩ := h
    exact bytesLike_of_bytes hb

/-- The typed decode of a record reads the fields the strict decode reads. -/
theorem typed_of_tagged {it : Item} (h : Scanned it) {n tag : Nat} [NeZero n] {v : FieldList Item n}
    (hv : it.tagged n tag = .ok v) : typed it tag n = .ok v := by
  obtain ⟨t, ht, rfl⟩ := h
  obtain ⟨ts, rfl, hlen, hts, hhead⟩ := (Cbor.tagged_itemOf ht).mp hv
  have hinner := ht.kid (show Value.array ts ∈ (Value.tag tag (.array ts)).kids by simp)
  have hone : Cbor.oneLoose (itemOf (.tag tag (.array ts))).data 0 usizeMax =
      .ok (itemOf (.array ts), (Value.array ts).count) := oneLoose_encode_itemOf hinner
  have hkids : ((itemOf (.array ts)).children : Res Malformed (List Item)) = .ok (ts.map itemOf) :=
    Cbor.children_itemOf hinner (by simp) (by simp)
  have hversion : v[0].uint 1 = .ok 1 := by
    have hget := FieldList.getElem_of_toList hts 0 (NeZero.pos n)
    rw [List.getElem?_map, ← List.head?_eq_getElem?, hhead] at hget
    rw [← (Option.some.inj hget : itemOf (.uint 1) = v[0])]
    exact Cbor.uint_itemOf.mpr ⟨rfl, le_rfl⟩
  have hfields : (if h : (ts.map itemOf).length = n then some (⟨ts.map itemOf, h⟩ : FieldList Item n) else none) =
      some v := by
    rw [dif_pos (by simpa using hlen)]
    exact congrArg some (FieldList.ext hts.symm)
  simp only [typed, Res.bind_eq_ok, Res.refuse_eq_ok, Prod.exists, Res.unwrap_eq_ok, Res.pure_eq_ok]
  refine ⟨(), by simp, _, _, hone, (), ?_, _, hkids, v, hfields, (),
    uintOrNull_of_uint hversion, rfl⟩
  simp [hlen]

/-- A record of the typed decode, on its tree. -/
theorem tree_of_typed {t : Value} (ht : Scannable t) {n tag : Nat} {v : FieldList Item n}
    (hv : typed (itemOf t) tag n = .ok v) : ∃ ts, t = .tag tag (.array ts) ∧ v.toList = ts.map itemOf := by
  simp only [typed, Res.bind_eq_ok, Res.refuse_eq_ok, Prod.exists, Res.unwrap_eq_ok, Res.pure_eq_ok] at hv
  obtain ⟨_, hhead, inner, m, hone, _, hshape, kids, hkids, a, ha, _, -, rfl⟩ := hv
  cases t with
  | tag k u =>
    have hu := ht.kid (show u ∈ (Value.tag k u).kids by simp)
    simp only [Value.major, Value.arg, Cbor.itemOf_major, Cbor.itemOf_arg, not_or, not_not] at hhead
    have hinner : Cbor.oneLoose (itemOf (.tag k u)).data 0 usizeMax = .ok (itemOf u, u.count) :=
      oneLoose_encode_itemOf hu
    rw [hinner, Except.ok.injEq, Prod.mk.injEq] at hone
    obtain ⟨rfl, -⟩ := hone
    cases u with
    | array ts =>
      rw [Cbor.children_itemOf hu (by simp) (by simp)] at hkids
      obtain rfl := Except.ok.inj hkids
      refine ⟨ts, by rw [hhead.2], ?_⟩
      split at ha
      · obtain rfl := Option.some.inj ha
        rfl
      · simp at ha
    | uint _ => simp at hshape
    | bytes _ => simp at hshape
    | text _ => simp at hshape
    | map _ => simp at hshape
    | tag _ _ => simp at hshape
    | null => simp at hshape
  | uint _ => simp at hhead
  | bytes _ => simp at hhead
  | text _ => simp at hhead
  | map _ => simp at hhead
  | array _ => simp at hhead
  | null => simp at hhead

theorem listOfBytes_of_hashes {it : Item} (hkind : it.null = true ∨ it.major = 4) {kids : List Item}
    (hkids : (it.children : Res Malformed (List Item)) = .ok kids) (hall : ∀ k ∈ kids, ∃ b, k.bytes 32 = .ok b) :
    listOfBytes it = .ok () := by
  unfold listOfBytes
  split
  next => rfl
  next hnull =>
    have hmajor : it.major = 4 := hkind.resolve_left hnull
    rw [Res.refuse_of_not (by omega), Res.bind_ok, hkids, Res.bind_ok, Res.each_eq_ok]
    intro k hk
    obtain ⟨b, hb⟩ := hall k hk
    exact bytesLike_of_bytes hb

theorem typedStep_of_treeStep {step : Item} (h : treeStep step = .ok ()) : typedStep step = .ok () := by
  simp only [treeStep, Res.bind_eq_ok, Res.pure_eq_ok, and_true] at h
  obtain ⟨pair, hpair, key, hkey, b, hb⟩ := h
  rw [typedStep, hpair, Res.bind_ok, uintOrNull_of_uint hkey, Res.bind_ok, bytesLike_of_bytes hb]

theorem typedSteps_of_steps {it : Item} (hkind : it.null = true ∨ it.major = 4) {kids : List Item}
    (hkids : (it.children : Res Malformed (List Item)) = .ok kids) (hall : ∀ k ∈ kids, treeStep k = .ok ()) :
    typedSteps it = .ok () := by
  unfold typedSteps
  split
  next => rfl
  next hnull =>
    have hmajor : it.major = 4 := hkind.resolve_left hnull
    rw [Res.refuse_of_not (by omega), Res.bind_ok, hkids, Res.bind_ok, Res.each_eq_ok]
    exact fun k hk => typedStep_of_treeStep (hall k hk)

/-- A name of at most 128 bytes is a name. -/
theorem blob_widen {it : Item} {major min max max' : Nat} {b : Bytes} (h : it.blob major min max = .ok b)
    (hle : max ≤ max') : it.blob major min max' = .ok b := by
  simp only [Item.blob, Res.bind_eq_ok, Res.refuse_eq_ok, Res.pure_eq_ok] at h ⊢
  obtain ⟨_, hmajor, _, hmax, rfl⟩ := h
  exact ⟨(), hmajor, (), by omega, rfl⟩

theorem typedPairs_of_signaturePairs {kids : List Item} (h : signaturePairs kids = .ok ()) :
    typedPairs kids = .ok () := by
  induction kids using List.twoStepInduction with
  | nil => rfl
  | singleton x =>
    simp only [signaturePairs, Res.bind_eq_ok] at h
    obtain ⟨_, -, hfail⟩ := h
    simp at hfail
  | cons_cons x y rest ih _ =>
    simp only [signaturePairs, Res.bind_eq_ok] at h
    obtain ⟨name, hname, _, hsig, hrest⟩ := h
    have hwide : x.blob 3 0 usizeMax = .ok name := blob_widen hname (by unfold usizeMax; omega)
    rw [typedPairs, hwide, Res.bind_ok, bytesLike_of_blob hsig, Res.bind_ok, ih hrest]

theorem typedSignatures_of_pairs {it : Item} (hkind : it.null = true ∨ it.major = 5) {kids : List Item}
    (hkids : (it.children : Res Malformed (List Item)) = .ok kids) (hpairs : signaturePairs kids = .ok ()) :
    typedSignatures it = .ok () := by
  unfold typedSignatures
  split
  next => rfl
  next hnull =>
    have hmajor : it.major = 5 := hkind.resolve_left hnull
    rw [Res.refuse_of_not (by omega), Res.bind_ok, hkids, Res.bind_ok, typedPairs_of_signaturePairs hpairs]

/-- The version of a versioned record. -/
theorem version_of_tagged {it : Item} {n tag : Nat} {v : FieldList Item n} (h : it.tagged n tag = .ok v) :
    v[0].uint usizeMax = .ok 1 := by
  simp only [Item.tagged, Res.bind_eq_ok, Res.refuse_eq_ok, not_not, Res.pure_eq_ok] at h
  obtain ⟨_, -, _, -, a, -, version, hversion, _, rfl, rfl⟩ := h
  exact hversion

theorem uint_narrow {it : Item} {max max' n : Nat} (h : it.uint max = .ok n) (hle : n ≤ max') :
    it.uint max' = .ok n := by
  obtain ⟨hmajor, harg, -⟩ := major_of_uint h
  rw [Item.uint, Res.refuse_of_not (by omega), Res.bind_ok, harg]
  rfl

/-- A certificate that a claim may carry has the typed shape. -/
theorem certificateShape_of_body {raw : Bytes} {tokens tokens' : Nat} {it : Item} {uc : FieldList Item 7}
    {body : Body} (hone : Cbor.one raw tokens = .ok (it, tokens')) (huc : it.tagged 7 39001 = .ok uc)
    (hbody : certificateBody uc = .ok body) : certificateShape raw = .ok () := by
  obtain ⟨t, ht, rfl, rfl⟩ := strict_of_one hone
  have hroot : Scanned (itemOf t) := ⟨t, ht.scannable, rfl⟩
  have hfield := fun i hi => hroot.tagged huc i hi
  obtain ⟨hir, ⟨_, htr⟩, ⟨_, hconf⟩, ⟨_, hsc⟩, ⟨_, htc⟩, ⟨_, hsf⟩⟩ := certificateBody_parts hbody
  obtain ⟨hir, huints, hhashes, ⟨_, hstate⟩, hsummary⟩ := inputRecord_parts hir
  obtain ⟨hsc, ⟨_, hshard⟩, hsib, sibs, hsibs, hsiball⟩ := shardCertificate_parts hsc
  obtain ⟨htc, ⟨_, hpart⟩, hsteps, steps, hstepkids, hstepall⟩ := treeCertificate_parts htc
  obtain ⟨hsf, ⟨_, hnet⟩, hsealints, ⟨_, hprev⟩, ⟨_, hhash⟩, hsigs, sigs, hsigkids, hpairs⟩ := unicitySeal_parts hsf
  have htyped : Cbor.oneTyped t.encode 0 Cbor.maxItems = .ok (itemOf t, t.count) :=
    Cbor.oneWith_loosen Cbor.maxItems_lt (by simp) (by simp) ht.one
  have hsummaryLike : bytesLike body.ir[5] = .ok () := by
    rcases hsummary with hnull | ⟨b, hb⟩
    · exact bytesLike_of_null hnull
    · exact bytesLike_of_blob hb
  have huintEach : Res.each (fun v => uintOrNull v usizeMax) [body.ir[1], body.ir[2], body.ir[6], body.ir[8]] =
      .ok () := by
    rw [Res.each_eq_ok]
    intro v hv
    obtain ⟨n, hn⟩ := huints v hv
    exact uintOrNull_of_uint hn
  have hbytesEach : Res.each bytesLike [body.ir[3], body.ir[4], body.ir[5], body.ir[7], body.ir[9]] = .ok () := by
    rw [Res.each_eq_ok]
    simp only [List.mem_cons, List.not_mem_nil, or_false, forall_eq_or_imp, forall_eq]
    exact ⟨bytesLike_of_nullableHash (hhashes _ (by simp)), bytesLike_of_bytes hstate, hsummaryLike,
      bytesLike_of_nullableHash (hhashes _ (by simp)), bytesLike_of_nullableHash (hhashes _ (by simp))⟩
  have hsealEach : Res.each (fun v => do let _ ← Item.uint v usizeMax; return ())
      [body.sealFields[2], body.sealFields[3], body.sealFields[4]] = (.ok () : Res Malformed Unit) := by
    rw [Res.each_eq_ok]
    intro v hv
    obtain ⟨n, hn⟩ := hsealints v hv
    rw [hn]
    rfl
  have hversion : body.sealFields[0].uint 1 = .ok 1 := uint_narrow (version_of_tagged hsf) le_rfl
  rw [certificateShape, htyped, Res.bind_ok]
  dsimp only
  rw [typed_of_tagged hroot huc, Res.bind_ok, typed_of_tagged (hfield 1 (by omega)) hir, Res.bind_ok, huintEach,
    Res.bind_ok, hbytesEach, Res.bind_ok, bytesLike_of_bytes htr, Res.bind_ok, bytesLike_of_bytes hconf,
    Res.bind_ok, typed_of_tagged (hfield 4 (by omega)) hsc, Res.bind_ok, bytesLike_of_blob hshard, Res.bind_ok,
    listOfBytes_of_hashes hsib hsibs hsiball, Res.bind_ok, typed_of_tagged (hfield 5 (by omega)) htc, Res.bind_ok,
    uintOrNull_of_uint hpart, Res.bind_ok, typedSteps_of_steps hsteps hstepkids hstepall, Res.bind_ok,
    typed_of_tagged (hfield 6 (by omega)) hsf, Res.bind_ok, hversion, Res.bind_ok,
    Res.refuse_of_not (by omega), Res.bind_ok, hnet, Res.bind_ok, hsealEach, Res.bind_ok,
    bytesLike_of_bytes hprev, Res.bind_ok, bytesLike_of_bytes hhash, Res.bind_ok,
    typedSignatures_of_pairs hsigs hsigkids hpairs]

/-! ## The shard -/

/-- The shard reader on a certificate of the typed shape: the second field of the fifth record. -/
theorem certificateShard_encode {t : Value} (ht : Scannable t) {uc : FieldList Item 7} {sc : FieldList Item 3}
    (huc : typed (itemOf t) 39001 7 = .ok uc) (hsc : typed uc[4] 39003 3 = .ok sc) :
    certificateShard t.encode = typedBytes sc[1] := by
  obtain ⟨ts, rfl, hts⟩ := tree_of_typed ht huc
  have hinner := ht.kid (show Value.array ts ∈ (Value.tag 39001 (.array ts)).kids by simp)
  have hget := FieldList.getElem_of_toList hts 4 (by omega)
  obtain ⟨u, hu, hfour⟩ := field_itemOf hts 4 (by omega)
  rw [hfour] at hsc hget
  obtain ⟨us, rfl, hus⟩ := tree_of_typed (hinner.kid hu) hsc
  have hpart := (hinner.kid hu).kid
    (show Value.array us ∈ (Value.tag 39003 (.array us)).kids by simp)
  have hone : Cbor.oneLoose (itemOf (.tag 39001 (.array ts))).data 0 usizeMax =
      .ok (itemOf (.array ts), (Value.array ts).count) := oneLoose_encode_itemOf hinner
  have hone' : Cbor.oneLoose (itemOf (.tag 39003 (.array us))).data 0 usizeMax =
      .ok (itemOf (.array us), (Value.array us).count) := oneLoose_encode_itemOf hpart
  have hkids {vs : List Value} (hvs : Scannable (.array vs)) :
      ((itemOf (.array vs)).children : Res Malformed (List Item)) = .ok (vs.map itemOf) :=
    Cbor.children_itemOf hvs (by simp) (by simp)
  rw [certificateShard, oneLoose_encode_itemOf ht, Res.bind_ok]
  dsimp only
  rw [hone, Res.bind_ok]
  dsimp only
  rw [hkids hinner, Res.bind_ok, hget, Res.okOr, Res.bind_ok, hone', Res.bind_ok]
  dsimp only
  rw [hkids hpart, Res.bind_ok, FieldList.getElem_of_toList hus 1 (by omega), Res.okOr, Res.bind_ok]

theorem typedBytes_of_bytesLike {it : Item} (h : bytesLike it = .ok ()) : ∃ b, typedBytes it = .ok b := by
  unfold bytesLike at h
  unfold typedBytes
  split
  next => exact ⟨[], rfl⟩
  next hnull =>
    split
    next => exact ⟨it.data, rfl⟩
    next hmajor =>
      rw [if_neg (by simp [hnull, hmajor])] at h
      simp only [Res.bind_eq_ok, Res.each_eq_ok, Res.pure_eq_ok, and_true] at h
      obtain ⟨_, -, kids, hkids, hall⟩ := h
      have hbyte : ∀ k ∈ kids, Res.FailsOnly (fun _ => False) (do
          let v ← k.uint 255
          return UInt8.ofNat v) := by
        intro k hk
        obtain ⟨v, hv⟩ := hall k hk
        rw [hv]
        exact Res.failsOnly_ok _
      rw [hkids, Res.bind_ok]
      rcases (Res.failsOnly_collect hbyte).cases with hb | ⟨e, he, -⟩
      · exact hb
      · exact he.elim

/-- A certificate of the typed shape names a shard. -/
theorem certificateShard_of_shape {raw : Bytes} (h : certificateShape raw = .ok ()) :
    ∃ shard, certificateShard raw = .ok shard := by
  simp only [certificateShape, Res.bind_eq_ok, Prod.exists] at h
  obtain ⟨root, n, hone, uc, huc, _, -, _, -, _, -, _, -, _, -, sc, hsc, _, hshard, -⟩ := h
  obtain ⟨t, ht, rfl, rfl, -⟩ := Cbor.tree_of_oneWith Cbor.maxItems_lt hone
  obtain ⟨b, hb⟩ := typedBytes_of_bytesLike hshard
  exact ⟨b, by rw [certificateShard_encode ht huc hsc, hb]⟩

/-- It is the shard that a claim with this certificate is read with. -/
theorem certificateShard_of_body {raw : Bytes} {tokens tokens' : Nat} {it : Item} {uc : FieldList Item 7}
    {body : Body} (hone : Cbor.one raw tokens = .ok (it, tokens')) (huc : it.tagged 7 39001 = .ok uc)
    (hbody : certificateBody uc = .ok body) : certificateShard raw = .ok body.shardCert[1].data := by
  obtain ⟨t, ht, rfl, rfl⟩ := strict_of_one hone
  have hroot : Scanned (itemOf t) := ⟨t, ht.scannable, rfl⟩
  obtain ⟨-, -, -, ⟨_, hsc⟩, -, -⟩ := certificateBody_parts hbody
  obtain ⟨hsc, ⟨_, hshard⟩, -⟩ := shardCertificate_parts hsc
  have hmajor := (major_of_blob hshard).1
  rw [certificateShard_encode ht.scannable (typed_of_tagged hroot huc)
    (typed_of_tagged (hroot.tagged huc 4 (by omega)) hsc), typedBytes, not_null_of_major (by omega), if_pos hmajor]
  rfl

end Ureth.Source.B1
