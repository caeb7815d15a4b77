import Ureth.Source.B2.Lineage
import Ureth.Source.B2.SemanticsSpec

/-!
# What the lineage relation establishes

The ok cases of the lineage functions, level by level: a decoded allocation proof
has positive sums, the projection of an ancestor is the compact history of as many
leaves as it reports, the walk collects a chain of ancestors down to a lock
reason, and a verified level adds one new state ID for its mint and for each of
its transfers.
-/

namespace Ureth.Source.B2
open Ureth.Foundation
open Ureth.Foundation.Cbor (Value)
open Cbor (Item Items)
open Ureth.Source.B1.Cbor (usizeMax usizeMax_lt Scannable)

/-- How many transfers a history carries. -/
def transferCount (history : Bytes) : Res Error Nat := do
  let p ← Cbor.one history (.perObject usizeMax)
  let h ← p.array 2
  h[1].count u64Max

/-! ## Allocation proofs -/

theorem decodeStep_pos {k : NativeItem} {prev : Nat} {s : Step} (h : decodeStep k prev = .ok s) :
    0 < s.sum.toNat := by
  simp only [decodeStep, Res.bind_eq_ok, Res.refuse_eq_ok, exists_const, Res.okOr_eq_ok,
    Res.pure_eq_ok] at h
  obtain ⟨_, -, _, -, -, _, -, _, -, -, sum, hsum, rfl⟩ := h
  exact U256.amount_pos hsum

theorem decodeSteps_pos {ks : List NativeItem} {prev : Nat} {proof : Proof}
    (h : decodeSteps ks prev = .ok proof) : ∀ s ∈ proof, 0 < s.sum.toNat := by
  induction ks generalizing prev proof with
  | nil =>
    simp only [decodeSteps, Except.ok.injEq] at h
    simp [← h]
  | cons k rest ih =>
    simp only [decodeSteps, Res.bind_eq_ok, Res.pure_eq_ok] at h
    obtain ⟨s, hs, steps, hsteps, rfl⟩ := h
    intro x hx
    rcases List.mem_cons.mp hx with rfl | hx
    · exact decodeStep_pos hs
    · exact ih hsteps x hx

theorem decodeProof_pos {it : NativeItem} {proof : Proof} (h : decodeProof it = .ok proof) :
    ∀ s ∈ proof, 0 < s.sum.toNat := by
  simp only [decodeProof, Res.bind_eq_ok, Res.refuse_eq_ok, exists_const] at h
  obtain ⟨-, -, _, -, h⟩ := h
  exact decodeSteps_pos h

/-- A decoded proof adds nothing exactly if it has no steps. -/
theorem proofSum_eq_zero {proof : Proof} (h : ∀ s ∈ proof, 0 < s.sum.toNat) :
    proofSum proof = 0 ↔ proof = [] := by
  cases proof with
  | nil => simp [proofSum]
  | cons s rest =>
    have := h s (List.mem_cons_self ..)
    simp only [proofSum, List.map_cons, List.sum_cons]
    constructor
    · intro hsum
      omega
    · simp

/-! ## Projection -/

section Relation

variable {H : Bytes → Bytes32} {K : K256}

open B1.Cbor (itemOf array_itemOf tagged_itemOf uint_itemOf tree_of_oneWith)

/-- Field `i` of the items of a list of values. -/
theorem getElem_of_map_itemOf {n : Nat} {v : FieldList NativeItem n} {ts : List Value}
    (h : v.toList = ts.map itemOf) (i : Nat) (hi : i < n) {u : Value} (hu : ts[i]? = some u) :
    v[i] = itemOf u := by
  have hget := FieldList.getElem_of_toList h i hi
  rw [List.getElem?_map, hu, Option.map_some, Option.some.injEq] at hget
  exact hget.symm

theorem exists_five {l : List Value} (h : l.length = 5) : ∃ a b c d e, l = [a, b, c, d, e] := by
  obtain ⟨a, l, rfl⟩ := List.exists_cons_of_length_eq_add_one h
  obtain ⟨b, l, rfl⟩ := List.exists_cons_of_length_eq_add_one (Nat.succ.inj h)
  obtain ⟨c, d, e, rfl⟩ := List.length_eq_three.mp (Nat.succ.inj (Nat.succ.inj h))
  exact ⟨a, b, c, d, e, rfl⟩

/-- The kernel's scan of the bytes of a scanned tree returns the tree's item. -/
theorem item_of_one {items : Items} (hword : items.cap < 2 ^ 64) {t : Value} (ht : Scannable t)
    {it : Item} (h : Cbor.one t.encode items = .ok it) : it = Cbor.itemOf t := by
  obtain ⟨u, hu, hdata, rfl, hcount⟩ := (Cbor.one_eq_ok hword).mp h
  have hfits := (hu.scannable (lt_of_le_of_lt hcount hword)).fits
  rw [Value.encode_inj ht.fits hfits hdata]

/-- The pair `p` of a transaction, which `decode` reads, and its inclusion proof, and its triple `q`
in the compact form: the transaction, and the proof's certification data and reference time. -/
def Projects (K : K256) {α : Type} (decode : Item → Res Error α) (p q : Value) : Prop :=
  ∃ tx version c time path uc pair a,
    p = .array [tx, .tag tagInclusion (.array [version, c, .uint time, path, uc])] ∧
    q = .array [tx, c, .uint time] ∧ (itemOf p).array 2 = .ok pair ∧ pair[0] = itemOf tx ∧
    inclusion K pair[1] = .ok (itemOf c, time) ∧
    Cbor.one tx.encode (.nativeMode Items.max) = .ok (Cbor.itemOf tx) ∧
    decode (Cbor.itemOf tx) = .ok a

/-- The fields of an accepted inclusion proof. -/
theorem inclusion_ok {t : Value} (ht : Scannable t) {cd : NativeItem} {time : Nat}
    (h : inclusion K (itemOf t) = .ok (cd, time)) :
    ∃ version c path uc, t = .tag tagInclusion (.array [version, c, .uint time, path, uc]) ∧
      cd = itemOf c := by
  simp only [inclusion, Res.bind_eq_ok, Res.refuse_eq_ok, exists_const, Res.mapErr_eq_ok,
    Res.pure_eq_ok, Prod.mk.injEq] at h
  obtain ⟨-, -, f, hf, _, -, _, -, time', htime, _, -, -, -, _, -, rfl, rfl⟩ := h
  obtain ⟨ts, rfl, hlen, hfs, -⟩ := (tagged_itemOf ht).mp hf
  obtain ⟨version, c, u, path, uc, rfl⟩ := exists_five hlen
  have hu := getElem_of_map_itemOf hfs 2 (by omega) (u := u) rfl
  rw [hu, uint_itemOf] at htime
  obtain ⟨rfl, -⟩ := htime
  exact ⟨version, c, path, uc, rfl, getElem_of_map_itemOf hfs 1 (by omega) rfl⟩

/-- A triple of the compact form is an array of three values. -/
theorem triple_eq_encode (tx c : Value) (time : Nat) :
    triple tx.encode (itemOf c) time = (Value.array [tx, c, .uint time]).encode := by
  rw [triple, Cbor.uint_eq_encode, B1.Cbor.itemOf_raw, ← Cbor.array_eq_encode]
  rfl

/-- A pair whose transaction and inclusion proof were accepted projects to its triple. -/
theorem projects_of_inclusion {α : Type} {decode : Item → Res Error α} {p : Value} (hp : Scannable p)
    {pair : FieldList NativeItem 2} (hpair : (itemOf p).array 2 = .ok pair) {x : Item} {a : α}
    (hx : Cbor.one pair[0].raw (.nativeMode Items.max) = .ok x) (ha : decode x = .ok a)
    {cd : NativeItem} {time : Nat} (h : inclusion K pair[1] = .ok (cd, time)) :
    ∃ q, triple pair[0].raw cd time = q.encode ∧ Projects K decode p q := by
  obtain ⟨ts, rfl, hlen, hts⟩ := (array_itemOf hp).mp hpair
  obtain ⟨tx, i, rfl⟩ := List.length_eq_two.mp hlen
  have h0 := getElem_of_map_itemOf hts 0 (by omega) (u := tx) rfl
  have h1 := getElem_of_map_itemOf hts 1 (by omega) (u := i) rfl
  rw [h0, B1.Cbor.itemOf_raw] at hx
  obtain rfl := item_of_one (by decide) (hp.kid (by simp)) hx
  obtain ⟨version, c, path, uc, rfl, rfl⟩ := inclusion_ok (hp.kid (by simp)) (h1 ▸ h)
  refine ⟨.array [tx, c, .uint time], ?_, tx, version, c, time, path, uc, pair, a, rfl, rfl, hpair, h0,
    h, hx, ha⟩
  rw [h0, B1.Cbor.itemOf_raw, triple_eq_encode]

namespace Projects

variable {α : Type} {decode : Item → Res Error α} {p q : Value}

/-- The triple is no longer than the pair. -/
theorem length_le (h : Projects K decode p q) : q.encode.length ≤ p.encode.length := by
  obtain ⟨tx, version, c, time, path, uc, _, _, rfl, rfl, -⟩ := h
  simp only [Value.length_encode_array, Value.length_encode_tag, List.map_cons, List.map_nil,
    List.sum_cons, List.sum_nil, List.length_cons, List.length_nil]
  have h3 : (Foundation.Cbor.head 4 (0 + 1 + 1 + 1)).length = 1 := by decide
  have h2 : (Foundation.Cbor.head 4 (0 + 1 + 1)).length = 1 := by decide
  omega

theorem fits (h : Projects K decode p q) (hp : Scannable p) : Value.All Value.Fits q := by
  obtain ⟨tx, version, c, time, path, uc, _, _, rfl, rfl, -⟩ := h
  have hproof : Scannable (.tag tagInclusion (.array [version, c, .uint time, path, uc])) :=
    hp.kid (by simp)
  have hinner : Scannable (.array [version, c, .uint time, path, uc]) :=
    hproof.kid (by simp)
  refine Value.all_fits_array (by simp) ?_
  simp only [List.mem_cons, List.not_mem_nil, or_false, forall_eq_or_imp, forall_eq]
  exact ⟨(hp.kid (by simp)).fits, (hinner.kid (by simp)).fits,
    (hinner.kid (by simp)).fits⟩

end Projects

/-- A projected transfer is the triple of its pair. -/
theorem projectTransfer_ok {p : Value} (hp : Scannable p) {b : Bytes}
    (h : projectTransfer K (itemOf p) = .ok b) :
    ∃ q, b = Value.encode q ∧ Projects K (transferStrict K) p q := by
  simp only [projectTransfer, Res.bind_eq_ok, Res.mapErr_eq_ok, Res.pure_eq_ok] at h
  obtain ⟨pair, hpair, it, hit, tx, htx, ⟨cd, time⟩, hincl, rfl⟩ := h
  exact projects_of_inclusion hp hpair hit htx hincl

/-- The fields of an SDK token. -/
theorem openToken_ok {t : Value} (ht : Scannable t) {a : FieldList NativeItem 3}
    (h : openToken (itemOf t) = .ok a) :
    ∃ version genesis txs, t = .tag tagToken (.array [version, genesis, txs]) ∧
      a[1] = itemOf genesis ∧ a[2] = itemOf txs := by
  simp only [openToken, Res.bind_eq_ok, Res.refuse_eq_ok, exists_const, Res.mapErr_eq_ok,
    Res.pure_eq_ok, not_not] at h
  simp only [B1.Cbor.itemOf_major, B1.Cbor.itemOf_arg] at h
  obtain ⟨hmajor, harg, ⟨inner, _⟩, hinner, a', ha, _, -, -, rfl⟩ := h
  cases t with
  | tag n u =>
    obtain rfl : n = tagToken := harg
    obtain ⟨u', hu', hdata, rfl, -⟩ := tree_of_oneWith usizeMax_lt hinner
    have hu : Scannable u := ht.kid (by simp)
    obtain rfl := Value.encode_inj hu.fits hu'.fits hdata
    obtain ⟨ts, rfl, hlen, hts⟩ := (array_itemOf hu).mp ha
    obtain ⟨version, genesis, txs, rfl⟩ := List.length_eq_three.mp hlen
    exact ⟨version, genesis, txs, rfl, getElem_of_map_itemOf hts 1 (by omega) rfl,
      getElem_of_map_itemOf hts 2 (by omega) rfl⟩
  | _ => simp at hmajor

/-- The projections of a token's transfers are triples, one for each. -/
theorem collect_projectTransfer_ok {ps : List Value} (hps : ∀ p ∈ ps, Scannable p)
    {triples : List Bytes} (h : Res.collect (projectTransfer K) (ps.map itemOf) = .ok triples) :
    ∃ qs : List Value, triples = qs.map Value.encode ∧
      List.Forall₂ (Projects K (transferStrict K)) ps qs := by
  induction ps generalizing triples with
  | nil =>
    simp only [List.map_nil, Res.collect, Except.ok.injEq] at h
    exact ⟨[], by simp [← h], .nil⟩
  | cons p ps ih =>
    simp only [List.map_cons, Res.collect, Res.bind_eq_ok, Res.pure_eq_ok] at h
    obtain ⟨b, hb, more, hmore, rfl⟩ := h
    obtain ⟨q, rfl, hq⟩ := projectTransfer_ok (hps p (by simp)) hb
    obtain ⟨qs, rfl, hall⟩ := ih (fun p hp => hps p (by simp [hp])) hmore
    exact ⟨q :: qs, rfl, .cons hq hall⟩

/-- The compact history of an accepted token: its genesis pair and its transfer pairs, each as
its triple. -/
def Projected (K : K256) (t mint : Value) (qs : List Value) : Prop :=
  ∃ version genesis ps parts, t = .tag tagToken (.array [version, genesis, .array ps]) ∧
    openToken (itemOf t) = .ok parts ∧ parts[1] = itemOf genesis ∧ parts[2] = itemOf (.array ps) ∧
    Projects K (decodeMint K) genesis mint ∧ List.Forall₂ (Projects K (transferStrict K)) ps qs

theorem project_ok {t : Value} (ht : Scannable t) {proj : Bytes} {leaves : Nat}
    (h : project K (itemOf t) = .ok (proj, leaves)) :
    ∃ mint qs, proj = (Value.array [mint, .array qs]).encode ∧ Projected K t mint qs ∧
      leaves = 1 + qs.length := by
  simp only [project, Res.bind_eq_ok, Res.mapErr_eq_ok, Res.refuse_eq_ok, exists_const,
    Res.pure_eq_ok, Prod.mk.injEq, Res.u64_eq_ok, not_not] at h
  obtain ⟨parts, hparts, g, hg, it, hit, m, hm, ⟨cd0, t0⟩, hincl, hmajor, kids, hkids, triples,
    htriples, _, ⟨-, rfl⟩, rfl, rfl⟩ := h
  obtain ⟨version, genesis, txs, rfl, h1, h2⟩ := openToken_ok ht hparts
  have hinner : Scannable (.array [version, genesis, txs]) := ht.kid (by simp)
  have htxs : Scannable txs := hinner.kid (by simp)
  rw [h1] at hg
  rw [h2] at hmajor hkids
  obtain ⟨mint, htriple, hmint⟩ :=
    projects_of_inclusion (hinner.kid (by simp)) hg hit hm hincl
  cases txs with
  | array ps =>
    rw [B1.Cbor.children_itemOf htxs (by simp) (by simp),
      Except.ok.injEq] at hkids
    subst hkids
    obtain ⟨qs, rfl, hall⟩ := collect_projectTransfer_ok
      (fun p hp => htxs.kid (t := .array ps) hp) htriples
    refine ⟨mint, qs, ?_, ⟨version, genesis, ps, parts, rfl, hparts, h1, h2, hmint, hall⟩, by simp⟩
    rw [htriple, Cbor.array_eq_encode]
    exact Cbor.array_eq_encode [mint, .array qs]
  | _ => simp at hmajor

namespace Projected

variable {t mint : Value} {qs : List Value}

/-- A projection is no longer than its token. -/
theorem length_le (h : Projected K t mint qs) :
    (Value.array [mint, .array qs]).encode.length ≤ t.encode.length := by
  obtain ⟨version, genesis, ps, _, rfl, -, -, -, hmint, hall⟩ := h
  have hm := hmint.length_le
  have hx : (Value.array qs).encode.length ≤ (Value.array ps).encode.length :=
    Value.length_encode_array_le (hall.flip.imp fun _ _ hq => Projects.length_le hq)
  rw [Value.length_encode_tag, Value.length_encode_array [version, _, _],
    Value.length_encode_array [mint, _]]
  have h3 : (Foundation.Cbor.head 4 [version, genesis, .array ps].length).length = 1 := rfl
  have h2 : (Foundation.Cbor.head 4 [mint, .array qs].length).length = 1 := rfl
  simp only [List.map_cons, List.map_nil, List.sum_cons, List.sum_nil]
  omega

theorem fits (h : Projected K t mint qs) (ht : Scannable t) :
    Value.All Value.Fits (.array [mint, .array qs]) := by
  obtain ⟨version, genesis, ps, _, rfl, -, -, -, hmint, hall⟩ := h
  have hinner : Scannable (.array [version, genesis, .array ps]) := ht.kid (by simp)
  have hps : Scannable (.array ps) := hinner.kid (by simp)
  have hqs : ∀ q ∈ qs, Value.All Value.Fits q := by
    intro q hq
    obtain ⟨i, hi, rfl⟩ := List.getElem_of_mem hq
    have hi' : i < ps.length := hall.length_eq ▸ hi
    exact (hall.get hi' hi).fits (hps.kid (List.getElem_mem hi'))
  refine Value.all_fits_array (by simp) ?_
  simp only [List.mem_cons, List.not_mem_nil, or_false, forall_eq_or_imp, forall_eq]
  refine ⟨hmint.fits (hinner.kid (by simp)), Value.all_fits_array ?_ hqs⟩
  rw [← hall.length_eq]
  exact hps.fits.root.1

end Projected

/-! ## The walk -/

/-- A split justification: its token, and the one proof it carries. -/
theorem openSplit_ok {j : Bytes} {token : NativeItem} {proof : Proof} {n : Nat}
    (h : openSplit j = .ok (token, proof, n)) :
    ∃ t, Scannable t ∧ token = itemOf t ∧ t.encode.length < j.length ∧
      ∀ s ∈ proof, 0 < s.sum.toNat := by
  simp only [openSplit, Res.bind_eq_ok, Res.mapErr_eq_ok, Res.refuse_eq_ok, exists_const,
    Res.unwrap_eq_ok, Res.pure_eq_ok, Prod.mk.injEq, not_or, not_not] at h
  obtain ⟨⟨sj, _⟩, hsj, ⟨hmajor, -⟩, ⟨body, _⟩, hbody, ⟨hbmajor, -⟩, kids, hkids, token, htoken, proofs,
    -, -, -, inner, -, first, -, proof, hproof, rfl, rfl, rfl⟩ := h
  obtain ⟨t, ht, hj, rfl, -⟩ := tree_of_oneWith usizeMax_lt hsj
  obtain ⟨u, hu, hdata, rfl, -⟩ := tree_of_oneWith usizeMax_lt hbody
  cases u with
  | array us =>
    rw [B1.Cbor.children_itemOf hu (by simp) (by simp),
      Except.ok.injEq] at hkids
    subst hkids
    rw [List.getElem?_map] at htoken
    obtain ⟨v, hv, rfl⟩ := Option.map_eq_some_iff.mp htoken
    have hmem : v ∈ us := List.mem_of_getElem? hv
    refine ⟨v, hu.kid hmem, rfl, ?_, decodeProof_pos hproof⟩
    have h1 : v.encode.length < (Value.array us).encode.length := Value.length_encode_kid_lt hmem
    have h2 := Value.length_content_lt t
    rw [B1.Cbor.itemOf_data] at hdata
    rw [hdata, ← hj] at h2
    omega
  | _ => simp at hbmajor

/-- One ancestor of a walk: the allocation proof of the token below it, its
projected history and the leaves its projection reports. -/
structure Ancestor where
  proof : Proof
  proj : Bytes
  leaves : Nat

/-- The ancestors of a history, nearest first, down to a lock reason. -/
inductive Ancestry (K : K256) : Bytes → List Ancestor → Prop where
  | root {cur j : Bytes} (hj : mintJustification cur = .ok j)
      (htag : justificationTag j = some tagLock) : Ancestry K cur []
  | split {cur j : Bytes} {token : NativeItem} {items : Nat} {a : Ancestor} {rest : List Ancestor}
      (hj : mintJustification cur = .ok j) (htag : justificationTag j = some tagSplit)
      (hopen : openSplit j = .ok (token, a.proof, items))
      (hproj : project K token = .ok (a.proj, a.leaves)) (hrest : Ancestry K a.proj rest) :
      Ancestry K cur (a :: rest)

/-- What a walk from a history through its ancestors collects. -/
def Walked.through (history : Bytes) (ancestors : List Ancestor) : Walked where
  proofs := ancestors.map Ancestor.proof
  projs := history :: ancestors.map Ancestor.proj

theorem Ancestry.proof_pos {cur : Bytes} {ancestors : List Ancestor} (h : Ancestry K cur ancestors) :
    ∀ a ∈ ancestors, ∀ s ∈ a.proof, 0 < s.sum.toNat := by
  induction h with
  | root => simp
  | split _ _ hopen _ _ ih =>
    obtain ⟨_, -, -, -, hpos⟩ := openSplit_ok hopen
    simpa using ⟨hpos, ih⟩

/-- The tree of an accepted history: its mint and its transfers. -/
theorem transferCount_tree {history : Bytes} {n : Nat} (h : transferCount history = .ok n) :
    ∃ mint ts, history = (Value.array [mint, .array ts]).encode ∧
      Scannable (.array [mint, .array ts]) ∧ ts.length = n := by
  simp only [transferCount, Res.bind_eq_ok] at h
  obtain ⟨p, hp, v, hv, hcount⟩ := h
  obtain ⟨t, hacc, hdata, rfl, hle⟩ := (Cbor.one_eq_ok usizeMax_lt).mp hp
  have ht : Scannable t := hacc.scannable (lt_of_le_of_lt hle usizeMax_lt)
  obtain ⟨us, rfl, hlen, hvs⟩ := (Cbor.array_itemOf ht).mp hv
  obtain ⟨mint, txs, rfl⟩ := List.length_eq_two.mp hlen
  have h1 := FieldList.getElem_of_toList hvs 1 (by omega)
  simp only [List.map_cons, List.map_nil, List.getElem?_cons_succ, List.getElem?_cons_zero,
    Option.some.injEq] at h1
  rw [← h1, Cbor.count_itemOf] at hcount
  obtain ⟨ts, rfl, hn, -⟩ := hcount
  exact ⟨mint, ts, hdata, ht, hn⟩

theorem transferCount_lt {history : Bytes} {n : Nat} (h : transferCount history = .ok n) :
    1 + n < 2 ^ 64 := by
  obtain ⟨mint, ts, -, ht, rfl⟩ := transferCount_tree h
  have hfew := ht.few
  have hts := Value.length_le_countAll ts
  simp only [Value.count, Value.countAll_cons, Value.countAll_nil] at hfew
  omega

/-- An accepted history whose bytes are those of a known array has its count. -/
theorem transferCount_encode {mint : Value} {ts : List Value} {n : Nat}
    (hfits : Value.All Value.Fits (.array [mint, .array ts]))
    (h : transferCount (Value.array [mint, .array ts]).encode = .ok n) : n = ts.length := by
  obtain ⟨mint', us, hdata, ht, rfl⟩ := transferCount_tree h
  have heq := Value.encode_inj hfits ht.fits hdata
  simp only [Value.array.injEq, List.cons.injEq] at heq
  rw [heq.2.1]

/-- The leaves a projection reports are those of the history it returns. -/
theorem Ancestry.leaves_eq {cur : Bytes} {ancestors : List Ancestor} (h : Ancestry K cur ancestors) :
    ∀ a ∈ ancestors, ∀ n, transferCount a.proj = .ok n → a.leaves = 1 + n := by
  induction h with
  | root => simp
  | @split _ _ _ _ a _ _ _ hopen hproj _ ih =>
    obtain ⟨t, ht, rfl, -⟩ := openSplit_ok hopen
    obtain ⟨mint, qs, hbytes, hof, hleaves⟩ := project_ok ht hproj
    rintro b hb n hn
    rcases List.mem_cons.mp hb with rfl | hb
    · rw [hbytes] at hn
      rw [hleaves, transferCount_encode (hof.fits ht) hn]
    · exact ih b hb n hn

section Walk

variable {σ : Type} {charge : Nat → Run σ Error Unit}

theorem descend_ok {j : Bytes} {proof : Proof} {proj : Bytes} {s s' : σ}
    (h : descend K charge j s = (.ok (proof, proj), s')) :
    ∃ token items leaves, openSplit j = .ok (token, proof, items) ∧
      project K token = .ok (proj, leaves) := by
  simp only [descend, Run.bind_eq_ok, Run.lift_apply, Prod.mk.injEq, Run.pure_apply,
    Except.ok.injEq] at h
  obtain ⟨_, _, -, ⟨token, proof', items⟩, _, ⟨hopen, rfl⟩, _, _, -, ⟨proj', leaves⟩, _,
    ⟨hproj, rfl⟩, _, _, -, ⟨rfl, rfl⟩, rfl⟩ := h
  exact ⟨token, items, leaves, hopen, hproj⟩

/-- The walk appends the ancestors of its last history. -/
theorem walk_ok {fuel : Nat} {w w' : Walked} {s s' : σ} {cur : Bytes}
    (h : walk K charge fuel w s = (.ok w', s')) (hcur : w.projs.getLast? = some cur) :
    ∃ ancestors, Ancestry K cur ancestors ∧
      w'.proofs = w.proofs ++ ancestors.map Ancestor.proof ∧
      w'.projs = w.projs ++ ancestors.map Ancestor.proj := by
  induction fuel generalizing w s cur with
  | zero => simp [walk] at h
  | succ fuel ih =>
    simp only [walk, Run.bind_eq_ok, Run.lift_apply, Prod.mk.injEq, Res.unwrap_eq_ok] at h
    obtain ⟨cur', _, ⟨hcur', rfl⟩, j, _, ⟨hj, rfl⟩, h⟩ := h
    obtain rfl : cur = cur' := Option.some.inj (hcur.symm.trans hcur')
    split at h
    next htag =>
      simp only [Run.pure_apply, Prod.mk.injEq, Except.ok.injEq] at h
      exact ⟨[], .root hj htag, by simp [h.1], by simp [h.1]⟩
    next hlock =>
      split at h
      next htag =>
        simp only [Run.bind_eq_ok] at h
        obtain ⟨⟨proof, proj⟩, t, hdesc, h⟩ := h
        obtain ⟨token, items, leaves, hopen, hproj⟩ := descend_ok hdesc
        obtain ⟨rest, hanc, hproofs, hprojs⟩ := ih h
          (show (w.projs ++ [proj]).getLast? = some proj by simp)
        refine ⟨⟨proof, proj, leaves⟩ :: rest, .split hj htag hopen hproj hanc, ?_, ?_⟩
        · simpa using hproofs
        · simpa using hprojs
      next => simp [Run.fail] at h

end Walk

/-! ## One level -/

theorem levelTransfers_ok {trs : List Transfer} {owner : Item} {state : Bytes32}
    {seen seen' : List Bytes32} {leaves : List Leaf}
    (h : levelTransfers H K trs owner state seen = .ok (leaves, seen')) :
    leaves.length = trs.length ∧ Fresh seen leaves seen' := by
  induction trs generalizing owner state seen leaves with
  | nil =>
    simp only [levelTransfers, Except.ok.injEq, Prod.mk.injEq] at h
    obtain ⟨rfl, rfl⟩ := h
    exact ⟨rfl, .nil _⟩
  | cons tr rest ih =>
    simp only [levelTransfers, Res.bind_eq_ok, Res.pure_eq_ok, Prod.mk.injEq] at h
    obtain ⟨⟨leaf, seen1⟩, hleaf, _, -, ⟨more, seen2⟩, hmore, rfl, rfl⟩ := h
    obtain ⟨hlen, hfresh⟩ := ih hmore
    exact ⟨by simp [hlen], (spend_fresh hleaf).append hfresh⟩

/-- What a verified level establishes for the whole lineage. -/
structure LevelOk (payload : Bytes) (root : Bool) (seen : List Bytes32) (lv : Verified)
    (seen' : List Bytes32) : Prop where
  fresh : Fresh seen lv.leaves seen'
  count : ∃ n, transferCount payload = .ok n ∧ lv.leaves.length = 1 + n
  base : root = true → ∃ base, lv.base = some base ∧ base.amount = lv.amount

theorem levelIdentity_base {cfg : Cfg} {m : Mint} {n : Option Nat} {amt : Bytes} {id : Bytes32}
    {base : Option Outcome} (h : levelIdentity H K cfg m n amt = .ok (id, base)) (hn : n.isSome = true) :
    ∃ out, base = some out ∧ word amt = .ok out.amount := by
  cases n with
  | none => simp at hn
  | some n =>
    simp only [levelIdentity, Res.bind_eq_ok, Res.pure_eq_ok, Prod.mk.injEq] at h
    obtain ⟨out, hout, -, rfl⟩ := h
    exact ⟨out, rfl, (derive_eq_ok hout).1⟩

theorem level_ok {cfg : Cfg} {payload : Bytes} {root : Bool} {seen seen' : List Bytes32}
    {lv : Verified} (h : level H K cfg payload root seen (.perObject Items.max) = .ok (lv, seen')) :
    LevelOk payload root seen lv seen' := by
  simp only [level, Res.bind_eq_ok, Res.refuse_eq_ok, exists_const, Res.pure_eq_ok,
    Prod.mk.injEq] at h
  obtain ⟨it, hit, hist, hhist, -, ⟨n, amt⟩, hmint, ⟨id, base⟩, hid, amount, hamount, ⟨first, seen1⟩,
    hfirst, ⟨rest, seen2⟩, hrest, last, -, salt, -, ty, -, data, -, rfl, rfl⟩ := h
  have hone : Cbor.one payload (.perObject usizeMax) = .ok it :=
    Cbor.one_mono (by decide) usizeMax_lt hit
  have hscan := Cbor.scanned_of_one usizeMax_lt hone
  obtain ⟨hlen, hfresh⟩ := levelTransfers_ok hrest
  refine ⟨(mintLeaf_fresh hfirst).append hfresh, ⟨hist.count, ?_, ?_⟩, ?_⟩
  · simp only [decodeFields, Res.bind_eq_ok, Res.pure_eq_ok] at hhist
    obtain ⟨v, hv, _, -, count, hcount, _, -, _, -, _, -, _, -, _, -, rfl⟩ := hhist
    simp only [transferCount, Res.bind_eq_ok]
    exact ⟨it, hone, v, hv, hcount⟩
  · have := (decodeFields_ok hscan hhist).count
    simp only [List.length_cons]
    omega
  · intro hroot
    obtain ⟨out, hout, hword⟩ := levelIdentity_base hid
      (by rw [(verifyMint_ok hmint).2.1, hroot])
    rw [hamount, Except.ok.injEq] at hword
    exact ⟨out, hout, hword.symm⟩

/-! ## From the root to the part -/

/-- Part first, each level's amount with the sums of its proof is its parent's. -/
def Allocated : List Proof → List Verified → Prop
  | _, [] => True
  | proofs, [_] => proofs = []
  | [], _ :: _ :: _ => False
  | proof :: proofs, child :: parent :: rest =>
    U256.toNat parent.amount = U256.toNat child.amount + proofSum proof ∧
      Allocated proofs (parent :: rest)

section Levels

variable {σ : Type} {charge : Nat → Run σ Error Unit}

theorem allocationEdge_ok {parent : Parent} {proof : Proof} {id data : Bytes32} {value : U256}
    (h : allocationEdge H parent proof id data value = .ok ()) :
    U256.toNat parent.amount = U256.toNat value + proofSum proof := by
  simp only [allocationEdge, Res.bind_eq_ok, Res.okOr_eq_ok, Res.refuse_eq_ok, not_not] at h
  obtain ⟨sum, hsum, rfl⟩ := h
  exact verify_sum hsum

theorem verifyEdge_ok {w : Walked} {i : Nat} {lv : Verified} {parent : Option Parent} {s s' : σ}
    (h : verifyEdge H charge w i lv parent s = (.ok (), s')) :
    ∃ p proof, parent = some p ∧ w.proofs[i]? = some proof ∧
      U256.toNat p.amount = U256.toNat lv.amount + proofSum proof := by
  simp only [verifyEdge, Run.bind_eq_ok, Run.lift_apply, Prod.mk.injEq, Res.unwrap_eq_ok,
    Res.index_eq_ok] at h
  obtain ⟨p, _, ⟨hp, rfl⟩, proof, _, ⟨hproof, rfl⟩, _, _, -, hedge, -⟩ := h
  exact ⟨p, proof, hp, hproof, allocationEdge_ok hedge⟩

/-- What the terminal transfer leaves of the outcome so far. -/
theorem levelTerminal_ok {cfg : Cfg} {i : Nat} {lv : Verified} {proj : Bytes} {out out' : Outcome}
    {root : Bytes32} (h : levelTerminal H cfg i lv proj out = .ok (out', root)) :
    out'.leaves = out.leaves ∧ out'.depth = out.depth ∧ out'.amount = out.amount ∧
      (i = 0 → out'.partAmount = lv.amount) := by
  simp only [levelTerminal, Res.bind_eq_ok] at h
  obtain ⟨tx, -, h⟩ := h
  split at h
  next hi =>
    simp only [partTerminal, Res.bind_eq_ok, Res.refuse_eq_ok, exists_const, Res.pure_eq_ok, Prod.mk.injEq] at h
    obtain ⟨_, ⟨_, -, -, rfl⟩, rfl, -⟩ := h
    exact ⟨rfl, rfl, rfl, fun _ => rfl⟩
  next hi =>
    simp only [Res.bind_eq_ok, Res.pure_eq_ok, Prod.mk.injEq] at h
    obtain ⟨_, -, rfl, -⟩ := h
    exact ⟨rfl, rfl, rfl, fun h0 => absurd h0 hi⟩

theorem takeBase_ok {out out' : Outcome} {lv : Verified} {isRoot : Bool}
    (h : takeBase out lv isRoot = .ok out') :
    out'.leaves = out.leaves ∧ out'.depth = out.depth ∧ out'.partAmount = out.partAmount ∧
      (isRoot = false → out'.amount = out.amount) ∧
      (isRoot = true → ∃ base, lv.base = some base ∧ out'.amount = base.amount) := by
  unfold takeBase at h
  split at h
  next hroot =>
    simp only [Res.bind_eq_ok, Res.unwrap_eq_ok, Res.pure_eq_ok] at h
    obtain ⟨base, hbase, rfl⟩ := h
    exact ⟨rfl, rfl, rfl, by simp [hroot], fun _ => ⟨base, hbase, rfl⟩⟩
  next hroot =>
    simp only [Except.ok.injEq] at h
    subst h
    exact ⟨rfl, rfl, rfl, fun _ => rfl, fun h => absurd h hroot⟩

/-- `lv` is what the verification of a level computes from its history. -/
def LevelOf (H : Bytes → Bytes32) (K : K256) (cfg : Cfg) (proj : Bytes) (lv : Verified) : Prop :=
  ∃ root seen seen', level H K cfg proj root seen (.perObject Items.max) = .ok (lv, seen')

theorem LevelOf.count {cfg : Cfg} {proj : Bytes} {lv : Verified} (h : LevelOf H K cfg proj lv) :
    ∃ n, transferCount proj = .ok n ∧ lv.leaves.length = 1 + n := by
  obtain ⟨_, _, _, h⟩ := h
  exact (level_ok h).count

/-- Everything one level adds to the verification state. -/
structure Stepped (H : Bytes → Bytes32) (K : K256) (cfg : Cfg) (w : Walked) (d i : Nat)
    (st : VerifyState) (lv : Verified) (st' : VerifyState) : Prop where
  level : ∃ proj, w.projs[i]? = some proj ∧
    level H K cfg proj (decide (i = d)) st.seen (.perObject Items.max) = .ok (lv, st'.seen)
  edge : i < d → ∃ parent proof, st.parent = some parent ∧ w.proofs[i]? = some proof ∧
    U256.toNat parent.amount = U256.toNat lv.amount + proofSum proof
  leaves : st'.out.leaves = st.out.leaves ++ lv.leaves
  depth : st'.out.depth = st.out.depth
  amount : st'.out.amount = if i = d then lv.amount else st.out.amount
  part : i = 0 → st'.out.partAmount = lv.amount
  parent : st'.parent.map Parent.amount = some lv.amount

theorem verifyLevel_ok {cfg : Cfg} {w : Walked} {d i : Nat} {st st' : VerifyState} {s s' : σ}
    (h : verifyLevel H K charge cfg w d i st s = (.ok st', s')) :
    ∃ lv, Stepped H K cfg w d i st lv st' := by
  simp only [verifyLevel, Run.bind_eq_ok, Run.lift_apply, Prod.mk.injEq, Res.index_eq_ok,
    Run.pure_apply, Except.ok.injEq] at h
  obtain ⟨proj, _, ⟨hproj, rfl⟩, ⟨lv, seen⟩, _, ⟨hlevel, rfl⟩, _, s1, hedge, ⟨out, root⟩, _,
    ⟨hterm, rfl⟩, out', _, ⟨htake, rfl⟩, rfl, rfl⟩ := h
  have hlv := level_ok hlevel
  obtain ⟨hleaves, hdepth, hamount, hpart⟩ := levelTerminal_ok hterm
  obtain ⟨hleaves', hdepth', hpart', hchild, hroot⟩ := takeBase_ok htake
  refine ⟨lv, ⟨proj, hproj, hlevel⟩, ?_, ?_, ?_, ?_, ?_, rfl⟩
  · intro hi
    rw [if_pos hi] at hedge
    exact verifyEdge_ok hedge
  · simp [hleaves', hleaves]
  · simp [hdepth', hdepth]
  · split
    next hi =>
      obtain ⟨base, hbase, heq⟩ := hroot (by simp [hi])
      obtain ⟨base', hbase', heq'⟩ := hlv.base (by simp [hi])
      obtain rfl : base = base' := Option.some.inj (hbase.symm.trans hbase')
      exact heq.trans heq'
    next hi =>
      rw [hchild (by simp [hi])]
      exact hamount
  · intro hi
    rw [hpart']
    exact hpart hi

/-- The levels from `n` to the root, part first, and what the state holds of them. -/
structure Verifying (H : Bytes → Bytes32) (K : K256) (cfg : Cfg) (w : Walked) (d n : Nat)
    (levels : List Verified) (st : VerifyState) : Prop where
  levelOf : List.Forall₂ (LevelOf H K cfg) (w.projs.drop n) levels
  allocated : Allocated (w.proofs.drop n) levels
  leaves : st.out.leaves = levels.reverse.flatMap Verified.leaves
  seen : st.seen = (st.out.leaves.map Leaf.sid).reverse
  nodup : st.seen.Nodup
  depth : st.out.depth = d
  parent : st.parent.map Parent.amount = levels.head?.map Verified.amount
  amount : ∀ lv, levels.getLast? = some lv → st.out.amount = lv.amount
  part : n = 0 → ∀ lv, levels.head? = some lv → st.out.partAmount = lv.amount

theorem Verifying.start (cfg : Cfg) (w : Walked) (d : Nat) (hprojs : w.projs.length = d + 1)
    (hproofs : w.proofs.length = d) :
    Verifying H K cfg w d (d + 1) [] (.start d) := by
  have h1 : w.projs.drop (d + 1) = [] := by simp [hprojs]
  have h2 : w.proofs.drop (d + 1) = [] := by simp [hproofs]
  exact ⟨by rw [h1]; exact .nil, by rw [h2]; trivial, rfl, rfl, List.nodup_nil, rfl, rfl, by simp,
    by simp⟩

/-- The step: level `i` extends the levels above it. -/
theorem Verifying.step {cfg : Cfg} {w : Walked} {d i : Nat} {levels : List Verified}
    {st st' : VerifyState} {lv : Verified} (hprojs : w.projs.length = d + 1)
    (hproofs : w.proofs.length = d) (hv : Verifying H K cfg w d (i + 1) levels st)
    (hs : Stepped H K cfg w d i st lv st') : Verifying H K cfg w d i (lv :: levels) st' := by
  obtain ⟨proj, hproj, hlevel⟩ := hs.level
  have hlv := level_ok hlevel
  have hi : i < w.projs.length := (List.getElem?_eq_some_iff.mp hproj).1
  have hdrop : w.projs.drop i = proj :: w.projs.drop (i + 1) := by
    rw [List.drop_eq_getElem_cons hi, (List.getElem?_eq_some_iff.mp hproj).2]
  have hlen : levels.length = d - i := by
    have := hv.levelOf.length_eq
    rw [List.length_drop, hprojs] at this
    omega
  have hnodup : st'.seen.Nodup := hlv.fresh.2 hv.nodup
  refine ⟨?_, ?_, ?_, ?_, hnodup, ?_, ?_, ?_, ?_⟩
  · rw [hdrop]
    exact .cons ⟨_, _, _, hlevel⟩ hv.levelOf
  · cases levels with
    | nil =>
      have hid : i = d := by simp only [List.length_nil] at hlen; omega
      rw [Allocated]
      simp [hid, hproofs]
    | cons parent rest =>
      have hid : i < d := by simp only [List.length_cons] at hlen; omega
      obtain ⟨p, proof, hp, hproof, hsum⟩ := hs.edge hid
      have hamt : p.amount = parent.amount := by
        have := hv.parent
        simpa [hp] using this
      have hdropp : w.proofs.drop i = proof :: w.proofs.drop (i + 1) := by
        rw [List.drop_eq_getElem_cons (by omega), (List.getElem?_eq_some_iff.mp hproof).2]
      rw [hdropp]
      exact ⟨by rw [← hamt]; exact hsum, hv.allocated⟩
  · rw [hs.leaves, hv.leaves, List.reverse_cons, List.flatMap_append]
    simp
  · rw [hlv.fresh.1, hv.seen, hs.leaves]
    simp
  · rw [hs.depth, hv.depth]
  · rw [hs.parent]
    rfl
  · intro last hlast
    rw [hs.amount]
    cases levels with
    | nil =>
      have hid : i = d := by simp only [List.length_nil] at hlen; omega
      simp only [List.getLast?_singleton, Option.some.injEq] at hlast
      simp [hid, hlast]
    | cons parent rest =>
      have hid : ¬ i = d := by simp only [List.length_cons] at hlen; omega
      rw [if_neg hid]
      refine hv.amount last ?_
      rwa [List.getLast?_cons_cons] at hlast
  · intro h0 head hhead
    simp only [List.head?_cons, Option.some.injEq] at hhead
    rw [← hhead]
    exact hs.part h0

/-- The run: all levels below `n` extend the levels from `n` on. -/
theorem verifyLevels_ok {cfg : Cfg} {w : Walked} {d n : Nat} {levels : List Verified}
    {st st' : VerifyState} {s s' : σ} (hprojs : w.projs.length = d + 1) (hproofs : w.proofs.length = d)
    (hv : Verifying H K cfg w d n levels st)
    (h : verifyLevels H K charge cfg w d n st s = (.ok st', s')) :
    ∃ levels', Verifying H K cfg w d 0 levels' st' := by
  induction n generalizing levels st s with
  | zero =>
    simp only [verifyLevels, Run.pure_apply, Prod.mk.injEq, Except.ok.injEq] at h
    exact ⟨levels, h.1 ▸ hv⟩
  | succ i ih =>
    simp only [verifyLevels, Run.bind_eq_ok] at h
    obtain ⟨st1, s1, hlevel, h⟩ := h
    obtain ⟨lv, hs⟩ := verifyLevel_ok hlevel
    exact ih (hv.step hprojs hproofs hs) h

/-- A lineage that holds: the ancestors of its walk and the levels of its verification. -/
theorem relation_ok {cfgBytes history : Bytes} {out : Outcome} {s s' : σ}
    (h : Lineage.relation H K charge cfgBytes history s = (.ok out, s')) :
    ∃ cfg ancestors levels st, parseCfg H cfgBytes = .ok cfg ∧ Ancestry K history ancestors ∧
      st.out = out ∧
      Verifying H K cfg (Walked.through history ancestors) ancestors.length 0 levels st ∧
      ∃ s1 s2, verifyLevels H K charge cfg (Walked.through history ancestors) ancestors.length
        (ancestors.length + 1) (.start ancestors.length) s1 = (.ok st, s2) := by
  simp only [Lineage.relation, Run.bind_eq_ok, Run.lift_apply, Prod.mk.injEq, Run.pure_apply,
    Except.ok.injEq, Res.sub_eq_ok] at h
  obtain ⟨cfg, _, ⟨hcfg, rfl⟩, _, _, ⟨-, rfl⟩, mint, _, ⟨-, rfl⟩, _, s1, -, w, s2, hwalk, d, _,
    ⟨⟨-, rfl⟩, rfl⟩, st, s3, hlevels, rfl, rfl⟩ := h
  obtain ⟨ancestors, hanc, hproofs, hprojs⟩ :=
    walk_ok hwalk (show [history].getLast? = some history from rfl)
  obtain rfl : w = Walked.through history ancestors := by
    cases w
    simp_all [Walked.through]
  have hlen : (Walked.through history ancestors).projs.length - 1 = ancestors.length := by
    simp [Walked.through]
  rw [hlen] at hlevels
  have hprojs' : (Walked.through history ancestors).projs.length = ancestors.length + 1 := by
    simp [Walked.through]
  have hproofs' : (Walked.through history ancestors).proofs.length = ancestors.length := by
    simp [Walked.through]
  obtain ⟨levels, hv⟩ := verifyLevels_ok hprojs' hproofs'
    (Verifying.start cfg _ _ hprojs' hproofs') hlevels
  exact ⟨cfg, ancestors, levels, st, hcfg, hanc, rfl, hv, s2, s3, hlevels⟩

/-! ## Consequences for the leaves -/

/-- The leaves of the levels are the leaves of the ancestors' projections. -/
theorem leaves_of_levels {cfg : Cfg} {ancestors : List Ancestor}
    {levels : List Verified} (hleaves : ∀ a ∈ ancestors, ∀ n, transferCount a.proj = .ok n →
      a.leaves = 1 + n)
    (hlevels : List.Forall₂ (LevelOf H K cfg) (ancestors.map Ancestor.proj) levels) :
    (levels.map fun lv => lv.leaves.length).sum = (ancestors.map Ancestor.leaves).sum := by
  induction ancestors generalizing levels with
  | nil =>
    cases hlevels
    rfl
  | cons a rest ih =>
    cases hlevels with
    | cons hlv hrest =>
      obtain ⟨n, hn, hlen⟩ := hlv.count
      have hmore := ih (fun b hb => hleaves b (by simp [hb])) hrest
      have ha := hleaves a (by simp) n hn
      simp only [List.map_cons, List.sum_cons, hmore, hlen, ha]

theorem length_reverse_flatMap (levels : List Verified) :
    (levels.reverse.flatMap Verified.leaves).length = (levels.map fun lv => lv.leaves.length).sum := by
  rw [List.length_flatMap, List.map_reverse, List.sum_reverse]

/-- The leaves of a lineage are those of its outer history and of its ancestors' projections. -/
theorem relation_leaves {cfgBytes history : Bytes} {out : Outcome} {s s' : σ}
    (h : Lineage.relation H K charge cfgBytes history s = (.ok out, s')) :
    ∃ n ancestors, transferCount history = .ok n ∧ Ancestry K history ancestors ∧
      out.leaves.length = 1 + n + (ancestors.map Ancestor.leaves).sum := by
  obtain ⟨cfg, ancestors, levels, st, -, hanc, rfl, hv, -⟩ := relation_ok h
  have hlevels : List.Forall₂ (LevelOf H K cfg) (history :: ancestors.map Ancestor.proj) levels :=
    hv.levelOf
  have hlen : st.out.leaves.length = (levels.map fun lv => lv.leaves.length).sum := by
    rw [hv.leaves, length_reverse_flatMap]
  cases hlevels with
  | @cons _ part _ rest hpart hrest =>
    obtain ⟨n, hn, hpartLen⟩ := hpart.count
    refine ⟨n, ancestors, hn, hanc, ?_⟩
    rw [hlen, List.map_cons, List.sum_cons, leaves_of_levels hanc.leaves_eq hrest, hpartLen]

/-! ## Consequences for the amounts -/

theorem Allocated.isChain {proofs : List Proof} {levels : List Verified}
    (h : Allocated proofs levels) :
    levels.IsChain (fun child parent => U256.toNat child.amount ≤ U256.toNat parent.amount) := by
  induction levels generalizing proofs with
  | nil => exact .nil
  | cons child rest ih =>
    cases rest with
    | nil => exact .singleton _
    | cons parent rest =>
      cases proofs with
      | nil => exact absurd h (by simp [Allocated])
      | cons proof proofs => exact .cons_cons (by have := h.1; omega) (ih h.2)

/-- From the part to the root the amount grows by all sums of all proofs. -/
theorem Allocated.total {proofs : List Proof} {levels : List Verified} {part root : Verified}
    (h : Allocated proofs levels) (hpart : levels.head? = some part)
    (hroot : levels.getLast? = some root) :
    U256.toNat root.amount = U256.toNat part.amount + (proofs.map proofSum).sum := by
  induction levels generalizing proofs part with
  | nil => simp at hpart
  | cons child rest ih =>
    obtain rfl : child = part := by simpa using hpart
    cases rest with
    | nil =>
      obtain rfl : child = root := by simpa using hroot
      rw [Allocated] at h
      simp [h]
    | cons parent rest =>
      cases proofs with
      | nil => exact absurd h (by simp [Allocated])
      | cons proof proofs =>
        have hsum := h.1
        have hrest := ih h.2 rfl (by rwa [List.getLast?_cons_cons] at hroot)
        simp only [List.map_cons, List.sum_cons]
        omega

end Levels

end Relation

end Ureth.Source.B2
