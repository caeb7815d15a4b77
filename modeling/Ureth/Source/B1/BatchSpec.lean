import Ureth.Source.B1.Batch
import Ureth.Source.B1.CertificateReaders

/-!
# What a batch scan accepts

A request is its header and its packed claims in a row. Each claim is read from
its own packed bytes alone; what the claims share are three budgets, of items, of
paths and of signatures. So a scan succeeds exactly if every claim reads and the
sums stay within the limits, in whatever order the claims stand.
-/

namespace Ureth.Source.B1
open Ureth.Foundation
open Cbor (Item consumed_append maxItems maxItems_lt)

/-! ## One packed claim -/

/-- The bytes of a parsed claim are a head and a certificate. -/
theorem parseClaim_split {r rest : Bytes} {tokens tokens' : Nat} {p : Parsed}
    (h : parseClaim r tokens = .ok (p, rest, tokens')) :
    ∃ head raw, ClaimHead.Valid head ∧ raw.length ≤ 24576 ∧ r = head.pack raw ++ rest := by
  simp only [parseClaim, Res.bind_eq_ok, Prod.exists, Res.refuse_eq_ok, exists_const, uint_eq_ok, take_eq_ok,
    Res.pure_eq_ok, Prod.mk.injEq, not_lt] at h
  obtain ⟨partition, _, ⟨bp, hbp, rfl, rfl⟩, sl, _, ⟨bs, hbs, rfl, rfl⟩, -, shard, _, ⟨hshard, rfl⟩, depth,
    hdepth, config, _, ⟨hconfig, rfl⟩, state, _, ⟨hstate, rfl⟩, irHash, _, ⟨hir, rfl⟩, ucLen, _,
    ⟨bu, hbu, rfl, rfl⟩, hlen, raw, _, ⟨hraw, rfl⟩, it, _, -, uc, -, body, -, -, rfl, -⟩ := h
  have hpartition : beBytes 4 (beNat bp) = bp := by rw [← hbp, beBytes_beNat]
  have hsl : beBytes 2 shard.length = bs := by rw [hshard, ← hbs, beBytes_beNat]
  have hul : beBytes 4 raw.length = bu := by rw [hraw, ← hbu, beBytes_beNat]
  refine ⟨⟨beNat bp, shard, config, state, irHash⟩, raw, ⟨?_, ⟨depth, hdepth⟩, hconfig, hstate, hir⟩, ?_, ?_⟩
  · have := beNat_lt bp
    rw [hbp] at this
    exact this
  · rw [hraw]
    exact hlen
  · simp only [ClaimHead.pack, hpartition, hsl, hul, List.append_assoc]

/-- A claim reads from its own bytes; before other bytes and after other items it reads the same, as far
as the item budget allows. -/
theorem parseClaim_append {b rest : Bytes} {tokens tokens' : Nat} {p : Parsed} :
    parseClaim (b ++ rest) tokens = .ok (p, rest, tokens') ↔
      ∃ n, parseClaim b 0 = .ok (p, [], n) ∧ tokens' = tokens + n ∧ tokens' ≤ maxItems := by
  have hone : ∀ (raw : Bytes) (tokens tokens' : Nat) (it : Item), Cbor.one raw tokens = .ok (it, tokens') ↔
      ∃ n, Cbor.one raw 0 = .ok (it, n) ∧ tokens' = tokens + n ∧ tokens' ≤ maxItems := by
    intro raw tokens tokens' it
    simp only [Cbor.one, Cbor.oneCapped, Cbor.oneWith_eq_ok maxItems_lt]
    constructor
    · rintro ⟨t, hacc, rfl, rfl, rfl, hle⟩
      exact ⟨t.count, ⟨t, hacc, rfl, rfl, (Nat.zero_add _).symm, by omega⟩, rfl, hle⟩
    · rintro ⟨_, ⟨t, hacc, rfl, rfl, rfl, -⟩, rfl, hle⟩
      exact ⟨t, hacc, rfl, rfl, by omega, hle⟩
  constructor
  · intro h
    obtain ⟨head, raw, hv, hraw, hsplit⟩ := parseClaim_split h
    obtain rfl := List.append_cancel_right hsplit
    obtain ⟨-, it, uc, body, hit, huc, hbody, rfl⟩ := (parseClaim_pack hv hraw).mp h
    obtain ⟨n, hn, rfl, hle⟩ := (hone _ _ _ _).mp hit
    refine ⟨n, ?_, rfl, hle⟩
    have hnil : parseClaim (head.pack raw ++ []) 0 = .ok (head.parsed uc body, [], n) :=
      (parseClaim_pack hv hraw).mpr ⟨rfl, it, uc, body, hn, huc, hbody, rfl⟩
    rwa [List.append_nil] at hnil
  · rintro ⟨n, h, rfl, hle⟩
    obtain ⟨head, raw, hv, hraw, hsplit⟩ := parseClaim_split h
    rw [List.append_nil] at hsplit
    subst hsplit
    rw [← List.append_nil (head.pack raw)] at h
    obtain ⟨-, it, uc, body, hit, huc, hbody, rfl⟩ := (parseClaim_pack hv hraw).mp h
    exact (parseClaim_pack hv hraw).mpr ⟨rfl, it, uc, body, (hone _ _ _ _).mpr ⟨n, hit, rfl, hle⟩, huc, hbody,
      rfl⟩

namespace Occurrence

/-- The items of a claim's certificate. -/
def items (o : Occurrence) : Nat := ((parseClaim o.packed 0).value?.map fun x => x.2.2).getD 0

def parsed (o : Occurrence) : Parsed := ⟨o.claim, o.paths, o.sigs⟩

/-- The occurrence is what its own packed bytes read as, within the bounds on a single claim. -/
structure Reads (o : Occurrence) : Prop where
  parse : parseClaim o.packed 0 = .ok (o.parsed, [], o.items)
  sigs : o.sigs ≤ maxSealSignatures
  depth : checkDepth o.claim = .ok ()

theorem Reads.of_parse {o : Occurrence} {n : Nat} (h : parseClaim o.packed 0 = .ok (o.parsed, [], n))
    (hsigs : o.sigs ≤ maxSealSignatures) (hdepth : checkDepth o.claim = .ok ()) : o.Reads ∧ o.items = n := by
  have hn : o.items = n := by simp [items, h, Res.value?]
  exact ⟨⟨by rw [hn]; exact h, hsigs, hdepth⟩, hn⟩

/-- Occurrences of the same bytes are the same. -/
theorem Reads.eq {o o' : Occurrence} (h : o.Reads) (h' : o'.Reads) (hpacked : o.packed = o'.packed) : o = o' := by
  have hp := h.parse
  rw [hpacked, h'.parse] at hp
  obtain ⟨c, packed, paths, sigs⟩ := o
  obtain ⟨c', packed', paths', sigs'⟩ := o'
  simp only [parsed, Except.ok.injEq, Prod.mk.injEq, Parsed.mk.injEq] at hp
  obtain ⟨⟨rfl, rfl, rfl⟩, -⟩ := hp
  obtain rfl : packed = packed' := hpacked
  rfl

theorem Reads.items_le {o : Occurrence} (h : o.Reads) : o.items ≤ maxItems := by
  have hp := h.parse
  rw [← List.append_nil o.packed] at hp
  obtain ⟨n, -, hn, hle⟩ := parseClaim_append.mp hp
  exact hle

end Occurrence

/-! ## The claims of a request -/

/-- The bytes of the claims in a row. -/
def packedAll (occurrences : List Occurrence) : Bytes := occurrences.flatMap Occurrence.packed

/-- Where the items of the call stand against their budget. -/
def Limits.ItemsFit (lim : Limits) (tokens : Nat) (occurrences : List Occurrence) : Prop :=
  lim.perUcItems = false → tokens + (occurrences.map Occurrence.items).sum ≤ maxItems

/-- The loop over the claims succeeds exactly if each of them reads and the sums fit. -/
theorem scanClaims_iff {lim : Limits} (hword : lim.rawPaths < 2 ^ 64) {k : Nat} {data rest : Bytes}
    {tokens rawPaths : Nat} (htokens : tokens ≤ maxItems) (hpaths : rawPaths ≤ lim.rawPaths)
    {occurrences : List Occurrence} :
    scanClaims lim k data tokens rawPaths = .ok (occurrences, rest) ↔
      occurrences.length = k ∧ data = packedAll occurrences ++ rest ∧ (∀ o ∈ occurrences, o.Reads) ∧
        lim.ItemsFit tokens occurrences ∧
        rawPaths + (occurrences.map Occurrence.paths).sum ≤ lim.rawPaths := by
  induction k generalizing data tokens rawPaths occurrences with
  | zero =>
    simp only [scanClaims, Except.ok.injEq, Prod.mk.injEq]
    constructor
    · rintro ⟨rfl, rfl⟩
      exact ⟨rfl, rfl, by simp, fun _ => by simpa using htokens, by simpa using hpaths⟩
    · rintro ⟨hlen, rfl, -⟩
      rw [List.eq_nil_of_length_eq_zero hlen]
      exact ⟨rfl, rfl⟩
  | succ k ih =>
    simp only [scanClaims, Res.bind_eq_ok, Prod.exists, Res.u64_eq_ok, Res.refuse_eq_ok, exists_const,
      Res.pure_eq_ok, Prod.mk.injEq, not_or, not_lt]
    constructor
    · rintro ⟨p, after, tokens', hparse, packed, hpacked, _, ⟨hsmall, rfl⟩, ⟨hraw, hsigs⟩, _, hdepth, more,
        _, hmore, rfl, rfl⟩
      obtain ⟨head, raw, -, -, hsplit⟩ := parseClaim_split hparse
      rw [hsplit, consumed_append] at hpacked
      obtain rfl := Except.ok.inj hpacked
      rw [hsplit] at hparse
      obtain ⟨n, hn, rfl, hle⟩ := parseClaim_append.mp hparse
      obtain ⟨hreads, hitems⟩ := Occurrence.Reads.of_parse (o := ⟨p.claim, head.pack raw, p.paths, p.sigs⟩)
        hn hsigs hdepth
      obtain ⟨hlen, rfl, hall, hfit, hsum⟩ := (ih hle hraw).mp hmore
      refine ⟨by rw [List.length_cons, hlen], ?_, ?_, ?_, ?_⟩
      · rw [hsplit, packedAll, packedAll, List.flatMap_cons, List.append_assoc]
      · exact List.forall_mem_cons.mpr ⟨hreads, hall⟩
      · intro hshared
        have hrest := hfit hshared
        rw [List.map_cons, List.sum_cons, hitems]
        simp only [hshared, Bool.false_eq_true, if_false] at hrest
        omega
      · rw [List.map_cons, List.sum_cons]
        dsimp only
        omega
    · rintro ⟨hlen, hdata, hall, hfit, hsum⟩
      obtain ⟨o, more, rfl⟩ := List.exists_cons_of_length_eq_add_one hlen
      rw [List.forall_mem_cons] at hall
      obtain ⟨hreads, hall⟩ := hall
      rw [List.map_cons, List.sum_cons] at hsum
      have hitems := hreads.items_le
      have hparsed : o.parsed.paths = o.paths := rfl
      have hle : (if lim.perUcItems then 0 else tokens) + o.items ≤ maxItems := by
        cases hper : lim.perUcItems with
        | true => simpa using hitems
        | false =>
          have := hfit hper
          rw [List.map_cons, List.sum_cons] at this
          simp only [Bool.false_eq_true, if_false]
          omega
      have hsplit : data = o.packed ++ (packedAll more ++ rest) := by
        rw [hdata, packedAll, packedAll, List.flatMap_cons, List.append_assoc]
      rw [hsplit]
      refine ⟨o.parsed, _, _, parseClaim_append.mpr ⟨o.items, hreads.parse, rfl, hle⟩, o.packed,
        consumed_append _ _, rawPaths + o.parsed.paths, ⟨by omega, rfl⟩, ⟨by omega, hreads.sigs⟩, (), hreads.depth,
        more, rest, ?_, rfl, rfl⟩
      refine (ih hle (by omega)).mpr ⟨by simpa using hlen, rfl, hall, ?_, ?_⟩
      · intro hshared
        have := hfit hshared
        rw [List.map_cons, List.sum_cons] at this
        simp only [hshared, Bool.false_eq_true, if_false]
        omega
      · omega

/-! ## The whole scan -/

/-- The request of some claims. -/
def request (occurrences : List Occurrence) : Bytes :=
  [2, 0] ++ beBytes 2 occurrences.length ++ packedAll occurrences

/-- The dimensions of a request of `bytes` bytes. -/
def dimensionsOf (bytes : Nat) (occurrences : List Occurrence) : Dimensions where
  c := bytes
  k := occurrences.length
  e := (firstBy (·.claim.epoch) (distinct occurrences)).length
  s := (firstBy Occurrence.sealRaw (distinct occurrences)).length
  q := ((firstBy Occurrence.sealRaw (distinct occurrences)).map Occurrence.sigs).sum
  a := (distinct occurrences).length
  p := ((distinct occurrences).map Occurrence.paths).sum

/-- Limits whose bounds are machine words, the claims' a `u16`. -/
structure Limits.Word (lim : Limits) : Prop where
  claims : lim.claims < 2 ^ 16
  signatures : lim.signatures < 2 ^ 64
  rawPaths : lim.rawPaths < 2 ^ 64

theorem Limits.standard_word : Limits.standard.Word := ⟨by decide, by decide, by decide⟩

theorem Limits.composed_word : Limits.composed.Word := ⟨by decide, by decide, by decide⟩

/-- The claims that a scan under some limits accepts. -/
structure Acceptable (lim : Limits) (occurrences : List Occurrence) : Prop where
  some : 1 ≤ occurrences.length
  few : occurrences.length ≤ lim.claims
  reads : ∀ o ∈ occurrences, o.Reads
  items : lim.ItemsFit 0 occurrences
  paths : (occurrences.map Occurrence.paths).sum ≤ lim.rawPaths
  sigs : ((firstBy Occurrence.sealRaw (distinct occurrences)).map Occurrence.sigs).sum ≤ lim.signatures

theorem sum_distinct_paths_le (occurrences : List Occurrence) :
    ((distinct occurrences).map Occurrence.paths).sum ≤ (occurrences.map Occurrence.paths).sum :=
  ((firstBy_sublist Occurrence.packed occurrences).map _).sum_le_sum fun _ _ => Nat.zero_le _

theorem group_iff {lim : Limits} (hlim : lim.Word) {c : Nat} {occurrences : List Occurrence} {d : Dimensions}
    (hpaths : (occurrences.map Occurrence.paths).sum ≤ lim.rawPaths) :
    group lim c occurrences.length occurrences = .ok d ↔
      ((firstBy Occurrence.sealRaw (distinct occurrences)).map Occurrence.sigs).sum ≤ lim.signatures ∧
        d = dimensionsOf c occurrences := by
  have hsum := sum_distinct_paths_le occurrences
  have hp := hlim.rawPaths
  have hs := hlim.signatures
  simp only [group, Res.bind_eq_ok, Res.u64_eq_ok, Res.refuse_eq_ok, exists_const, Res.pure_eq_ok, not_lt]
  constructor
  · rintro ⟨_, ⟨-, rfl⟩, _, ⟨-, rfl⟩, hle, rfl⟩
    exact ⟨hle, rfl⟩
  · rintro ⟨hle, rfl⟩
    exact ⟨_, ⟨by omega, rfl⟩, _, ⟨by omega, rfl⟩, hle, rfl⟩

/-- A scan succeeds exactly on the requests of acceptable claims whose scanning is paid for. -/
theorem scan_iff {ε : Type} {lim : Limits} (hlim : lim.Word) {input : Bytes} {gas : Nat} {s : Scanned} :
    (scan input gas lim : Res (Error ε) Scanned) = .ok s ↔
      input = request s.occurrences ∧ Acceptable lim s.occurrences ∧
        s.dims = dimensionsOf input.length s.occurrences ∧
        ∃ need, (scanGas input.length s.occurrences.length : Res (Error ε) Nat) = .ok need ∧ need ≤ gas := by
  have hclaims := hlim.claims
  simp only [scan, scanHeader, Res.bind_eq_ok, Res.mapErr_eq_ok, Prod.exists, Res.refuse_eq_ok, exists_const,
    uint_eq_ok, Res.pure_eq_ok, Prod.mk.injEq, not_not, not_or, not_lt]
  constructor
  · rintro ⟨k, _, ⟨v, _, ⟨bv, hbv, rfl, rfl⟩, hv, f, _, ⟨bf, hbf, rfl, rfl⟩, hf, _, _, ⟨bk, hbk, rfl, rfl⟩,
      ⟨hpos, hfew⟩, rfl, rfl⟩, need, hneed, hgas, occurrences, _, hclaimed, rfl, dims, hdims, rfl⟩
    obtain ⟨hlen, rfl, hreads, hitems, hpaths⟩ :=
      (scanClaims_iff hlim.rawPaths (Nat.zero_le _) (Nat.zero_le _)).mp hclaimed
    rw [Nat.zero_add] at hpaths
    rw [← hlen] at hdims hneed hfew hpos
    obtain ⟨hsigs, rfl⟩ := (group_iff hlim hpaths).mp hdims
    refine ⟨?_, ⟨Nat.one_le_iff_ne_zero.mpr hpos, hfew, hreads, hitems, hpaths, hsigs⟩, rfl, need, hneed, hgas⟩
    have hbv' : bv = [2] := by
      have := beBytes_beNat bv
      rw [hbv, hv] at this
      exact this.symm
    have hbf' : bf = [0] := by
      have := beBytes_beNat bf
      rw [hbf, hf] at this
      exact this.symm
    have hbk' : bk = beBytes 2 occurrences.length := by
      rw [hlen, ← hbk, beBytes_beNat]
    rw [hbv', hbf', hbk', request, List.append_nil]
    rfl
  · rintro ⟨rfl, hacc, hdims, need, hneed, hgas⟩
    have hfew := hacc.few
    have hsome := hacc.some
    have hk : beNat (beBytes 2 s.occurrences.length) = s.occurrences.length := by
      rw [beNat_beBytes, Nat.mod_eq_of_lt (by omega)]
    refine ⟨s.occurrences.length, packedAll s.occurrences, ⟨2, _, ⟨[2], rfl, rfl, ?_⟩, rfl, 0, _,
      ⟨[0], rfl, rfl, rfl⟩, rfl, s.occurrences.length, packedAll s.occurrences,
      ⟨beBytes 2 s.occurrences.length, beBytes_length _ _, hk, rfl⟩, ⟨by omega, hfew⟩, rfl, rfl⟩, need, hneed, hgas,
      s.occurrences, [], ?_, rfl, s.dims, ?_, rfl⟩
    · simp [request]
    · exact (scanClaims_iff hlim.rawPaths (Nat.zero_le _) (Nat.zero_le _)).mpr
        ⟨rfl, (List.append_nil _).symm, hacc.reads, hacc.items, by simpa using hacc.paths⟩
    · exact (group_iff hlim hacc.paths).mpr ⟨hacc.sigs, hdims⟩

end Ureth.Source.B1
