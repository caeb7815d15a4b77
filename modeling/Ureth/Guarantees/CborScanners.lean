import Ureth.Guarantees.LineageAccounting

/-!
# The two CBOR scanners

What the strict scan accepts, how the two scanners relate, and that iterating over the
children of anything a scan has accepted never fails. Every parser of the B1 and B2 calls
reads its input through these scans, and the composition pays for a history by one of
them what the kernel then scans by the other.
-/

namespace Ureth.Guarantees
open Ureth.Foundation Ureth.Source
open Ureth.Foundation.Cbor (Value)
open Ureth.Source.B1.Cbor (usizeMax usizeMax_lt maxItems maxItems_lt)

/-- **The strict scan.** `one` accepts the encodings of the items of its grammar that fit the
budget, adds the item's count and returns the item of the whole input; a string encodes at
most one item. What it accepts the typed scan accepts, and what that accepts the loose scan
accepts, with the same root and count. -/
theorem strict_scan_exact (data : Bytes) (tokens : Nat) :
    (∀ root tokens', B1.Cbor.one data tokens = .ok (root, tokens') ↔
      ∃ t, B1.Cbor.Grammar B1.Cbor.maxDepth t ∧ data = t.encode ∧ root = B1.Cbor.itemOf t ∧
        root.raw = data ∧ tokens' = tokens + t.count ∧ tokens + t.count ≤ maxItems) ∧
      (∀ t u, B1.Cbor.Grammar B1.Cbor.maxDepth t → B1.Cbor.Grammar B1.Cbor.maxDepth u →
        data = t.encode → data = u.encode → t = u) ∧
      ∀ cap < 2 ^ 64, ∀ result,
        (B1.Cbor.oneCapped data tokens cap = .ok result → B1.Cbor.oneTyped data tokens cap = .ok result) ∧
        (B1.Cbor.oneTyped data tokens cap = .ok result → B1.Cbor.oneLoose data tokens cap = .ok result) := by
  refine ⟨fun root tokens' => ?_, fun t u ht hu htd hud => ?_, fun cap hcap result => ⟨?_, ?_⟩⟩
  · rw [B1.Cbor.one, B1.Cbor.oneCapped, B1.Cbor.oneWith_eq_ok maxItems_lt]
    constructor
    · rintro ⟨t, hacc, rfl, rfl, rfl, hcap⟩
      exact ⟨t, B1.Cbor.grammar_of_accepted hacc, rfl, rfl, rfl, rfl, hcap⟩
    · rintro ⟨t, hgrammar, rfl, rfl, -, rfl, hcap⟩
      exact ⟨t, B1.Cbor.accepted_of_grammar hgrammar, rfl, rfl, rfl, hcap⟩
  · have hfits {v : Value} (hv : B1.Cbor.Grammar B1.Cbor.maxDepth v) : Value.All Value.Fits v :=
      (B1.Cbor.accepted_of_grammar hv).2.imp fun _ hn => hn.fits
    exact Value.encode_inj (hfits ht) (hfits hu) (htd.symm.trans hud)
  · exact B1.Cbor.oneWith_loosen hcap (by simp) (by simp)
  · exact B1.Cbor.oneWith_loosen hcap (by simp) (by simp)

/-- A map of one pair, scanned after seven other items. -/
theorem strict_scan_exact_pair :
    ∃ root, B1.Cbor.oneLoose [0xa1, 0x01, 0xf6] 7 maxItems = .ok (root, 10) ∧
      ∃ t, B1.Cbor.Grammar B1.Cbor.maxDepth t ∧ Value.encode t = [0xa1, 0x01, 0xf6] := by
  obtain ⟨hexact, -, hloosen⟩ := strict_scan_exact [0xa1, 0x01, 0xf6] 7
  have hscan : B1.Cbor.one [0xa1, 0x01, 0xf6] 7 = .ok (⟨[0xa1, 0x01, 0xf6], 5, 1, [0x01, 0xf6]⟩, 10) := by
    decide
  obtain ⟨t, hgrammar, hdata, -⟩ := (hexact _ _).mp hscan
  obtain ⟨htyped, hloose⟩ := hloosen maxItems maxItems_lt _
  exact ⟨_, hloose (htyped hscan), t, hgrammar, hdata.symm⟩

/-- **Two scanners.** The native B2 scan and the loose B1 scan accept the same strings under
one cap, with one count and one root; the ordinary B2 scan accepts those of them that hold no
text string and no map. So the items and leaves that the composition pays for a history the
kernel accepts are those the kernel scans and verifies in it. -/
theorem scanners_agree :
    (∀ cap < 2 ^ 64, ∀ data root n,
      (B2.Cbor.one data (.nativeMode cap) = .ok (B2.Cbor.sameItem root) ∧
        B2.Cbor.scan (.nativeMode cap) B2.Cbor.maxDepth data 0 = .ok ([], n)) ↔
      B1.Cbor.oneLoose data 0 cap = .ok (root, n)) ∧
    (∀ cap < 2 ^ 64, ∀ data root,
      B2.Cbor.one data (.perObject cap) = .ok root ↔
        B2.Cbor.one data (.nativeMode cap) = .ok root ∧
          ∃ t, data = t.encode ∧ Value.All Value.Fits t ∧ B2.Cbor.Plain t) ∧
    (∀ (H : Bytes → Bytes32) (K : K256) op cfg history charge out, op ≠ 0 →
      B2.relation H K op cfg history charge = .ok out →
      ∃ n, B2.Cbor.scan (.perObject usizeMax) B2.Cbor.maxDepth history 0 = .ok ([], n) ∧
        (Bridge.historyItems history : Res Empty Nat) = .ok n ∧
        (Bridge.historyLeaves history : Res Empty Nat) = .ok out.leaves.length) ∧
    ∀ (H : Bytes → Bytes32) (K : K256) (σ : Type) (charge : Nat → Run σ B2.Error Unit) cfg history out s s',
      B2.Lineage.relation H K charge cfg history s = (.ok out, s') →
      ∃ n m ancestors, B2.Cbor.scan (.perObject usizeMax) B2.Cbor.maxDepth history 0 = .ok ([], n) ∧
        (Bridge.historyItems history : Res Empty Nat) = .ok n ∧
        (Bridge.historyLeaves history : Res Empty Nat) = .ok m ∧ B2.Ancestry K history ancestors ∧
        out.leaves.length = m + (ancestors.map B2.Ancestor.leaves).sum := by
  refine ⟨fun cap hcap data root n => B2.Cbor.native_iff_loose hcap,
    fun cap hcap data root => B2.Cbor.perObject_iff_native hcap, ?_, ?_⟩
  · intro H K op cfg history charge out hop h
    obtain ⟨p, m, hp, hm, hlen⟩ := Bridge.kernel_leaves hop h
    obtain ⟨n, hscan, hitems⟩ := Bridge.historyItems_of_one hp
    exact ⟨n, hscan, hitems, by rw [hlen]; exact Bridge.historyLeaves_eq hm⟩
  · intro H K σ charge cfg history out s s' h
    obtain ⟨m, ancestors, hm, hanc, hlen⟩ := B2.relation_leaves h
    have hone : ∃ p, B2.Cbor.one history (.perObject usizeMax) = .ok p := by
      simp only [B2.transferCount, Res.bind_eq_ok] at hm
      obtain ⟨p, hp, -⟩ := hm
      exact ⟨p, hp⟩
    obtain ⟨p, hp⟩ := hone
    obtain ⟨n, hscan, hitems⟩ := Bridge.historyItems_of_one hp
    exact ⟨n, 1 + m, ancestors, hscan, hitems, Bridge.historyLeaves_eq hm, hanc, hlen⟩

/-- A tagged empty array and the recorded return: the paid leaves of the return are its three. -/
theorem scanners_agree_recorded :
    (∃ root n, B1.Cbor.oneLoose [0xc1, 0x80] 0 maxItems = .ok (root, n)) ∧
      ∃ m, (Bridge.historyLeaves recordedReturn : Res Empty Nat) = .ok m ∧ m ≤ 3 := by
  obtain ⟨hnative, -, -, hlineage⟩ := scanners_agree
  have hone : B2.Cbor.one [0xc1, 0x80] (.nativeMode maxItems) = .ok ⟨[0xc1, 0x80], 6, 1, [0x80]⟩ := by decide
  have hscan : B2.Cbor.scan (.nativeMode maxItems) B2.Cbor.maxDepth [0xc1, 0x80] 0 = .ok ([], 2) := by decide
  refine ⟨⟨⟨[0xc1, 0x80], 6, 1, [0x80]⟩, 2, (hnative maxItems maxItems_lt _ _ _).mp ⟨hone, hscan⟩⟩, ?_⟩
  have hrun := recordedReturn_holds
  rcases hrel : B2.Lineage.relation Sha256.sha256 recordedKeys freeCharge recordedCfg recordedReturn ()
    with ⟨_ | out, u⟩
  · rw [hrel] at hrun
    simp [Res.value?] at hrun
  · rw [hrel] at hrun
    simp only [Res.value?, Option.map_some, Option.some.injEq, Prod.mk.injEq] at hrun
    obtain ⟨n, m, ancestors, -, -, hm, -, hlen⟩ := hlineage _ _ _ _ _ _ _ _ _ hrel
    exact ⟨m, hm, by omega⟩

/-- **Child iteration.** From the root of any accepted scan, by iterating over the children of
what is reached: a container or null iterates without a panic over as many children as its
head says, each of which scans on its own, and their bytes make up its content. -/
theorem child_iteration :
    (∀ it, B1.Cbor.Reached it → (4 ≤ it.major ∧ it.major ≤ 6 ∨ it.null = true) →
      ∃ kids, (it.children : Res Empty (List B1.Cbor.Item)) = .ok kids ∧
        (it.major = 4 → kids.length = it.arg) ∧ (it.major = 5 → kids.length = 2 * it.arg) ∧
        (it.major = 6 → kids.length = 1) ∧ (it.null = true → kids.length = 0) ∧
        (∀ k ∈ kids, ∃ n, B1.Cbor.oneLoose k.raw 0 usizeMax = .ok (k, n)) ∧
        (kids.map B1.Cbor.Item.raw).flatten = it.data) ∧
    ∀ it, B2.Cbor.Reached it → (4 ≤ it.major ∧ it.major ≤ 6 ∨ it.null = true) →
      ∃ kids, it.children = .ok kids ∧
        (it.major = 4 → kids.length = it.arg) ∧ (it.major = 5 → kids.length = 2 * it.arg) ∧
        (it.major = 6 → kids.length = 1) ∧ (it.null = true → kids.length = 0) ∧
        (∀ k ∈ kids, B2.Cbor.one k.raw (.nativeMode usizeMax) = .ok k) ∧
        (kids.map B2.Cbor.Item.raw).flatten = it.data := by
  refine ⟨fun it hreached hkind => ?_, fun it hreached hkind => ?_⟩
  · have h23 : it.major ≠ 2 ∧ it.major ≠ 3 := by
      rcases hkind with h | h
      · omega
      · have := B1.Cbor.major_of_null h
        omega
    obtain ⟨kids, hkids, hlen, hscanned, hflat⟩ := hreached.scanned.iterate h23.1 h23.2
    refine ⟨kids, hkids, ?_, ?_, ?_, ?_, fun k hk => (hscanned k hk).rescans, hflat⟩
    · exact fun h => by rw [hlen, h]; rfl
    · exact fun h => by rw [hlen, h]; rfl
    · exact fun h => by rw [hlen, h]; rfl
    · exact fun h => by rw [hlen, B1.Cbor.major_of_null h]; rfl
  · have h23 : it.major ≠ 2 ∧ it.major ≠ 3 := by
      rcases hkind with h | h
      · omega
      · have := B2.Cbor.major_of_null h
        omega
    obtain ⟨kids, hkids, hlen, hscanned, hflat⟩ := hreached.scanned.iterate h23.1 h23.2
    refine ⟨kids, hkids, ?_, ?_, ?_, ?_, fun k hk => (hscanned k hk).rescans, hflat⟩
    · exact fun h => by rw [hlen, h]; rfl
    · exact fun h => by rw [hlen, h]; rfl
    · exact fun h => by rw [hlen, h]; rfl
    · exact fun h => by rw [hlen, B2.Cbor.major_of_null h]; rfl

/-- A tag around a pair: the pair is reached by one iteration and has two children. -/
theorem child_iteration_pair :
    ∃ kids, (B1.Cbor.Item.children ⟨[0x82, 0x01, 0xf6], 4, 2, [0x01, 0xf6]⟩ :
      Res Empty (List B1.Cbor.Item)) = .ok kids ∧ kids.length = 2 := by
  have hroot : B1.Cbor.Reached ⟨[0xc1, 0x82, 0x01, 0xf6], 6, 1, [0x82, 0x01, 0xf6]⟩ :=
    .root maxItems_lt (show B1.Cbor.oneWith true true [0xc1, 0x82, 0x01, 0xf6] 0 maxItems =
      .ok (⟨[0xc1, 0x82, 0x01, 0xf6], 6, 1, [0x82, 0x01, 0xf6]⟩, 4) by decide)
  have hpair : B1.Cbor.Reached ⟨[0x82, 0x01, 0xf6], 4, 2, [0x01, 0xf6]⟩ :=
    .child hroot (.here (show B1.Cbor.next [0x82, 0x01, 0xf6] =
      .ok (some (⟨[0x82, 0x01, 0xf6], 4, 2, [0x01, 0xf6]⟩, [])) by decide))
  obtain ⟨kids, hkids, harray, -⟩ := child_iteration.1 _ hpair (.inl ⟨by decide, by decide⟩)
  exact ⟨kids, hkids, harray rfl⟩

end Ureth.Guarantees
