import Ureth.Foundation.Sha256
import Ureth.Source.Bridge.HistorySpec

/-!
# Lineage accounting

Amounts, state IDs and leaf counts over all levels of an accepted lineage, at any
split depth.
-/

namespace Ureth.Guarantees
open Ureth.Foundation Ureth.Source Ureth.Source.B2

/-- The transfers of each level, in the order of the levels. -/
theorem counts_of_levels {H : Bytes → Bytes32} {K : K256} {cfg : Cfg} {projs : List Bytes}
    {levels : List Verified} (hlevels : List.Forall₂ (LevelOf H K cfg) projs levels) :
    ∃ counts, List.Forall₂ (fun proj n => transferCount proj = .ok n) projs counts ∧
      (levels.map fun lv => lv.leaves.length).sum = (counts.map fun n => 1 + n).sum := by
  induction hlevels with
  | nil => exact ⟨[], .nil, rfl⟩
  | cons hlv _ ih =>
    obtain ⟨n, hn, hlen⟩ := hlv.count
    obtain ⟨counts, hcounts, hsum⟩ := ih
    exact ⟨n :: counts, .cons hn hcounts, by simp only [List.map_cons, List.sum_cons, hlen, hsum]⟩

/-- The sums of decoded proofs vanish together exactly if no proof has a step. -/
theorem proofSums_eq_zero {ancestors : List Ancestor}
    (h : ∀ a ∈ ancestors, ∀ s ∈ a.proof, 0 < s.sum.toNat) :
    ((ancestors.map Ancestor.proof).map proofSum).sum = 0 ↔ ∀ a ∈ ancestors, a.proof = [] := by
  rw [List.sum_eq_zero_iff]
  simp only [List.map_map, List.mem_map, Function.comp, forall_exists_index, and_imp,
    forall_apply_eq_imp_iff₂]
  exact forall₂_congr fun a ha => proofSum_eq_zero (h a ha)

/-- **Lineage accounting.** For an accepted lineage with its ancestors, nearest
first, and its verified levels, part first: every child's amount is at most its
parent's, the part's amount is the root's exactly if no allocation proof on the
path has a step, all state IDs are distinct, and the leaves are one for each
level's mint and one for each of its transfers, which is what the history's scan
and the ancestors' projections report. -/
theorem lineage_accounting {H : Bytes → Bytes32} {K : K256} {σ : Type}
    {charge : Nat → Run σ Error Unit} {cfgBytes history : Bytes} {out : Outcome} {s s' : σ}
    (h : Lineage.relation H K charge cfgBytes history s = (.ok out, s')) :
    ∃ cfg ancestors levels, parseCfg H cfgBytes = .ok cfg ∧ Ancestry K history ancestors ∧
      List.Forall₂ (LevelOf H K cfg) (history :: ancestors.map Ancestor.proj) levels ∧
      out.depth = ancestors.length ∧
      levels.IsChain (fun child parent => U256.toNat child.amount ≤ U256.toNat parent.amount) ∧
      levels.head?.map Verified.amount = some out.partAmount ∧
      levels.getLast?.map Verified.amount = some out.amount ∧
      U256.toNat out.partAmount ≤ U256.toNat out.amount ∧
      (out.partAmount = out.amount ↔ ∀ a ∈ ancestors, a.proof = []) ∧
      (out.leaves.map Leaf.sid).Nodup ∧
      (∃ counts, List.Forall₂ (fun proj n => transferCount proj = .ok n)
          (history :: ancestors.map Ancestor.proj) counts ∧
        out.leaves.length = (counts.map fun n => 1 + n).sum) ∧
      ∃ outer, (Bridge.historyLeaves history : Res Error Nat) = .ok outer ∧
        out.leaves.length = outer + (ancestors.map Ancestor.leaves).sum := by
  obtain ⟨cfg, ancestors, levels, st, hcfg, hanc, rfl, hv, -⟩ := relation_ok h
  have hlevels : List.Forall₂ (LevelOf H K cfg) (history :: ancestors.map Ancestor.proj) levels :=
    hv.levelOf
  have halloc : Allocated (ancestors.map Ancestor.proof) levels := hv.allocated
  obtain ⟨counts, hcounts, hsum⟩ := counts_of_levels hlevels
  have hlen : st.out.leaves.length = (levels.map fun lv => lv.leaves.length).sum := by
    rw [hv.leaves, length_reverse_flatMap]
  have hnodup : (st.out.leaves.map Leaf.sid).Nodup := by
    have := hv.nodup
    rwa [hv.seen, List.nodup_reverse] at this
  cases hlevels with
  | @cons _ part _ rest hpart hrest =>
    obtain ⟨root, hroot⟩ : ∃ root, (part :: rest).getLast? = some root :=
      ⟨_, List.getLast?_eq_some_getLast (by simp)⟩
    have htotal := halloc.total (show (part :: rest).head? = some part from rfl) hroot
    have hpartAmount : st.out.partAmount = part.amount := hv.part rfl part rfl
    have hrootAmount : st.out.amount = root.amount := hv.amount root hroot
    have hzero := proofSums_eq_zero hanc.proof_pos
    refine ⟨cfg, ancestors, part :: rest, hcfg, hanc, .cons hpart hrest, hv.depth, halloc.isChain, ?_,
      ?_, ?_, ?_, hnodup, ⟨counts, hcounts, by rw [hlen, hsum]⟩, ?_⟩
    · simp [hpartAmount]
    · simp [hroot, hrootAmount]
    · rw [hpartAmount, hrootAmount]
      omega
    · rw [hpartAmount, hrootAmount, ← hzero]
      constructor
      · intro heq
        rw [heq] at htotal
        omega
      · intro hsum0
        exact U256.toNat_inj (by omega)
    · obtain ⟨n, hn, hlenPart⟩ := hpart.count
      refine ⟨1 + n, Bridge.historyLeaves_eq hn, ?_⟩
      have := leaves_of_levels hanc.leaves_eq hrest
      rw [hlen, List.map_cons, List.sum_cons, this, hlenPart]

/-! ## A recorded redemption

The unsplit redemption of the repository's split corpus: a mint, a transfer and
the return burn. -/

def recordedCfg : Bytes :=
  literal 40 0x904e554e49434954595f42525f43464703582067e2612f31a85ec23066459c507457fb48904601f9 ++
  literal 40 0x7239d32e5624072bf638c3197a695820caebeac2ae70681d59863790957a729cde587d8cd58e7646 ++
  literal 40 0xaeffb08daee1b1d50741805432a7fbc6f9b89dc491883f9e14c66180128f7ddc5400000000000000 ++
  literal 40 0x00000000000000000000000000582015d1221607c1642d3d0951caa6dc63498312057e9566ca3f04 ++
  literal 40 0x2c28a7d0e3c5c3582084668297231fe7407894c648db9c5255c937eb41393365674bb127c08efc3b ++
  literal 40 0x3c5820774a6cfc4355b67cd8ad14e46fc047458d34c99b62bb393fcad9e5eda0c6620a54f03c3fad ++
  literal 40 0x7603b8c0433a87ce8e5c6f30d1002ec55820708bb7987b4678fddd8f9301aaa36750b97eb3efe6b8 ++
  literal 40 0x9926e8acaaecfff7db885820630515e749b4049d96de6df090583af5ed3b857c68368bddeba3d437 ++
  literal 38 0xd93ea2a658208821790c225aa50504b70872a7a0966e642ec928064516db740d8b81ef537479

def recordedReturn : Bytes :=
  literal 40 0x8283d99881880203d998788301410158210239691b7920df7764ed526d3b5b71551001de6c99f275 ++
  literal 40 0xaf2e43f8fcdb78ed1cc15820de4a4eaef8c0b2065fcef329694484c1176e9efc9919f7056c6d6c4d ++
  literal 40 0x7558e823582015d1221607c1642d3d0951caa6dc63498312057e9566ca3f042c28a7d0e3c5c35901 ++
  literal 40 0x25d998898602197a695432a7fbc6f9b89dc491883f9e14c66180128f7ddc54000000000000000000 ++
  literal 40 0x0000000000000000000000058801582067c007348bc786d6a4d31f1c55fa35ef5d42e37eec63a7b9 ++
  literal 40 0x1e32594d190a907a5820087d4c552f1076b729cd98a610d5afcacf24f4c0ae72bc201efcc9b69855 ++
  literal 40 0xf2f658205bbc57a6348fcd27d135b919a43b22a1eb434a3491787dd43688a0c9b018b40958203f9f ++
  literal 40 0xba2fc461fea7b116fa80826b9c8ba00cb099a517f3c6268d4e05cb8336a35820794710745b41723f ++
  literal 40 0xfa94cbaf6dbdd764ffe39b982f28afba476072671ccac499815820c134e45b7154422e8aa7ae71a3 ++
  literal 40 0x70d8256d123f9ddc5cc2aadcaf69af6d2af295815820da6d71ce700769f603c47275c190e0ee107d ++
  literal 40 0xde3b0f9a6f996cd28e7ca3a5570b582cd9988a83018182582084668297231fe7407894c648db9c52 ++
  literal 40 0x55c937eb41393365674bb127c08efc3b3c4164f6f6d998778602d9987883014101582102623e1b29 ++
  literal 40 0x1e40bb82bb5dce30125885bbc6c52c702c3ac47d037d46a1f39be448582027f252c2a969e445ed5c ++
  literal 40 0xf752ce4bff362c919c8d41c0b4d2ebca7eda8e3ad40d5820edd07f84c483d1b2e5c286f52ac91c71 ++
  literal 40 0xad02591c78cc156c207a9e4aea7a7acaf65841a5a3de6af800cdc770f8da05847f5a7bdf0ab27454 ++
  literal 40 0xb1b19fe16d5a7c5e3798c51b1b88d456e57e5dab7a87f98de9ef50d9a78f433cfce23a33aeecb265 ++
  literal 40 0x382595001a6553f1008283d998858502d998788301410158210367a383046764767816ccdcb009dc ++
  literal 40 0x8a694529d2dd5feedf930986e8d6aed7754b58207792432733f7e930f992e0879cf90afe54d1c9b3 ++
  literal 40 0x2fe4eb34932905bb3a45448cf6f6d998778602d998788301410158210239691b7920df7764ed526d ++
  literal 40 0x3b5b71551001de6c99f275af2e43f8fcdb78ed1cc158204fe4d81c78127878bc4b2e3b601df9838b ++
  literal 40 0x7a26afa578e8f51b56c39e32abb1a958207939e5154a4b7a760349f9485e8c456a97112c391a3e0a ++
  literal 40 0x47165395e4f2b8f8adf658417797c7de7d52f44297d3991f24d966dd165cea598610f4e4992137c2 ++
  literal 40 0xccc6f3d05c8d9cb76e1a04e9bc56e1991eec1b521a0a7104d80b34770305f6a3f0b9c6fd011a6553 ++
  literal 40 0xf10a83d998858502d998788301410258207f09ce928bb6f23a8e52e69a6704b53b01211b7983abb9 ++
  literal 40 0xff27c01b23e07df9195820d8a86527477f9f5063fe8410a476ec21ea5feb0f6dd20ab750bf73db09 ++
  literal 40 0xb7715c58a4d998888b01197a695432a7fbc6f9b89dc491883f9e14c66180128f7ddc540000000000 ++
  literal 40 0x000000000000000000000000000000582015d1221607c1642d3d0951caa6dc63498312057e9566ca ++
  literal 40 0x3f042c28a7d0e3c5c3582084668297231fe7407894c648db9c5255c937eb41393365674bb127c08e ++
  literal 40 0xfc3b3c54aa0000000000000000000000000000000000000141645400000000000000000000000000 ++
  literal 40 0x000000000000004000f6d998778602d998788301410158210367a383046764767816ccdcb009dc8a ++
  literal 40 0x694529d2dd5feedf930986e8d6aed7754b58206e23a11703adaf9b78bb3f3f557155a14eb66a1ce5 ++
  literal 40 0x766b2e398867372164dee05820ab53921017eb59ba69d041920002ec85952d2e16e4016627cc6188 ++
  literal 40 0x9b1468647cf658410f5692a1e713df8bec79e6bf9bcc11422bff56088a0822dd6f0c1a349a614e1f ++
  literal 38 0x5acdd485f2edd9be859acc45d84ca2c29d22ab1cb0a0bd433527d5225d92018c011a6553f114

/-- The keys, the minter's secret and the signatures of the redemption. -/
@[reducible] def recordedKeys : K256 := .recorded
  [.literal 33 0x0239691b7920df7764ed526d3b5b71551001de6c99f275af2e43f8fcdb78ed1cc1,
   .literal 33 0x02623e1b291e40bb82bb5dce30125885bbc6c52c702c3ac47d037d46a1f39be448,
   .literal 33 0x0367a383046764767816ccdcb009dc8a694529d2dd5feedf930986e8d6aed7754b]
  [(.literal 32 0x1bd67939e94b4adb05381528daacc1ae920f8398c08294673dc8523b742b593c,
    .literal 33 0x02623e1b291e40bb82bb5dce30125885bbc6c52c702c3ac47d037d46a1f39be448)]
  [{ digest := .literal 32 0x5c92abdba0d85f3d9ead25fac45251ec4495e6aa500aa1b266a7b4be4198bc7b
     signature := literal 32 0xa5a3de6af800cdc770f8da05847f5a7bdf0ab27454b1b19fe16d5a7c5e3798c5 ++
       literal 32 0x1b1b88d456e57e5dab7a87f98de9ef50d9a78f433cfce23a33aeecb265382595
     recovery := 0
     signer := .literal 33 0x02623e1b291e40bb82bb5dce30125885bbc6c52c702c3ac47d037d46a1f39be448 },
   { digest := .literal 32 0x4693e679f78a7fb8b5254da30e35dac21ce1155780c01df46312b5c4bd66c748
     signature := literal 32 0x7797c7de7d52f44297d3991f24d966dd165cea598610f4e4992137c2ccc6f3d0 ++
       literal 32 0x5c8d9cb76e1a04e9bc56e1991eec1b521a0a7104d80b34770305f6a3f0b9c6fd
     recovery := 1
     signer := .literal 33 0x0239691b7920df7764ed526d3b5b71551001de6c99f275af2e43f8fcdb78ed1cc1 },
   { digest := .literal 32 0xe2302986e1e7ffd2e20ec9177770f35c5f9222148a8d6f3a6898e0d4844c9430
     signature := literal 32 0x0f5692a1e713df8bec79e6bf9bcc11422bff56088a0822dd6f0c1a349a614e1f ++
       literal 32 0x5acdd485f2edd9be859acc45d84ca2c29d22ab1cb0a0bd433527d5225d92018c
     recovery := 1
     signer := .literal 33 0x0367a383046764767816ccdcb009dc8a694529d2dd5feedf930986e8d6aed7754b }]

/-- A charge that never refuses. -/
def freeCharge (_ : Nat) : Run Unit Error Unit := pure ()

theorem recordedReturn_holds :
    ((Lineage.relation Sha256.sha256 recordedKeys freeCharge recordedCfg recordedReturn ()).1.value?.map
      fun out => (out.depth, out.leaves.length)) = some (0, 3) := by
  decide +kernel

/-- The recorded redemption meets the premise; its three leaves are all of its outer history. -/
theorem lineage_accounting_recorded_return :
    ∃ out, Lineage.relation Sha256.sha256 recordedKeys freeCharge recordedCfg recordedReturn () =
        (.ok out, ()) ∧ U256.toNat out.partAmount ≤ U256.toNat out.amount ∧
      (out.leaves.map Leaf.sid).Nodup ∧ out.leaves.length = 3 := by
  have hrun := recordedReturn_holds
  rcases hrel : Lineage.relation Sha256.sha256 recordedKeys freeCharge recordedCfg recordedReturn ()
    with ⟨_ | out, u⟩
  · rw [hrel] at hrun
    simp [Res.value?] at hrun
  · rw [hrel] at hrun
    simp only [Res.value?, Option.map_some, Option.some.injEq, Prod.mk.injEq] at hrun
    obtain ⟨_, _, _, -, -, -, -, -, -, -, hle, -, hnodup, -, -⟩ := lineage_accounting hrel
    exact ⟨out, rfl, hle, hnodup, hrun.2⟩

end Ureth.Guarantees
