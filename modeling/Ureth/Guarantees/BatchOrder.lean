import Ureth.Guarantees.BatchWork
import Ureth.Source.B1.BatchOrder

/-!
# Order and repetition in a batch

What a batch call answers and what it costs depend on the claims of its request
as a set; their order does not show anywhere, and a repeated claim pays for its
bytes and for grouping it.
-/

namespace Ureth.Guarantees
open Ureth.Foundation Ureth.Source Ureth.Source.B1
open Ureth.Source.B1.Cbor (usizeMax)

/-- **Order and repetition.** Of an accepted request, every reordering is accepted with the same
dimensions and the same outcome of the call for every gas, be it a verdict, an impossible registry or too
little gas. An accepted request with a copy of one of the claims appended has the same evaluation and the
same dimensions but for its bytes and its occurrences. -/
theorem batch_order_and_repetition {ε : Type} (words : Word → Word) (keccak H : Bytes → Bytes32) (S : Secp256k1)
    (pins : Pins) {lim : Limits} (hlim : lim = .standard ∨ lim = .composed) {input : Bytes} {s : Scanned}
    (h : Accepted ε lim input s) :
    input = request s.occurrences ∧
    (∀ occurrences, occurrences.Perm s.occurrences →
      Accepted ε lim (request occurrences) ⟨occurrences, s.dims⟩ ∧
      ∀ gas st st', (runWith (.ofWords ε words) keccak H S (request occurrences) gas pins lim st').1 =
        (runWith (.ofWords ε words) keccak H S input gas pins lim st).1) ∧
    ∀ o ∈ s.occurrences, ∀ s', Accepted ε lim (request (s.occurrences ++ [o])) s' →
      s'.occurrences = s.occurrences ++ [o] ∧
      s'.dims = { s.dims with c := s.dims.c + o.packed.length, k := s.dims.k + 1 } ∧
      (∀ st st', (evaluate (.ofWords ε words) keccak H S s' pins st').1 =
        (evaluate (.ofWords ε words) keccak H S s pins st).1) ∧
      ∀ gas charge, (s'.dims.gas : Res (Error ε) Nat) = .ok charge → charge ≤ gas → ∀ st st',
        Output.verdict <$> (runWith (.ofWords ε words) keccak H S (request (s.occurrences ++ [o])) gas pins lim st').1 =
          Output.verdict <$> (runWith (.ofWords ε words) keccak H S input gas pins lim st).1 := by
  have hword : lim.Word := by
    rcases hlim with rfl | rfl
    · exact Limits.standard_word
    · exact Limits.composed_word
  obtain ⟨hinput, hacceptable, hdims, need, hneed, hgas⟩ := (scan_iff hword).mp h.scan
  refine ⟨hinput, fun occurrences hperm => ?_, fun o ho s' h' => ?_⟩
  · have hsame := SameClaims.of_perm hperm hacceptable.reads
    have hlen : (request occurrences).length = input.length := by
      rw [hinput]
      simp [request, packedAll, List.length_flatMap, (hperm.map _).sum_eq]
    have hdims' : s.dims = dimensionsOf (request occurrences).length occurrences := by
      rw [hsame.dimensions, hlen, hdims, hperm.length_eq]
      rfl
    have haccepted : Accepted ε lim (request occurrences) ⟨occurrences, s.dims⟩ := by
      refine ⟨by rw [hlen]; exact h.fits, (scan_iff hword).mpr ⟨rfl, hacceptable.perm hperm, hdims', need, ?_, hgas⟩⟩
      rw [hlen]
      dsimp only
      rw [hperm.length_eq]
      exact hneed
    refine ⟨haccepted, fun gas st st' => ?_⟩
    have heval : (evaluate (.ofWords ε words) keccak H S ⟨occurrences, s.dims⟩ pins st').1 =
        (evaluate (.ofWords ε words) keccak H S s pins st).1 := hsame.evaluate s.dims s.dims pins st' st
    rw [haccepted.runWith_fst hword, h.runWith_fst hword, haccepted.prepare_eq, h.prepare_eq, hlen, heval]
    simp only [Res.pure_def, bind_assoc, Res.bind_ok]
  · have hcopies := SameClaims.of_copy ho hacceptable.reads
    have hfew := hacceptable.few
    have hclaims := hword.claims
    have hoccurrences : s'.occurrences = s.occurrences ++ [o] := by
      refine h'.occurrences_eq hword hcopies.reads ?_ ?_
      · simp
      · rw [List.length_append, List.length_singleton]
        omega
    have hdims' : s'.dims = { s.dims with c := s.dims.c + o.packed.length, k := s.dims.k + 1 } := by
      rw [h'.dims_eq hword, hoccurrences, hcopies.dimensions, hdims, hinput]
      simp only [dimensionsOf, request, packedAll, List.flatMap_append, List.flatMap_singleton, List.length_append,
        List.length_singleton, beBytes_length, Dimensions.mk.injEq, and_true]
      omega
    have heval : ∀ st st', (evaluate (.ofWords ε words) keccak H S s' pins st').1 =
        (evaluate (.ofWords ε words) keccak H S s pins st).1 := by
      intro st st'
      obtain ⟨occurrences', dims'⟩ := s'
      obtain rfl : occurrences' = _ := hoccurrences
      exact hcopies.evaluate dims' s.dims pins st' st
    refine ⟨hoccurrences, hdims', heval, fun gas charge hcharge hpaid st st' => ?_⟩
    obtain ⟨charge₀, hcharge₀, hle⟩ : ∃ charge₀, (s.dims.gas : Res (Error ε) Nat) = .ok charge₀ ∧ charge₀ ≤ charge := by
      rw [hdims'] at hcharge
      simp only [Dimensions.gas, batchGas, scanGas, Res.bind_eq_ok, Res.sub_eq_ok, Res.u64_eq_ok] at hcharge ⊢
      obtain ⟨_, ⟨_, ⟨-, rfl⟩, hscan, rfl⟩, hsmall, rfl⟩ := hcharge
      have hk : 1 ≤ s.dims.k := by
        rw [hdims]
        exact hacceptable.some
      have hgroup : 500 * s.dims.k * (s.dims.k - 1) ≤ 500 * (s.dims.k + 1) * (s.dims.k + 1 - 1) :=
        Nat.mul_le_mul (by omega) (by omega)
      exact ⟨_, ⟨_, ⟨_, ⟨hk, rfl⟩, by omega, rfl⟩, by omega, rfl⟩, by omega⟩
    rw [h'.runWith_fst hword, h.runWith_fst hword,
      h'.prepare_charge hcharge (by rw [h'.dims_eq hword]; rfl), h.prepare_charge hcharge₀ (by rw [hdims]; rfl),
      Res.refuse_of_not (by omega), Res.refuse_of_not (by omega), Res.bind_ok, Res.bind_ok, Res.bind_ok, Res.bind_ok,
      heval st st']
    cases (evaluate (.ofWords ε words) keccak H S s pins st).1 with
    | error f => rfl
    | ok valid => exact congrArg Except.ok (by rw [Output.versioned_verdict, Output.versioned_verdict])

/-- The request of one claim with the claim repeated. -/
def repeatedRequest : Bytes :=
  [2, 0] ++ beBytes 2 2 ++ (sealedHead.pack sealedCertificate.encode ++ sealedHead.pack sealedCertificate.encode)

theorem batch_order_and_repetition_sealed :
    ∃ s s' o, Accepted Unit .standard sealedRequest s ∧ o ∈ s.occurrences ∧
      Accepted Unit .standard (request (s.occurrences ++ [o])) s' ∧ s'.dims.k = s.dims.k + 1 ∧ s'.dims.a = s.dims.a ∧
      (Output.verdict <$> (runWith (.ofWords Unit soleRegistry) slotHash Sha256.sha256 .echo
        (request (s.occurrences ++ [o])) 200000 solePins .standard (.start ())).1).value? = some true := by
  have hone : (scan sealedRequest usizeMax .standard : Res (Error Unit) Scanned).value?.map
      (·.occurrences.map Occurrence.packed) = some [sealedHead.pack sealedCertificate.encode] := by decide +kernel
  have htwo : ((scan repeatedRequest usizeMax .standard : Res (Error Unit) Scanned).value?.bind
      fun s => (s.dims.gas : Res (Error Unit) Nat).value?) = some 117636 := by decide +kernel
  obtain ⟨s, hs, hpacked⟩ := Option.map_eq_some_iff.mp hone
  obtain ⟨s', hs', hcharge⟩ := Option.bind_eq_some_iff.mp htwo
  obtain ⟨o, ho, hbytes⟩ := List.map_eq_singleton_iff.mp hpacked
  have hrequest : request (s.occurrences ++ [o]) = repeatedRequest := by
    rw [ho]
    simp only [request, packedAll, List.singleton_append, List.flatMap_cons, List.flatMap_nil, List.append_nil, hbytes,
      repeatedRequest, List.length_cons, List.length_nil]
  have haccepted : Accepted Unit .standard sealedRequest s := ⟨by decide +kernel, Res.value?_eq_some.mp hs⟩
  have hrepeated : Accepted Unit .standard (request (s.occurrences ++ [o])) s' := by
    rw [hrequest]
    exact ⟨by decide +kernel, Res.value?_eq_some.mp hs'⟩
  have hmem : o ∈ s.occurrences := by rw [ho]; exact List.mem_singleton_self o
  obtain ⟨-, -, hcopy⟩ := batch_order_and_repetition soleRegistry slotHash Sha256.sha256 .echo solePins (.inl rfl) haccepted
  obtain ⟨-, hdims, -, hverdict⟩ := hcopy o hmem s' hrepeated
  refine ⟨s, s', o, haccepted, hmem, hrepeated, by rw [hdims], by rw [hdims], ?_⟩
  rw [hverdict 200000 117636 (Res.value?_eq_some.mp hcharge) (by omega) (.start ()) (.start ())]
  have := sealedRequest_accepted.1
  generalize (runWith (.ofWords Unit soleRegistry) slotHash Sha256.sha256 .echo sealedRequest 200000 solePins .standard
    (.start ())).1 = outcome at this ⊢
  cases outcome with
  | error f => exact this
  | ok out => exact this

end Ureth.Guarantees
