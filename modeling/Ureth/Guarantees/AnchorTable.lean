import Ureth.Source.Bridge.AnchorSpec
import Ureth.Guarantees.BatchWork

/-!
# The anchor table and the batch

The composition asks one verdict for its whole anchor table. The claims the
certificate kernel reads in that request are the anchors, in order; and a true
verdict leaves only one way for an anchor's input record not to open.
-/

namespace Ureth.Guarantees
open Ureth.Foundation Ureth.Source Ureth.Source.Bridge

/-- The claim read for an anchor has the anchor's fields, and its certificate is read from the anchor's
bytes. -/
structure AgreesWith (a : Anchor) (o : B1.Occurrence) : Prop where
  partition : o.claim.partition = a.partition
  shard : o.claim.shard = a.shard
  config : o.claim.config = a.shardConfHash
  state : o.claim.state = a.expectedStateRoot
  irHash : o.claim.irHash = a.expectedIrHash
  packed : o.packed = packedClaim a
  uc : ∃ it n fields body, B1.Cbor.one a.uc 0 = .ok (it, n) ∧ it.raw = a.uc ∧ it.tagged 7 39001 = .ok fields ∧
    B1.certificateBody fields = .ok body ∧ o.parsed = a.head.parsed fields body

theorem agreesWith_of_readAs {a : Anchor} {o : B1.Occurrence} (h : a.ReadAs o) : AgreesWith a o := by
  obtain ⟨hpacked, it, n, uc, body, hone, huc, hbody, hparsed⟩ := h
  have hclaim : o.claim = (a.head.parsed uc body).claim := congrArg B1.Parsed.claim hparsed
  obtain ⟨t, -, hraw, rfl, -⟩ := (B1.Cbor.oneWith_eq_ok B1.Cbor.maxItems_lt).mp hone
  exact ⟨by rw [hclaim]; rfl, by rw [hclaim]; rfl, by rw [hclaim]; rfl, by rw [hclaim]; rfl, by rw [hclaim]; rfl,
    hpacked, _, n, uc, body, hone, hraw.symm, huc, hbody, hparsed⟩

/-- **Anchor table and batch.** If the plan and the scans accept the anchors, the claims of the batch request
are the anchors one by one. If moreover the batch is accepted, opening an anchor fails only because its
record is not the one hashed, unless two different strings among the records have one hash; an empty
record, which the native scans of the composition refuse, does not have the shape of one. -/
theorem anchor_table_agrees (H : Bytes → Bytes32) {partition : Nat} {env : Envelope} {outcome : B2.Outcome}
    {plan : List Nat} (htyped : env.Typed) (hplan : planAnchors H partition env outcome = .ok plan)
    (hscan : ∀ a ∈ env.anchors, scanAnchor a = .ok ()) :
    (∀ (ε : Type) (gas : Nat) (s : B1.Scanned),
      (B1.scan (batchRequest env.anchors) gas .composed : Res (B1.Error ε) B1.Scanned) = .ok s →
      s.occurrences.length = env.anchors.length ∧ List.Forall₂ AgreesWith env.anchors s.occurrences) ∧
    (∀ (ρ ε : Type) (R : B1.RegistryRead ρ ε) (keccak : Bytes → Bytes32) (S : Secp256k1) (gas : Nat) (pins : B1.Pins)
      (st st' : B1.Session ρ) (out : B1.Output),
      B1.runWith R keccak H S (batchRequest env.anchors) gas pins .composed st = (.ok out, st') →
      out.verdict = true → ∃ s, (B1.scan (batchRequest env.anchors) gas .composed : Res (B1.Error ε) B1.Scanned) = .ok s ∧
        ((∀ a ∈ env.anchors, (a.inputRecord ≠ [] → (openAnchor H a).FailsOnly (· = .irOpening)) ∧
            (a.inputRecord = [] → openAnchor H a = Res.fail .irShape)) ∨
          Collision H (env.anchors.map Anchor.inputRecord ++ s.occurrences.map fun o => o.claim.ir.raw))) ∧
    (∀ cfg, bridgeJ cfg env = .ok () → ∀ a ∈ env.anchors, a.inputRecord ≠ []) := by
  have hplanned := planAnchors_ok hplan
  have hpacks : ∀ a ∈ env.anchors, a.Packs :=
    fun a ha => (hplanned.table a ha).packs (htyped.anchors a ha) (hscan a ha)
  refine ⟨?_, ?_, ?_⟩
  · intro ε gas s hs
    obtain ⟨hread, -⟩ := readAs_of_scan hpacks hplanned.few hs
    exact ⟨hread.length_eq.symm, hread.imp fun a o h => agreesWith_of_readAs h⟩
  · intro ρ ε R keccak S gas pins st st' out hrun hout
    obtain ⟨s, hs, hfolds⟩ := B1.runWith_true hrun hout
    obtain ⟨hread, hreads⟩ := readAs_of_scan hpacks hplanned.few hs
    refine ⟨s, hs, ?_⟩
    by_cases hcol : Collision H (env.anchors.map Anchor.inputRecord ++ s.occurrences.map fun o => o.claim.ir.raw)
    · exact .inr hcol
    refine .inl fun a ha => ⟨fun hne => ?_, fun hnil => ?_⟩
    · obtain ⟨o, ho, hao⟩ : ∃ o ∈ s.occurrences, a.ReadAs o := by
        obtain ⟨i, hi, rfl⟩ := List.getElem_of_mem ha
        have hi' : i < s.occurrences.length := hread.length_eq ▸ hi
        exact ⟨s.occurrences[i], List.getElem_mem hi', hread.get hi hi'⟩
      -- the claim that is folded for these bytes is this one
      obtain ⟨o', ho', hpacked⟩ : ∃ o' ∈ B1.distinct s.occurrences, o'.packed = o.packed := exists_mem_firstBy ho
      obtain rfl := (hreads o' (mem_of_mem_firstBy ho')).eq (hreads o ho) hpacked
      refine openAnchor_of_folds hao (hreads o' ho) (hfolds o' ho') (hscan a ha) ?_ hne
      refine fun heq => injOn_of_not_collision hcol ?_ ?_ heq
      · exact List.mem_append_left _ (List.mem_map_of_mem ha)
      · exact List.mem_append_right _ (List.mem_map_of_mem (f := fun o => o.claim.ir.raw) ho)
    · simp [openAnchor, hnil, Res.refuse]
  · intro cfg hj a ha hnil
    simp only [bridgeJ, Res.bind_eq_ok, Res.each_eq_ok] at hj
    obtain ⟨_, -, _, -, heach⟩ := hj
    obtain ⟨_, -, hrecord⟩ := heach a ha
    rw [hnil] at hrecord
    revert hrecord
    decide

/-! ## A table of one anchor -/

/-- The input record of the sealed certificate. -/
def sealedRecord : Bytes :=
  (Cbor.Value.tag 39002 (.array [.uint 1, .uint 0, .uint 0, SealedClaim.fill 17, SealedClaim.fill 17, .null, .uint 0,
    .null, .uint 0, .null])).encode

/-- An anchor of the sealed certificate, with a record of its own. -/
def sealedAnchor (record : Bytes) : Anchor :=
  ⟨7, [0xc0], sealedHead.config, sealedHead.state, sealedHead.irHash, sealedCertificate.encode, record⟩

/-- One leaf under one anchor. -/
def sealedEnvelope (record : Bytes) : Envelope :=
  ⟨[], [], [sealedAnchor record], [⟨0, List.replicate 32 0, []⟩]⟩

def sealedOutcome : B2.Outcome :=
  { B2.Outcome.default with leaves := [⟨.literal 32 (2 ^ 255), .zero 32, 0, .zero 32⟩] }

theorem sealedEnvelope_typed (record : Bytes) : (sealedEnvelope record).Typed := by
  refine ⟨?_, ?_⟩
  · intro a ha
    obtain rfl := List.mem_singleton.mp ha
    have hwidths : 7 < 2 ^ 32 ∧ sealedHead.config.length = 32 ∧ sealedHead.state.length = 32 ∧
        sealedHead.irHash.length = 32 := by decide
    exact ⟨hwidths.1, hwidths.2.1, hwidths.2.2.1, hwidths.2.2.2⟩
  · intro p hp
    obtain rfl := List.mem_singleton.mp hp
    exact ⟨by decide, by decide, by decide⟩

/-- The plan and the scans accept the envelope with either record, and the batch accepts its request. -/
theorem sealedEnvelope_accepted : ∀ record ∈ [[], sealedRecord],
    (planAnchors Sha256.sha256 7 (sealedEnvelope record) sealedOutcome).value? = some [0] ∧
    (scanAnchor (sealedAnchor record)).value? = some () ∧
    ((B1.runWith (.ofWords Unit soleRegistry) slotHash Sha256.sha256 .echo
      (batchRequest (sealedEnvelope record).anchors) B1.Cbor.usizeMax solePins .composed (.start ())).1.value?.map
        B1.Output.verdict) = some true := by
  decide +kernel

theorem eq_of_value {σ ε α : Type} {r : Res ε α × σ} {a : α} (h : r.1.value? = some a) : r = (.ok a, r.2) :=
  Prod.ext (Res.value?_eq_some.mp h) rfl

/-- The sealed certificate's own record opens, as the accepted batch promises. -/
theorem anchor_table_agrees_sealed :
    (openAnchor Sha256.sha256 (sealedAnchor sealedRecord)).FailsOnly (· = .irOpening) ∨
      ∃ records, Collision Sha256.sha256
        ((sealedEnvelope sealedRecord).anchors.map Anchor.inputRecord ++ records) := by
  obtain ⟨hplan, hscan, hrun⟩ := sealedEnvelope_accepted sealedRecord (by simp)
  obtain ⟨out, hout, hverdict⟩ := Option.map_eq_some_iff.mp hrun
  have hscans : ∀ a ∈ (sealedEnvelope sealedRecord).anchors, scanAnchor a = .ok () := by
    intro a ha
    obtain rfl := List.mem_singleton.mp ha
    exact Res.value?_eq_some.mp hscan
  obtain ⟨-, hopen, -⟩ := anchor_table_agrees Sha256.sha256 (sealedEnvelope_typed sealedRecord)
    (Res.value?_eq_some.mp hplan) hscans
  obtain ⟨s, -, hopened | hcol⟩ := hopen _ _ _ _ _ _ _ _ _ _ (eq_of_value hout) hverdict
  · have hmem : sealedAnchor sealedRecord ∈ (sealedEnvelope sealedRecord).anchors := List.mem_singleton_self _
    have hrecord : (sealedAnchor sealedRecord).inputRecord ≠ [] := Cbor.Value.encode_ne_nil _
    have hanchor := hopened _ hmem
    generalize sealedAnchor sealedRecord = a at hanchor hrecord ⊢
    exact .inl (hanchor.1 hrecord)
  · exact .inr ⟨_, hcol⟩

/-- An anchor with an empty record passes the plan, the scans and the batch, and its record does not have the
shape of one, although the strings hashed for it do not collide. -/
theorem empty_record_shape :
    planAnchors Sha256.sha256 7 (sealedEnvelope []) sealedOutcome = .ok [0] ∧
      (∀ a ∈ (sealedEnvelope []).anchors, scanAnchor a = .ok ()) ∧ (sealedEnvelope []).Typed ∧
      (∃ out s', B1.runWith (.ofWords Unit soleRegistry) slotHash Sha256.sha256 .echo
        (batchRequest (sealedEnvelope []).anchors) B1.Cbor.usizeMax solePins .composed (.start ()) = (.ok out, s') ∧
        out.verdict = true) ∧
      (∃ a ∈ (sealedEnvelope []).anchors, openAnchor Sha256.sha256 a = Res.fail .irShape) ∧
      ¬ Collision Sha256.sha256 [[], sealedRecord] := by
  obtain ⟨hplan, hscan, hrun⟩ := sealedEnvelope_accepted [] (by simp)
  obtain ⟨out, hout, hverdict⟩ := Option.map_eq_some_iff.mp hrun
  refine ⟨Res.value?_eq_some.mp hplan, ?_, sealedEnvelope_typed [], ⟨out, _, eq_of_value hout, hverdict⟩, ⟨sealedAnchor [], by simp [sealedEnvelope], ?_⟩, ?_⟩
  · intro a ha
    obtain rfl := List.mem_singleton.mp ha
    exact Res.value?_eq_some.mp hscan
  · simp [openAnchor, sealedAnchor, Res.refuse]
  · have hne : Sha256.sha256 [] ≠ Sha256.sha256 sealedRecord := by decide +kernel
    rintro ⟨x, hx, y, hy, hxy, heq⟩
    simp only [List.mem_cons, List.not_mem_nil, or_false] at hx hy
    rcases hx with rfl | rfl <;> rcases hy with rfl | rfl
    · exact hxy rfl
    · exact hne heq
    · exact hne heq.symm
    · exact hxy rfl

end Ureth.Guarantees
