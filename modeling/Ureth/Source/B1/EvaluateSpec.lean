import Ureth.Foundation.Spending
import Ureth.Source.B1.BatchSpec
import Ureth.Source.B1.QuorumSpec

/-!
# What the evaluation of a batch does

The work of an evaluation is counted where it happens, so it is bounded for every
registry, also for one that fails part-way: eleven common words, one entry for
each distinct epoch, one pass over the signatures of each distinct seal and one
fold for each distinct claim. An evaluation that accepts has folded every claim.
-/

namespace Ureth.Source.B1
open Ureth.Foundation
open Ureth.Foundation.Cbor (Value)
open Cbor (Item)

/-! ## Work -/

/-- Registry words read, keys parsed, signatures evaluated and folds made so far. -/
def Session.tally {ρ : Type} (s : Session ρ) : Nat × Nat × Nat × Nat :=
  (s.work.reads, s.work.keyParses, s.work.signatures, s.work.folds)

section Work

variable {ρ ε : Type} {R : RegistryRead ρ ε} {keccak H : Bytes → Bytes32} {S : Secp256k1}

/-- What one operation of each kind adds to the tally. -/
theorem spends_read (k : Word) : Run.Spends Session.tally (read R k) (1, 0, 0, 0) := by
  intro s
  have hwork : (read R k s).2.work = { s.work with reads := s.work.reads + 1 } := by
    unfold read
    rcases R.sload k s.registry with ⟨e | w, r⟩ <;> rfl
  simp only [Session.tally, hwork, Prod.mk_add_mk, add_zero]
  exact le_rfl

theorem spends_readAll (ks : List Word) : Run.Spends Session.tally (readAll R ks) (ks.length, 0, 0, 0) := by
  induction ks with
  | nil => exact Run.spends_pure _
  | cons k ks ih =>
    have h : Run.Spends Session.tally (readAll R (k :: ks)) ((1, 0, 0, 0) + (ks.length, 0, 0, 0)) :=
      (spends_read k).bind fun w _ _ _ => ih.andThen fun ws => Run.spends_pure _
    refine h.mono (le_of_eq ?_)
    simp [add_comm]

theorem spends_parseKey (b : Bytes) :
    Run.Spends Session.tally (parseKey S b : Run (Session ρ) (Error ε) S.PublicKey) (0, 1, 0, 0) :=
  Run.Spends.andThen (Run.spends_modify fun s => by simp [Session.tally]) fun _ => Run.spends_lift _

theorem spends_addMember (m : List Word) (members : List (Member S)) (sum : Nat) :
    Run.Spends Session.tally (addMember S m members sum : Run (Session ρ) (Error ε) _) (0, 1, 0, 0) := by
  refine (Run.spends_lift _).after fun id _ _ _ => (spends_parseKey _).andThen fun key => ?_
  refine (Run.spends_lift _).after fun weight _ _ _ => (Run.spends_refuse _ _).after fun _ _ _ _ => ?_
  exact (Run.spends_refuse _ _).after fun _ _ _ _ => Run.spends_pure _

theorem spends_readMembers (epoch n j : Nat) (members : List (Member S)) (sum : Nat) :
    Run.Spends Session.tally (readMembers R keccak S epoch n j members sum) (8 * n, n, 0, 0) := by
  induction n generalizing j members sum with
  | zero => exact Run.spends_pure _
  | succ n ih =>
    have hwords : Run.Spends Session.tally (readAll R ((List.range 8).map (memberSlot keccak epoch j)))
        (8, 0, 0, 0) := spends_readAll _
    have h : Run.Spends Session.tally (readMembers R keccak S epoch (n + 1) j members sum)
        ((8, 0, 0, 0) + ((0, 1, 0, 0) + (8 * n, n, 0, 0))) :=
      hwords.bind fun m _ _ _ => (spends_addMember m members sum).bind fun x _ _ _ => ih (j + 1) x.1 x.2
    have hsum : ((8, 0, 0, 0) + ((0, 1, 0, 0) + (8 * n, n, 0, 0)) : Nat × Nat × Nat × Nat) =
        (8 * (n + 1), n + 1, 0, 0) := by
      simp only [Prod.mk_add_mk, Prod.mk.injEq, and_true]
      omega
    rwa [hsum] at h

theorem entryHead_count {w : List Word} {head : EntryHead} (h : (entryHead w : Res (Error ε) EntryHead) = .ok head) :
    head.count ≤ maxMembers := by
  simp only [entryHead, Res.bind_eq_ok, Res.refuse_eq_ok, exists_const, Res.pure_eq_ok] at h
  obtain ⟨_, -, _, -, _, -, _, -, _, -, count, -, _, -, hgood, rfl⟩ := h
  dsimp only
  omega

theorem spends_entry (epoch : Nat) :
    Run.Spends Session.tally (entry R keccak S epoch) (epochWords, maxMembers, 0, 0) := by
  have hwords : Run.Spends Session.tally (readAll R ((List.range 11).map (entrySlot keccak epoch)))
      (11, 0, 0, 0) := spends_readAll _
  have h : Run.Spends Session.tally (entry R keccak S epoch)
      ((11, 0, 0, 0) + (8 * maxMembers, maxMembers, 0, 0)) := by
    refine hwords.bind fun w _ _ _ => ?_
    split
    · exact Run.Spends.free ((Run.spends_refuse _ _).andThen fun _ => Run.spends_pure _)
    · refine (Run.spends_lift _).after fun head s t hhead => ?_
      have hcount := entryHead_count (Run.lift_eq_ok.mp hhead).1
      have hmembers : Run.Spends Session.tally (entryMembers R keccak S epoch head)
          (8 * head.count, head.count, 0, 0) := by
        refine (spends_readMembers epoch head.count 0 [] 0).andThen fun x => ?_
        exact (Run.spends_refuse _ _).andThen fun _ => Run.spends_pure _
      refine hmembers.mono ?_
      simp only [Prod.mk_le_mk, le_refl, and_true]
      omega
  exact h.mono (le_of_eq rfl)

theorem spends_commonV2 (pins : Pins) :
    Run.Spends Session.tally (commonV2 R keccak pins) (commonWords, 0, 0, 0) :=
  (spends_readAll _).andThen fun _ => Run.spends_lift _

/-- The counters the source reports are not part of the work. -/
theorem spends_counters (g : Session ρ → Session ρ) (hg : ∀ s, (g s).work = s.work) :
    Run.Spends Session.tally (Run.modify g : Run (Session ρ) (Error ε) Unit) 0 :=
  Run.spends_modify fun s => by simp [Session.tally, hg]

theorem spends_loadEpochs (common : CommonV2) (epochs : List Nat) :
    Run.Spends Session.tally (loadEpochs R keccak S common epochs)
      (epochWords * epochs.length, maxMembers * epochs.length, 0, 0) := by
  induction epochs with
  | nil => exact Run.spends_pure _
  | cons e rest ih =>
    have hgrow : ∀ n : Nat, n * (e :: rest).length = n + n * rest.length := by
      intro n
      rw [List.length_cons, Nat.mul_succ, add_comm]
    unfold loadEpochs
    split
    · refine ih.mono ?_
      simp only [hgrow, Prod.mk_le_mk, le_refl, and_true]
      omega
    · have hsum : ((epochWords, maxMembers, 0, 0) + (epochWords * rest.length, maxMembers * rest.length, 0, 0) :
          Nat × Nat × Nat × Nat) =
          (epochWords * (e :: rest).length, maxMembers * (e :: rest).length, 0, 0) := by
        simp only [hgrow, Prod.mk_add_mk, add_zero]
      rw [← hsum]
      refine (spends_entry e).bind fun found _ _ _ => (Run.spends_lift _).after fun stored _ _ _ => ?_
      refine (spends_counters _ (by intro _; rfl)).after fun _ _ _ _ => ?_
      exact (Run.spends_refuse _ _).after fun _ _ _ _ => ih.andThen fun more => Run.spends_pure _

theorem spends_foldAll (os : List Occurrence) :
    Run.Spends Session.tally (foldAll H os : Run (Session ρ) (Error ε) Bool) (0, 0, 0, os.length) := by
  induction os with
  | nil => exact Run.spends_pure _
  | cons o rest ih =>
    have hone : Run.Spends Session.tally (Run.modify fun s : Session ρ => { s with
        counters := { s.counters with claims := s.counters.claims + 1, folds := s.counters.folds + 1 }
        work := { s.work with folds := s.work.folds + 1 } } : Run (Session ρ) (Error ε) Unit) (0, 0, 0, 1) :=
      Run.spends_modify fun s => by simp [Session.tally]
    have h : Run.Spends Session.tally (foldAll H (o :: rest) : Run (Session ρ) (Error ε) Bool)
        ((0, 0, 0, 1) + (0, 0, 0, rest.length)) :=
      hone.bind fun _ _ _ _ => (Run.spends_lift _).after fun ok _ _ _ => ih.andThen fun more => Run.spends_pure _
    refine h.mono (le_of_eq ?_)
    simp [add_comm]

/-- The pass over a signature map, by its names and values in turn. -/
theorem spends_countSignatures (message : Bytes32) (members : List (Member S)) : ∀ (kids : List Item) (good : Nat)
    (empty : Bool), Run.Spends Session.tally
      (countSignatures S message members kids good empty : Run (Session ρ) (Error ε) (Nat × Bool))
      (0, 0, kids.length / 2, 0)
  | [], good, empty => Run.spends_pure _
  | [_], _, _ => by
    rw [countSignatures]
    exact (Run.spends_lift _).free
  | id :: sig :: rest, good, empty => by
    have ih := spends_countSignatures message members rest
    have hone : Run.Spends Session.tally (Run.modify fun s : Session ρ => { s with
        counters := { s.counters with signatures := s.counters.signatures + 1 }
        work := { s.work with signatures := s.work.signatures + 1 } } : Run (Session ρ) (Error ε) Unit)
        (0, 0, 1, 0) :=
      Run.spends_modify fun s => by simp [Session.tally]
    have hlen : (id :: sig :: rest).length / 2 = 1 + rest.length / 2 := by
      simp only [List.length_cons]
      omega
    have hsum : ((0, 0, 1, 0) + (0, 0, rest.length / 2, 0) : Nat × Nat × Nat × Nat) =
        (0, 0, 1 + rest.length / 2, 0) := by simp
    rw [hlen, ← hsum, countSignatures]
    refine hone.bind fun _ _ _ _ => ?_
    split
    · exact ih good true
    · split
      · exact ih good empty
      · split
        · exact (Run.spends_lift _).after fun good _ _ _ => ih good empty
        · exact ih good empty

/-- The number of signatures a claim's seal carries. -/
def Claim.Signs (c : Claim) (n : Nat) : Prop :=
  ∀ (ε : Type) (kids : List Item), c.sealFields[7].children = (.ok kids : Res ε (List Item)) → kids.length / 2 = n

theorem spends_quorum {c : Claim} {n : Nat} (hc : c.Signs n) (e : Entry S) :
    Run.Spends Session.tally (quorum H S c e : Run (Session ρ) (Error ε) Bool) (0, 0, n, 0) := by
  unfold quorum
  split
  · exact (Run.spends_pure _).free
  · refine (Run.spends_lift _).after fun message _ _ _ => (Run.spends_lift _).after fun pairs s t hpairs => ?_
    have hn := hc _ pairs (Run.lift_eq_ok.mp hpairs).1
    have hcount : Run.Spends Session.tally
        (countSignatures S message e.members pairs 0 false : Run (Session ρ) (Error ε) (Nat × Bool))
        (0, 0, pairs.length / 2, 0) := spends_countSignatures message e.members pairs 0 false
    rw [hn] at hcount
    refine hcount.andThen fun ⟨good, empty⟩ => ?_
    dsimp only
    split
    · exact Run.spends_pure _
    · exact Run.spends_lift _

theorem spends_sealAll (common : CommonV2) (loaded : List (Nat × Entry S)) (os : List Occurrence)
    (hos : ∀ o ∈ os, o.claim.Signs o.sigs) :
    Run.Spends Session.tally (sealAll H S common loaded os : Run (Session ρ) (Error ε) Bool)
      (0, 0, (os.map Occurrence.sigs).sum, 0) := by
  induction os with
  | nil => exact Run.spends_pure _
  | cons o rest ih =>
    rw [List.forall_mem_cons] at hos
    have hone : Run.Spends Session.tally (sealVerdict H S common loaded o.claim : Run (Session ρ) (Error ε) Bool)
        (0, 0, o.sigs, 0) := by
      unfold sealVerdict
      split
      · exact (Run.spends_pure _).free
      · split
        · exact (spends_counters _ (by intro _; rfl)).after fun _ _ _ _ => spends_quorum hos.1 _
        · exact (Run.spends_pure _).free
    have h : Run.Spends Session.tally (sealAll H S common loaded (o :: rest) : Run (Session ρ) (Error ε) Bool)
        ((0, 0, o.sigs, 0) + (0, 0, (rest.map Occurrence.sigs).sum, 0)) :=
      hone.bind fun ok _ _ _ => (ih hos.2).andThen fun more => Run.spends_pure _
    exact h.mono (le_of_eq (by simp))

/-- The work of some distinct claims: their epochs' entries, their seals' signatures and their folds. -/
def claimWork (claims : List Occurrence) : Nat × Nat × Nat × Nat :=
  (epochWords * (firstBy (·.claim.epoch) claims).length, maxMembers * (firstBy (·.claim.epoch) claims).length,
    ((firstBy Occurrence.sealRaw claims).map Occurrence.sigs).sum, claims.length)

theorem spends_evaluateClaims {claims : List Occurrence} (hs : ∀ o ∈ claims, o.claim.Signs o.sigs)
    (common : CommonV2) :
    Run.Spends Session.tally (evaluateClaims R keccak H S common claims) (claimWork claims) := by
  have hseals : ∀ o ∈ firstBy Occurrence.sealRaw claims, o.claim.Signs o.sigs :=
    fun o ho => hs o (mem_of_mem_firstBy ho)
  have hlen : ((firstBy (·.claim.epoch) claims).map (·.claim.epoch)).length =
      (firstBy (·.claim.epoch) claims).length := List.length_map _
  refine ((spends_loadEpochs common _).bind fun loaded _ _ _ => (spends_foldAll _).bind fun folded _ _ _ =>
    (spends_sealAll common loaded _ hseals).andThen fun sealed => Run.spends_pure _).mono (le_of_eq ?_)
  simp only [hlen, claimWork, Prod.mk_add_mk, add_zero, zero_add]

theorem spends_evaluate {s : Scanned} (hs : ∀ o ∈ s.occurrences, o.claim.Signs o.sigs) (pins : Pins) :
    Run.Spends Session.tally (evaluate R keccak H S s pins)
      ((commonWords, 0, 0, 0) + claimWork (distinct s.occurrences)) := by
  refine (spends_commonV2 pins).bind fun common _ _ _ => ?_
  refine (spends_counters _ (by intro _; rfl)).after fun _ _ _ _ => ?_
  split
  · exact (Run.spends_pure _).free
  · exact spends_evaluateClaims (fun o ho => hs o (mem_of_mem_firstBy ho)) common

end Work

/-! ## The work of a call -/

theorem signs_of_unicitySeal {it : Item} (hit : Cbor.Scanned it) {sf : FieldList Item 8} {n : Nat}
    (h : unicitySeal it = .ok (sf, n)) (ε : Type) (kids : List Item)
    (hkids : sf[7].children = (.ok kids : Res ε (List Item))) : kids.length / 2 = n := by
  simp only [unicitySeal, Res.bind_eq_ok, Res.pure_eq_ok, Prod.mk.injEq] at h
  obtain ⟨v, hv, _, -, _, -, _, -, _, -, n', hcount, _, -, _, -, rfl, rfl⟩ := h
  obtain ⟨u, hu, hmap⟩ := hit.tagged hv 7 (by omega)
  rw [hmap] at hcount hkids
  rcases Cbor.collection5_itemOf.mp hcount with ⟨rfl, rfl⟩ | ⟨ts, rfl, hlen, -⟩
  · obtain rfl : [] = kids := Except.ok.inj hkids
    rfl
  · rw [Cbor.children_itemOf hu (by simp) (by simp)] at hkids
    obtain rfl := Except.ok.inj hkids
    rw [List.length_map]
    exact hlen

/-- A parsed claim says how many signatures its seal carries. -/
theorem signs_of_parseClaim {r rest : Bytes} {tokens tokens' : Nat} {p : Parsed}
    (h : parseClaim r tokens = .ok (p, rest, tokens')) : p.claim.Signs p.sigs := by
  simp only [parseClaim, Res.bind_eq_ok, Prod.exists, Res.pure_eq_ok, Prod.mk.injEq] at h
  obtain ⟨_, _, -, _, _, -, _, -, _, _, -, _, -, _, _, -, _, _, -, _, _, -, _, _, -, _, -, raw, _, -, it, _, hone,
    uc, huc, body, hbody, rfl, -, -⟩ := h
  have hscanned : Cbor.Scanned it := Cbor.scanned_of_oneWith Cbor.maxItems_lt hone
  simp only [certificateBody, Res.bind_eq_ok, Prod.exists, Res.pure_eq_ok] at hbody
  obtain ⟨_, -, _, -, _, -, _, _, -, _, _, -, sf, sigs, hseal, _, -, rfl⟩ := hbody
  exact signs_of_unicitySeal (hscanned.tagged huc 6 (by omega)) hseal

theorem signs_of_scanClaims {lim : Limits} {k : Nat} {data rest : Bytes} {tokens rawPaths : Nat}
    {occurrences : List Occurrence} (h : scanClaims lim k data tokens rawPaths = .ok (occurrences, rest)) :
    ∀ o ∈ occurrences, o.claim.Signs o.sigs := by
  induction k generalizing data rest tokens rawPaths occurrences with
  | zero =>
    obtain ⟨rfl, -⟩ := Prod.mk.inj (Except.ok.inj h)
    simp
  | succ k ih =>
    simp only [scanClaims, Res.bind_eq_ok, Prod.exists, Res.pure_eq_ok, Prod.mk.injEq] at h
    obtain ⟨p, _, _, hparse, _, -, _, -, _, -, _, -, more, _, hmore, rfl, -⟩ := h
    exact List.forall_mem_cons.mpr ⟨signs_of_parseClaim hparse, ih hmore⟩

/-- What a scan hands to the evaluation, under any limits. -/
theorem scan_ok {ε : Type} {input : Bytes} {gas : Nat} {lim : Limits} {s : Scanned}
    (h : (scan input gas lim : Res (Error ε) Scanned) = .ok s) :
    (∀ o ∈ s.occurrences, o.claim.Signs o.sigs) ∧ claimWork (distinct s.occurrences) =
      (epochWords * s.dims.e, maxMembers * s.dims.e, s.dims.q, s.dims.a) := by
  simp only [scan, Res.bind_eq_ok, Res.mapErr_eq_ok, Prod.exists, Res.pure_eq_ok, group,
    Res.u64_eq_ok] at h
  obtain ⟨k, data, -, need, -, _, -, occurrences, rest, hclaims, _, -, dims, ⟨_, ⟨-, rfl⟩, _, ⟨-, rfl⟩, _, -,
    rfl⟩, rfl⟩ := h
  exact ⟨signs_of_scanClaims hclaims, rfl⟩

/-- The charge pays for the work at the price of each operation. -/
theorem batchGas_covers {ε : Type} {bytes k e q a p charge : Nat}
    (h : (batchGas bytes k e q a p : Res ε Nat) = .ok charge) :
    60000 + 100 * (commonWords + epochWords * e) + 1000 * (maxMembers * e) + 7200 * q + 2000 * a ≤ charge := by
  simp only [batchGas, scanGas, Res.bind_eq_ok, Res.u64_eq_ok] at h
  obtain ⟨scan, ⟨others, -, -, rfl⟩, -, rfl⟩ := h
  simp only [readGas, commonWords, epochWords, maxMembers]
  omega

/-! ## An accepted batch -/

section Accepted

variable {ρ ε : Type} {R : RegistryRead ρ ε} {keccak H : Bytes → Bytes32} {S : Secp256k1}

theorem foldAll_true {os : List Occurrence} {s s' : Session ρ}
    (h : (foldAll H os : Run (Session ρ) (Error ε) Bool) s = (.ok true, s')) :
    ∀ o ∈ os, (folds H o.claim : Res (Error ε) Bool) = .ok true := by
  induction os generalizing s s' with
  | nil => simp
  | cons o rest ih =>
    simp only [foldAll, Run.bind_eq_ok, Run.modify_eq_ok, Run.lift_eq_ok, Run.pure_eq_ok, Bool.and_eq_true] at h
    obtain ⟨_, s1, -, ok, s2, ⟨hfold, -⟩, more, s3, hmore, ⟨rfl, rfl⟩, -⟩ := h
    exact List.forall_mem_cons.mpr ⟨hfold, ih hmore⟩

/-- A call that accepts has scanned its request and folded every distinct claim. -/
theorem runWith_true {input : Bytes} {gas : Nat} {pins : Pins} {lim : Limits} {s s' : Session ρ} {out : Output}
    (h : runWith R keccak H S input gas pins lim s = (.ok out, s')) (hout : out.verdict = true) :
    ∃ scanned, (scan input gas lim : Res (Error ε) Scanned) = .ok scanned ∧
      ∀ o ∈ distinct scanned.occurrences, (folds H o.claim : Res (Error ε) Bool) = .ok true := by
  simp only [runWith, Run.bind_eq_ok, Run.modify_eq_ok, Run.lift_eq_ok, Prod.exists, Run.pure_eq_ok, prepare,
    Res.bind_eq_ok, Res.pure_eq_ok, Prod.mk.injEq] at h
  obtain ⟨_, s1, -, _, _, s2, ⟨⟨_, -, _, -, scanned, hscan, _, -, _, -, rfl, rfl⟩, -⟩, valid, s3, heval, rfl,
    -⟩ := h
  rw [Output.versioned_verdict] at hout
  subst hout
  refine ⟨scanned, hscan, ?_⟩
  simp only [evaluate, Run.bind_eq_ok] at heval
  obtain ⟨common, s4, -, _, s5, -, heval⟩ := heval
  split at heval
  · simp at heval
  · simp only [evaluateClaims, Run.bind_eq_ok, Run.pure_eq_ok, Bool.and_eq_true] at heval
    obtain ⟨loaded, s6, -, folded, s7, hfolded, sealed, s8, -, ⟨⟨rfl, -⟩, -⟩, -⟩ := heval
    exact foldAll_true hfolded

end Accepted

end Ureth.Source.B1
