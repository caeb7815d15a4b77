import Ureth.Source.B1.EvaluateSpec

/-!
# The order of the claims

Over a registry that can be read, an evaluation depends on the set of its claims
alone: each step is a conjunction over the distinct claims, over the distinct
epochs or over the distinct seals, and what is observed of an epoch or a seal does
not depend on the claim it was met in.
-/

namespace Ureth.Source.B1
open Ureth.Foundation
open Ureth.Foundation.Cbor (Value)
open Cbor (Item itemOf Scannable usizeMax)

/-! ## Folds always end -/

theorem shardDepth_lt {b : Bytes} {depth : Nat} (h : shardDepth b = .ok depth) : depth < 8 * b.length := by
  simp only [shardDepth, Res.bind_eq_ok, Res.okOr_eq_ok, Res.refuse_eq_ok, exists_const, Res.sub_eq_ok,
    Res.pure_eq_ok] at h
  obtain ⟨last, -, -, bits, ⟨-, rfl⟩, _, ⟨hpos, rfl⟩, -, rfl⟩ := h
  omega

section Folds

variable {ε : Type} {H : Bytes → Bytes32}

theorem foldShard_total {shard : Bytes} {depth : Nat} (hdepth : depth < 8 * shard.length) (siblings : List Item) (i : Nat)
    (hi : i + siblings.length ≤ depth) (h : Bytes32) :
    ∃ root, (foldShard H shard depth i siblings h : Res ε Bytes32) = .ok root := by
  induction siblings generalizing i h with
  | nil => exact ⟨h, rfl⟩
  | cons sib rest ih =>
    simp only [List.length_cons] at hi
    have hlast : (Res.sub depth 1 : Res ε Nat) = .ok (depth - 1) := Res.sub_eq_ok.mpr ⟨by omega, rfl⟩
    have hbit : (Res.sub (depth - 1) i : Res ε Nat) = .ok (depth - 1 - i) := Res.sub_eq_ok.mpr ⟨by omega, rfl⟩
    have hbyte : (depth - 1 - i) / 8 < shard.length := by omega
    simp only [foldShard, hlast, hbit, bitAt, Res.index, List.getElem?_eq_getElem hbyte, Res.bind_ok]
    exact ih (i + 1) (by omega) _

theorem foldTree_total {steps : List Value} (hsteps : ∀ t ∈ steps, Scannable t ∧ IsStep t) (partition : Nat) (h : Bytes32) :
    ∃ root, (foldTree H partition (steps.map itemOf) h : Res ε Bytes32) = .ok root := by
  induction steps generalizing h with
  | nil => exact ⟨h, rfl⟩
  | cons t rest ih =>
    rw [List.forall_mem_cons] at hsteps
    obtain ⟨⟨hscan, key, b, rfl, -, -⟩, hrest⟩ := hsteps
    have harray : (itemOf (.array [.uint key, .bytes b])).array 2 =
        .ok ⟨[itemOf (.uint key), itemOf (.bytes b)], rfl⟩ := (Cbor.array_itemOf hscan).mpr ⟨_, rfl, rfl, rfl⟩
    simp only [List.map_cons, foldTree, harray, Res.expect, Res.bind_ok]
    exact ih hrest _

/-- What `folds` relies on in a claim that is parsed. -/
theorem parts_of_parseClaim {r rest : Bytes} {tokens tokens' : Nat} {p : Parsed}
    (h : parseClaim r tokens = .ok (p, rest, tokens')) :
    (∃ ir, p.claim.ir.tagged 10 39002 = .ok ir) ∧ ∃ depth, shardDepth p.claim.shardCert[1].data = .ok depth := by
  simp only [parseClaim, Res.bind_eq_ok, Prod.exists, Res.pure_eq_ok, Prod.mk.injEq] at h
  obtain ⟨_, _, -, _, _, -, _, -, _, _, -, _, -, _, _, -, _, _, -, _, _, -, _, _, -, _, -, raw, _, -, it, _, -,
    uc, -, body, hbody, rfl, -, -⟩ := h
  simp only [certificateBody, inputRecord, shardCertificate, Res.bind_eq_ok, Prod.exists, Res.pure_eq_ok, Prod.mk.injEq] at hbody
  obtain ⟨_, ⟨ir, hir, -⟩, _, -, _, -, _, _, ⟨sc, -, shard, hshard, depth, hdepth, _, -, _, -, _, -, rfl, rfl⟩, _, _, -,
    _, _, -, _, -, rfl⟩ := hbody
  have hdata : sc[1].data = shard := by
    simp only [Cbor.Item.blob, Res.bind_eq_ok, Res.pure_eq_ok] at hshard
    obtain ⟨_, -, _, -, hdata⟩ := hshard
    exact hdata
  exact ⟨⟨ir, hir⟩, depth, by rw [hdata]; exact hdepth⟩

/-- The folds of a parsed claim end with a verdict. -/
theorem folds_total {r rest : Bytes} {tokens tokens' : Nat} {p : Parsed}
    (h : parseClaim r tokens = .ok (p, rest, tokens')) : ∃ b, (folds H p.claim : Res ε Bool) = .ok b := by
  obtain ⟨⟨ir, hir⟩, depth, hdepth⟩ := parts_of_parseClaim h
  obtain ⟨siblings, -, hsiblings⟩ := (formed_of_parseClaim h).1.siblings
  obtain ⟨steps, hsteps, hchildren⟩ := (formed_of_parseClaim h).1.steps
  simp only [folds, hir, Res.expect, Res.bind_ok, hdepth, hsiblings]
  split
  · exact ⟨false, rfl⟩
  · split
    · exact ⟨false, rfl⟩
    next hlen =>
      obtain ⟨top, htop⟩ := foldShard_total (ε := ε) (H := H) (shardDepth_lt hdepth) (siblings.map itemOf) 0
        (by omega) (H (p.claim.ir.raw ++ p.claim.tr.raw ++ p.claim.conf.raw))
      obtain ⟨root, hroot⟩ := foldTree_total (ε := ε) (H := H) hsteps (p.claim.treeCert[1].arg % 2 ^ 32)
        (H (partitionLeaf (p.claim.treeCert[1].arg % 2 ^ 32) (H (head32 ++ top.val))))
      refine ⟨decide (root.val = p.claim.sealFields[6].data), ?_⟩
      simp only [claimRoot, htop, hchildren, hroot, Res.bind_ok]
      rfl

end Folds

/-! ## The steps of an evaluation -/

section Steps

variable {ρ ε : Type} {R : RegistryRead ρ ε} {keccak : Bytes → Bytes32} {S : Secp256k1}
  {Q : ∀ α : Type, Run (Session ρ) (Error ε) α → Prop}

/-- A property of calls that holds of a read and that sequences keep; the checks between the reads fail
only as an impossible registry. -/
structure Readable (R : RegistryRead ρ ε) (Q : ∀ α : Type, Run (Session ρ) (Error ε) α → Prop) : Prop
    extends Run.Compositional (· = .registry) Q where
  read : ∀ k, Q Word (read R k)

theorem failsOnly_small (w : Word) : (small w : Res (Error ε) Nat).FailsOnly (· = .registry) :=
  Res.FailsOnly.bind (Res.failsOnly_refuse (by rfl)) fun _ _ => trivial

theorem failsOnly_memberId (m : List Word) : (memberId m : Res (Error ε) Bytes).FailsOnly (· = .registry) := by
  refine (failsOnly_small _).bind fun len _ => ?_
  refine (Res.failsOnly_refuse (by rfl)).bind fun _ _ => (Res.failsOnly_refuse (by rfl)).bind fun _ _ => ?_
  exact (Res.failsOnly_refuse (by rfl)).bind fun _ _ => trivial

theorem failsOnly_entryHead (w : List Word) : (entryHead w : Res (Error ε) EntryHead).FailsOnly (· = .registry) := by
  refine (failsOnly_small _).bind fun kind _ => (failsOnly_small _).bind fun start _ => ?_
  refine (failsOnly_small _).bind fun endRound _ => (failsOnly_small _).bind fun hasEnd _ => ?_
  refine (failsOnly_small _).bind fun scheme _ => (failsOnly_small _).bind fun count _ => ?_
  refine (failsOnly_small _).bind fun total _ => (Res.failsOnly_refuse (by rfl)).bind fun _ _ => trivial

theorem failsOnly_decodeCommon (pins : Pins) (w : List Word) :
    (decodeCommon pins w : Res (Error ε) CommonV2).FailsOnly (· = .registry) := by
  refine (failsOnly_small _).bind fun phase _ => (failsOnly_small _).bind fun network _ => ?_
  refine (failsOnly_small _).bind fun genesis _ => (failsOnly_small _).bind fun tip _ => ?_
  refine (failsOnly_small _).bind fun ready _ => (failsOnly_small _).bind fun round _ => ?_
  refine (failsOnly_small _).bind fun origin _ => (Res.failsOnly_refuse (by rfl)).bind fun _ _ => ?_
  exact (Res.failsOnly_refuse (by rfl)).bind fun _ _ => trivial

namespace Readable

theorem readAll (h : Readable R Q) (ks : List Word) : Q _ (readAll R ks) := by
  induction ks with
  | nil => exact h.pure _
  | cons k ks ih => exact h.bind (h.read k) fun w => h.bind ih fun ws => h.pure _

theorem addMember (h : Readable R Q) (m : List Word) (members : List (Member S)) (sum : Nat) :
    Q _ (addMember S m members sum) := by
  refine h.bind (h.lift (failsOnly_memberId m)) fun id => h.bind ?_ fun key => ?_
  · exact h.bind (h.modify _) fun _ => h.lift (Res.failsOnly_okOr (by rfl))
  · refine h.bind (h.lift (failsOnly_small _)) fun weight => h.bind (h.refuse (by rfl)) fun _ => ?_
    exact h.bind (h.refuse (by rfl)) fun _ => h.pure _

theorem readMembers (h : Readable R Q) (epoch n j : Nat) (members : List (Member S)) (sum : Nat) :
    Q _ (readMembers R keccak S epoch n j members sum) := by
  induction n generalizing j members sum with
  | zero => exact h.pure _
  | succ n ih => exact h.bind (h.readAll _) fun m => h.bind (h.addMember m members sum) fun x => ih (j + 1) x.1 x.2

theorem entry (h : Readable R Q) (epoch : Nat) : Q _ (entry R keccak S epoch) := by
  refine h.bind (h.readAll _) fun w => ?_
  split
  · exact h.bind (h.refuse (by rfl)) fun _ => h.pure _
  · refine h.bind (h.lift (failsOnly_entryHead w)) fun head => ?_
    refine h.bind (h.readMembers epoch head.count 0 [] 0) fun x => ?_
    exact h.bind (h.refuse (by rfl)) fun _ => h.pure _

theorem commonV2 (h : Readable R Q) (pins : Pins) : Q _ (commonV2 R keccak pins) :=
  h.bind (h.readAll _) fun w => h.lift (failsOnly_decodeCommon pins w)

theorem loadEpochs (h : Readable R Q) (common : CommonV2) (es : List Nat) : Q _ (loadEpochs R keccak S common es) := by
  induction es with
  | nil => exact h.pure _
  | cons e rest ih =>
    unfold B1.loadEpochs
    split
    · exact ih
    · refine h.bind (h.entry e) fun found => h.bind (h.lift (Res.failsOnly_okOr (by rfl))) fun stored => ?_
      refine h.bind (h.modify _) fun _ => h.bind (h.refuse (by rfl)) fun _ => ?_
      exact h.bind ih fun more => h.pure _

end Readable

/-- What the reads of a registry can end with: its own failure, or an impossible content. -/
def RegistryError (e : Error ε) : Prop := e = .registry ∨ ∃ h, e = .host h

theorem readable_raises (R : RegistryRead ρ ε) : Readable R fun _ m => Run.Raises RegistryError m := by
  refine ⟨Run.compositional_raises fun e he => .inl he, fun k s => ?_⟩
  unfold B1.read
  rcases R.sload k s.registry with ⟨e | w, registry⟩
  · exact .inr ⟨e, rfl⟩
  · trivial

/-- Loaded entries are sound. -/
theorem sound_of_loadEpochs {common : CommonV2} {es : List Nat} {s t : Session ρ} {loaded : List (Nat × Entry S)}
    (h : loadEpochs R keccak S common es s = (.ok loaded, t)) {k : Nat} {e : Entry S}
    (hfound : loaded.lookup k = some e) : e.Sound := by
  have hall : ∀ x ∈ loaded, x.2.Sound := by
    clear hfound
    induction es generalizing s t loaded with
    | nil =>
      obtain ⟨rfl, -⟩ := Run.pure_eq_ok.mp h
      simp
    | cons e rest ih =>
      unfold B1.loadEpochs at h
      split at h
      · exact ih h
      · simp only [Run.bind_eq_ok, Run.lift_eq_ok, Res.okOr_eq_ok, Run.modify_eq_ok, Run.refuse_eq_ok,
          Run.pure_eq_ok] at h
        obtain ⟨found, s1, hentry, stored, _, ⟨rfl, rfl⟩, _, s2, -, _, s3, -, more, s4, hmore, rfl, -⟩ := h
        exact List.forall_mem_cons.mpr ⟨sound_of_entry hentry, ih hmore⟩
  obtain ⟨before, after, rfl, -⟩ := List.lookup_eq_some_iff.mp hfound
  exact hall (k, e) (by simp)

end Steps

section Words

variable {ρ ε : Type} {words : Word → Word} {keccak H : Bytes → Bytes32} {S : Secp256k1}

/-- Over words that can all be read, a step's result is decided by the words alone. -/
theorem readable_words (words : Word → Word) :
    Readable (.ofWords ε words) fun _ m => Run.Settled (· = .registry) m :=
  ⟨Run.compositional_settled, fun _ => ⟨fun _ _ => rfl, fun _ => trivial⟩⟩

/-! ## Epochs -/

/-- The entry of one epoch that is loaded: none of an epoch outside the registry's range. -/
def loadEpoch (words : Word → Word) (keccak : Bytes → Bytes32) (S : Secp256k1) (ε : Type) (common : CommonV2) (e : Nat) :
    Res (Error ε) (Option (Entry S)) :=
  if e < common.genesis ∨ e > common.origin then .ok none
  else do
    let found ← (entry (.ofWords ε words) keccak S e (.start ())).1
    let stored ← Res.okOr .registry found
    Res.refuse (impossibleEntry S common e stored) .registry
    return some stored

theorem failsOnly_loadEpoch (common : CommonV2) (e : Nat) :
    (loadEpoch words keccak S ε common e).FailsOnly (· = .registry) := by
  unfold loadEpoch
  split
  · trivial
  · refine (((readable_words words).entry e).2 (.start ())).bind fun found _ => ?_
    refine (Res.failsOnly_okOr (by rfl)).bind fun stored _ => ?_
    exact (Res.failsOnly_refuse (by rfl)).bind fun _ _ => trivial

theorem loadEpochs_cons (common : CommonV2) (e : Nat) (rest : List Nat) (s : Session Unit) :
    (loadEpochs (.ofWords ε words) keccak S common (e :: rest) s).1 =
      loadEpoch words keccak S ε common e >>= fun found =>
        (loadEpochs (.ofWords ε words) keccak S common rest s).1 >>= fun more =>
          .ok (found.toList.map (e, ·) ++ more) := by
  have hrest : Run.Steady (loadEpochs (.ofWords ε words) keccak S common rest) :=
    ((readable_words words).loadEpochs common rest).1
  unfold loadEpoch
  rw [loadEpochs]
  split
  next hout => cases hmore : (loadEpochs (.ofWords ε words) keccak S common rest s).1 <;> rfl
  next hin =>
    rw [((readable_words words).entry e).1 (.start ()) s]
    rcases hrun : entry (.ofWords ε words) keccak S e s with ⟨f | found, t⟩
    · rw [Run.bind_apply_error hrun]
      rfl
    · rw [Run.bind_apply_ok hrun]
      cases found with
      | none => rfl
      | some stored =>
        have htail : ∀ s', ((do
            let more ← loadEpochs (.ofWords ε words) keccak S common rest
            return (e, stored) :: more) s').1 =
            (loadEpochs (.ofWords ε words) keccak S common rest s).1 >>= fun more => .ok ((e, stored) :: more) := by
          intro s'
          rw [Run.Steady.bind_fst fun more => Run.steady_pure _, hrest s' s]
          rfl
        change ((Run.lift (Res.refuse (impossibleEntry S common e stored) .registry) >>= fun _ => do
          let more ← loadEpochs (.ofWords ε words) keccak S common rest
          return (e, stored) :: more) (countLoad stored.members.length t)).1 =
            (Res.refuse (impossibleEntry S common e stored) .registry >>= fun _ => pure (some stored)) >>= _
        rw [Run.lift_bind_fst, htail]
        cases hc : (Res.refuse (impossibleEntry S common e stored) .registry : Res (Error ε) Unit) <;> rfl

/-- What a load answers for an epoch, if it ends. -/
abbrev loaded? (words : Word → Word) (keccak : Bytes → Bytes32) (S : Secp256k1) (ε : Type) (common : CommonV2) (e : Nat) :
    Option (Option (Entry S)) := (loadEpoch words keccak S ε common e).value?

/-- The table that loading some epochs leaves. -/
def entries (words : Word → Word) (keccak : Bytes → Bytes32) (S : Secp256k1) (ε : Type) (common : CommonV2) (es : List Nat) :
    List (Nat × Entry S) := es.filterMap fun e => (loaded? words keccak S ε common e).join.map (e, ·)

/-- Loading fails if one of the epochs does, and otherwise finds the entry of each of them. -/
theorem loadEpochs_fst (common : CommonV2) (es : List Nat) (s : Session Unit) :
    (loadEpochs (.ofWords ε words) keccak S common es s).1 =
      if ∀ e ∈ es, (loaded? words keccak S ε common e).isSome then
        .ok (entries words keccak S ε common es)
      else Res.fail .registry := by
  induction es with
  | nil => rfl
  | cons e rest ih =>
    rw [loadEpochs_cons, ih]
    have hfails : (loadEpoch words keccak S ε common e).FailsOnly (· = .registry) := failsOnly_loadEpoch common e
    cases hload : loadEpoch words keccak S ε common e with
    | error f =>
      rw [hload] at hfails
      cases f with
      | panic => exact hfails.elim
      | error f =>
        obtain rfl : f = .registry := hfails
        rw [if_neg (c := ∀ k ∈ e :: rest, _)]
        · rfl
        · intro hall
          have := hall e List.mem_cons_self
          rw [loaded?, hload] at this
          exact absurd this (by simp [Res.value?])
    | ok found =>
      have hsome : loaded? words keccak S ε common e = some found := by rw [loaded?, hload]; rfl
      simp only [List.forall_mem_cons, hsome, Option.isSome_some, true_and, entries, List.filterMap_cons,
        Option.join_some]
      split
      · cases found <;> rfl
      · rfl

theorem lookup_filterMap {α : Type} (f : Nat → Option α) (es : List Nat) (k : Nat) :
    (es.filterMap fun e => (f e).map (e, ·)).lookup k = if k ∈ es then f k else none := by
  induction es with
  | nil => rfl
  | cons e rest ih =>
    by_cases hk : k = e
    · subst hk
      rw [if_pos List.mem_cons_self]
      cases hf : f k with
      | none => simp [hf, ih]
      | some a => simp [hf]
    · have hbeq : (k == e) = false := beq_eq_false_iff_ne.mpr hk
      simp only [List.mem_cons, hk, false_or, ← ih, List.filterMap_cons]
      cases hf : f e with
      | none => rfl
      | some a => simp only [Option.map_some, List.lookup_cons, hbeq]

theorem lookup_entries (common : CommonV2) (es : List Nat) (k : Nat) :
    (entries words keccak S ε common es).lookup k = if k ∈ es then (loaded? words keccak S ε common k).join else none :=
  lookup_filterMap _ es k

/-! ## Folds and seals -/

/-- The parts of a claim that the verdict of its seal reads. -/
structure Claim.SameSeal (c c' : Claim) : Prop where
  item : c.sealItem = c'.sealItem
  fields : c.sealFields = c'.sealFields

instance Claim.decidableBacked (c : Claim) (e : Entry S) : Decidable (c.Backed H e) :=
  inferInstanceAs (Decidable (_ ∧ _ ∧ _))

/-- The verdict of a seal under the loaded entries. -/
def Claim.sealHolds (H : Bytes → Bytes32) (common : CommonV2) (loaded : List (Nat × Entry S)) (c : Claim) : Bool :=
  (loaded.lookup c.epoch).any fun e => sealInRange S common c e && decide (c.Backed H e)

theorem Claim.SameSeal.sealHolds {common : CommonV2} {loaded loaded' : List (Nat × Entry S)} {c c' : Claim}
    (hc : c.SameSeal c') (hl : ∀ k, loaded.lookup k = loaded'.lookup k) :
    c.sealHolds H common loaded = c'.sealHolds H common loaded' := by
  have hepoch : c.epoch = c'.epoch := by rw [Claim.epoch, Claim.epoch, hc.fields]
  have hrange : ∀ e : Entry S, sealInRange S common c e = sealInRange S common c' e := by
    intro e
    rw [sealInRange, sealInRange, hc.fields]
  have hsignatures : c.signatures = c'.signatures := by rw [Claim.signatures, Claim.signatures, hc.fields]
  have hsigner : (c.signer H : Member S → Bool) = c'.signer H := by
    funext m
    rw [Claim.signer, Claim.signer, Claim.message, Claim.message, Claim.unsigned, Claim.unsigned, hc.item, hc.fields,
      hsignatures]
  have hbacked : ∀ e : Entry S, c.Backed H e ↔ c'.Backed H e := by
    intro e
    rw [Claim.Backed, Claim.Backed, Claim.signedWeight, Claim.signedWeight, hsigner, hsignatures]
  simp only [Claim.sealHolds, hepoch, hl, hrange, hbacked]

theorem sealVerdict_fst {common : CommonV2} {loaded : List (Nat × Entry S)} {c : Claim} (hc : c.Sealed)
    (hl : ∀ e, loaded.lookup c.epoch = some e → e.Sound) (s : Session ρ) :
    ((sealVerdict H S common loaded c : Run (Session ρ) (Error ε) Bool) s).1 = .ok (c.sealHolds H common loaded) := by
  unfold sealVerdict Claim.sealHolds
  cases hfound : loaded.lookup c.epoch with
  | none => rfl
  | some e =>
    rw [Option.any_some]
    dsimp only
    split
    next hrange =>
      rw [Run.bind_apply_ok (a := ()) (Run.modify_eq_ok.mpr rfl), hrange, Bool.true_and]
      obtain ⟨verdict, s', hrun, hverdict⟩ := quorum_eq (ε := ε) (H := H) hc (hl e hfound)
        { s with counters := { s.counters with quorums := s.counters.quorums + 1 } }
      rw [hrun, Bool.eq_iff_iff.mpr (hverdict.trans (decide_eq_true_iff).symm)]
    next hrange =>
      rw [Bool.eq_false_iff.mpr hrange]
      rfl

theorem foldAll_fst {os : List Occurrence} {ok : Occurrence → Bool}
    (hos : ∀ o ∈ os, (folds H o.claim : Res (Error ε) Bool) = .ok (ok o)) (s : Session ρ) :
    ((foldAll H os : Run (Session ρ) (Error ε) Bool) s).1 = .ok (os.all ok) := by
  induction os generalizing s with
  | nil => rfl
  | cons o rest ih =>
    rw [List.forall_mem_cons] at hos
    rw [foldAll, Run.bind_apply_ok (a := ()) (Run.modify_eq_ok.mpr rfl),
      Run.bind_apply_ok (Run.lift_eq_ok.mpr ⟨hos.1, rfl⟩), Run.Steady.bind_fst fun more => Run.steady_pure _, ih hos.2]
    rfl

theorem sealAll_fst {common : CommonV2} {loaded : List (Nat × Entry S)} {os : List Occurrence} {ok : Occurrence → Bool}
    (hos : ∀ o ∈ os, ∀ s, ((sealVerdict H S common loaded o.claim : Run (Session ρ) (Error ε) Bool) s).1 = .ok (ok o))
    (s : Session ρ) :
    ((sealAll H S common loaded os : Run (Session ρ) (Error ε) Bool) s).1 = .ok (os.all ok) := by
  induction os generalizing s with
  | nil => rfl
  | cons o rest ih =>
    rw [List.forall_mem_cons] at hos
    rw [sealAll, Run.bind_fst_ok (hos.1 s), Run.Steady.bind_fst fun more => Run.steady_pure _, ih hos.2]
    rfl

end Words

/-- The seal of a parsed claim is a scanned item, and its fields and signatures are read from it. -/
theorem seal_of_parseClaim {r rest : Bytes} {tokens tokens' : Nat} {p : Parsed}
    (h : parseClaim r tokens = .ok (p, rest, tokens')) :
    Cbor.Scanned p.claim.sealItem ∧ unicitySeal p.claim.sealItem = .ok (p.claim.sealFields, p.sigs) := by
  simp only [parseClaim, Res.bind_eq_ok, Prod.exists, Res.pure_eq_ok, Prod.mk.injEq] at h
  obtain ⟨_, _, -, _, _, -, _, -, _, _, -, _, -, _, _, -, _, _, -, _, _, -, _, _, -, _, -, raw, _, -, it, _, hone,
    uc, huc, body, hbody, rfl, -, -⟩ := h
  have hscanned : Cbor.Scanned it := Cbor.scanned_of_oneWith Cbor.maxItems_lt hone
  simp only [certificateBody, Res.bind_eq_ok, Prod.exists, Res.pure_eq_ok] at hbody
  obtain ⟨_, -, _, -, _, -, _, _, -, _, _, -, sf, sigs, hseal, _, -, rfl⟩ := hbody
  exact ⟨hscanned.tagged huc 6 (by omega), hseal⟩

/-- One seal reads the same wherever it stands. -/
theorem Occurrence.Reads.sameSeal {o o' : Occurrence} (h : o.Reads) (h' : o'.Reads) (hraw : o.sealRaw = o'.sealRaw) :
    o.claim.SameSeal o'.claim ∧ o.sigs = o'.sigs := by
  obtain ⟨⟨t, ht, hitem⟩, hseal⟩ := seal_of_parseClaim h.parse
  obtain ⟨⟨t', ht', hitem'⟩, hseal'⟩ := seal_of_parseClaim h'.parse
  have hencode : t.encode = t'.encode := by
    have hraw' : o.parsed.claim.sealItem.raw = o'.parsed.claim.sealItem.raw := hraw
    rw [hitem, hitem'] at hraw'
    exact hraw'
  have hsame : o.parsed.claim.sealItem = o'.parsed.claim.sealItem := by
    rw [hitem, hitem', Value.encode_inj ht.fits ht'.fits hencode]
  rw [hsame, hseal'] at hseal
  obtain ⟨hfields, hsigs⟩ := Prod.mk.inj (Except.ok.inj hseal)
  exact ⟨⟨hsame, hfields.symm⟩, hsigs.symm⟩

/-! ## Claims in another order -/

/-- The occurrences of two requests of the same claims, whatever their order and their repetitions. -/
structure SameClaims (occurrences occurrences' : List Occurrence) : Prop where
  reads : ∀ o ∈ occurrences, o.Reads
  reads' : ∀ o ∈ occurrences', o.Reads
  packed : ∀ b, b ∈ occurrences.map Occurrence.packed ↔ b ∈ occurrences'.map Occurrence.packed

theorem SameClaims.distinct {os os' : List Occurrence} (h : SameClaims os os') : (distinct os).Perm (distinct os') := by
  have hperm := firstBy_map_perm (f := id) h.packed
    (fun a ha b hb hab => (h.reads a ha).eq (h.reads' b hb) hab)
    (fun a ha b hb hab => (h.reads a ha).eq (h.reads b hb) hab)
  rw [List.map_id, List.map_id] at hperm
  exact hperm

theorem all_of_perm_map {α : Type} {f : α → Bool} {as bs : List α} (h : (as.map f).Perm (bs.map f)) :
    as.all f = bs.all f := by
  have := h.all_eq (f := id)
  simpa using this

section Evaluation

variable {ε : Type} {words : Word → Word} {keccak H : Bytes → Bytes32} {S : Secp256k1} {common : CommonV2}
  {claims claims' : List Occurrence}

/-- The distinct epochs, in the order of their first use. -/
def epochsOf (claims : List Occurrence) : List Nat := (firstBy (·.claim.epoch) claims).map (·.claim.epoch)

def foldOk (H : Bytes → Bytes32) (ε : Type) (o : Occurrence) : Bool :=
  (folds H o.claim : Res (Error ε) Bool).value?.getD false

theorem folds_eq {o : Occurrence} (ho : o.Reads) : (folds H o.claim : Res (Error ε) Bool) = .ok (foldOk H ε o) := by
  obtain ⟨b, hb⟩ := folds_total (ε := Error ε) (H := H) ho.parse
  have hb' : (folds H o.claim : Res (Error ε) Bool) = .ok b := hb
  rw [foldOk, hb']
  rfl

/-- An evaluation as conjunctions over the claims and over the seals. -/
theorem evaluateClaims_fst (hreads : ∀ o ∈ claims, o.Reads) (s : Session Unit) :
    (evaluateClaims (.ofWords ε words) keccak H S common claims s).1 =
      if ∀ e ∈ epochsOf claims, (loaded? words keccak S ε common e).isSome then
        .ok (claims.all (foldOk H ε) && slotsDiffer claims &&
          (firstBy Occurrence.sealRaw claims).all
            (·.claim.sealHolds H common (entries words keccak S ε common (epochsOf claims))))
      else Res.fail .registry := by
  have hload : (loadEpochs (.ofWords ε words) keccak S common (epochsOf claims) s).1 = _ :=
    loadEpochs_fst common (epochsOf claims) s
  rw [evaluateClaims, ← epochsOf]
  by_cases hall : ∀ e ∈ epochsOf claims, (loaded? words keccak S ε common e).isSome
  · rw [if_pos hall] at hload ⊢
    have hseal : ∀ o ∈ firstBy Occurrence.sealRaw claims, ∀ t : Session Unit,
        ((sealVerdict H S common (entries words keccak S ε common (epochsOf claims)) o.claim :
          Run (Session Unit) (Error ε) Bool) t).1 = _ := fun o ho =>
      sealVerdict_fst (sealed_of_parseClaim (hreads o (mem_of_mem_firstBy ho)).parse) fun e he =>
        sound_of_loadEpochs (Prod.ext hload rfl) he
    rw [Run.bind_fst_ok hload, Run.bind_fst_ok (foldAll_fst (fun o ho => folds_eq (hreads o ho)) _),
      Run.bind_fst_ok (sealAll_fst hseal _)]
    rfl
  · rw [if_neg hall] at hload ⊢
    exact Run.bind_fst_error hload

theorem epochsOf_perm (hperm : claims.Perm claims') : (epochsOf claims).Perm (epochsOf claims') :=
  firstBy_map_perm (fun _ => (hperm.map _).mem_iff) (fun _ _ _ _ h => h) fun _ _ _ _ h => h

/-- An evaluation does not depend on the order of its claims. -/
theorem evaluateClaims_perm (hperm : claims.Perm claims') (hreads : ∀ o ∈ claims, o.Reads) (s s' : Session Unit) :
    (evaluateClaims (.ofWords ε words) keccak H S common claims s).1 =
      (evaluateClaims (.ofWords ε words) keccak H S common claims' s').1 := by
  have hreads' : ∀ o ∈ claims', o.Reads := fun o ho => hreads o (hperm.mem_iff.mpr ho)
  have hepochs : ∀ e, e ∈ epochsOf claims ↔ e ∈ epochsOf claims' := fun e => (epochsOf_perm hperm).mem_iff
  have hslots : slotsDiffer claims = slotsDiffer claims' := decide_eq_decide.mpr (hperm.map _).nodup_iff
  have hlookup : ∀ k, (entries words keccak S ε common (epochsOf claims)).lookup k =
      (entries words keccak S ε common (epochsOf claims')).lookup k := by
    intro k
    simp only [lookup_entries, hepochs]
  have hsame : ∀ a ∈ claims, ∀ b ∈ claims, a.sealRaw = b.sealRaw →
      a.claim.sealHolds H common (entries words keccak S ε common (epochsOf claims)) =
        b.claim.sealHolds H common (entries words keccak S ε common (epochsOf claims)) :=
    fun a ha b hb hab => ((hreads a ha).sameSeal (hreads b hb) hab).1.sealHolds fun _ => rfl
  have hok : ∀ o : Occurrence, o.claim.sealHolds H common (entries words keccak S ε common (epochsOf claims')) =
      o.claim.sealHolds H common (entries words keccak S ε common (epochsOf claims)) :=
    fun o => Claim.SameSeal.sealHolds ⟨rfl, rfl⟩ fun k => (hlookup k).symm
  have hseals := all_of_perm_map (firstBy_map_perm (fun _ => (hperm.map Occurrence.sealRaw).mem_iff)
    (fun a ha b hb => hsame a ha b (hperm.mem_iff.mpr hb)) hsame)
  simp only [evaluateClaims_fst hreads, evaluateClaims_fst hreads', hepochs, hok, hseals, hslots, hperm.all_eq]

/-- Over any registry, the evaluation of claims that read fails only as the reads of the registry do. -/
theorem raises_evaluateClaims {ρ : Type} {R : RegistryRead ρ ε} (hreads : ∀ o ∈ claims, o.Reads) :
    Run.Raises RegistryError (evaluateClaims R keccak H S common claims) := by
  refine ((readable_raises R).loadEpochs common (epochsOf claims)).bind fun loaded s t hload => ?_
  have hfold : Run.Raises RegistryError (foldAll H claims : Run (Session ρ) (Error ε) Bool) := by
    intro u
    rw [foldAll_fst fun o ho => folds_eq (hreads o ho)]
    trivial
  have hseal : Run.Raises RegistryError
      (sealAll H S common loaded (firstBy Occurrence.sealRaw claims) : Run (Session ρ) (Error ε) Bool) := by
    intro u
    rw [sealAll_fst fun o ho => sealVerdict_fst (sealed_of_parseClaim (hreads o (mem_of_mem_firstBy ho)).parse)
      fun e he => sound_of_loadEpochs hload he]
    trivial
  exact (hfold.andThen fun folded => hseal.andThen fun sealed => Run.raises_pure _) t

end Evaluation

section Requests

variable {ε : Type} {words : Word → Word} {keccak H : Bytes → Bytes32} {S : Secp256k1} {lim : Limits}
  {os os' : List Occurrence}

/-- An evaluation depends on the set of the claims alone. -/
theorem SameClaims.evaluate (h : SameClaims os os') (d d' : Dimensions) (pins : Pins) (s s' : Session Unit) :
    (evaluate (.ofWords ε words) keccak H S ⟨os, d⟩ pins s).1 =
      (evaluate (.ofWords ε words) keccak H S ⟨os', d'⟩ pins s').1 := by
  have hcommon : (commonV2 (.ofWords ε words) keccak pins s).1 = (commonV2 (.ofWords ε words) keccak pins s').1 :=
    ((readable_words words).commonV2 pins).1 s s'
  unfold B1.evaluate
  cases hrun : (commonV2 (.ofWords ε words) keccak pins s).1 with
  | error f => rw [Run.bind_fst_error hrun, Run.bind_fst_error (hcommon.symm.trans hrun)]
  | ok common =>
    rw [Run.bind_fst_ok hrun, Run.bind_fst_ok (hcommon.symm.trans hrun)]
    rw [Run.bind_apply_ok (a := ()) (Run.modify_eq_ok.mpr rfl), Run.bind_apply_ok (a := ()) (Run.modify_eq_ok.mpr rfl)]
    split
    · rfl
    · exact evaluateClaims_perm h.distinct (fun o ho => h.reads o (mem_of_mem_firstBy ho)) _ _

theorem SameClaims.seals (h : SameClaims os os') :
    ((firstBy Occurrence.sealRaw (B1.distinct os)).map Occurrence.sigs).Perm
      ((firstBy Occurrence.sealRaw (B1.distinct os')).map Occurrence.sigs) := by
  have hreads : ∀ o ∈ B1.distinct os, o.Reads := fun o ho => h.reads o (mem_of_mem_firstBy ho)
  have hsigs : ∀ a ∈ B1.distinct os, ∀ b ∈ B1.distinct os, a.sealRaw = b.sealRaw → a.sigs = b.sigs :=
    fun a ha b hb hab => ((hreads a ha).sameSeal (hreads b hb) hab).2
  exact firstBy_map_perm (fun _ => (h.distinct.map _).mem_iff)
    (fun a ha b hb => hsigs a ha b (h.distinct.mem_iff.mpr hb)) hsigs

/-- The grouped dimensions depend on the set of the claims alone. -/
theorem SameClaims.dimensions (h : SameClaims os os') (c : Nat) :
    dimensionsOf c os = { dimensionsOf c os' with k := os.length } := by
  have hepochs := (epochsOf_perm h.distinct).length_eq
  have hseals := h.seals.length_eq
  simp only [epochsOf, List.length_map] at hepochs hseals
  simp only [dimensionsOf, Dimensions.mk.injEq, true_and]
  exact ⟨hepochs, hseals, h.seals.sum_eq, h.distinct.length_eq, (h.distinct.map _).sum_eq⟩

theorem SameClaims.of_perm (hperm : os'.Perm os) (hreads : ∀ o ∈ os, o.Reads) : SameClaims os' os :=
  ⟨fun o ho => hreads o (hperm.mem_iff.mp ho), hreads, fun _ => (hperm.map _).mem_iff⟩

theorem SameClaims.of_copy {o : Occurrence} (ho : o ∈ os) (hreads : ∀ o ∈ os, o.Reads) :
    SameClaims (os ++ [o]) os := by
  have hmem : ∀ x, x ∈ os ++ [o] ↔ x ∈ os := by
    intro x
    rw [List.mem_append, List.mem_singleton]
    exact ⟨fun h => h.elim id fun h => h ▸ ho, .inl⟩
  refine ⟨fun x hx => hreads x ((hmem x).mp hx), hreads, fun b => ?_⟩
  simp only [List.mem_map, hmem]

theorem Acceptable.perm (h : Acceptable lim os) (hperm : os'.Perm os) : Acceptable lim os' := by
  have hsame := SameClaims.of_perm hperm h.reads
  refine ⟨?_, ?_, hsame.reads, ?_, ?_, ?_⟩
  · rw [hperm.length_eq]
    exact h.some
  · rw [hperm.length_eq]
    exact h.few
  · intro hshared
    rw [(hperm.map _).sum_eq]
    exact h.items hshared
  · rw [(hperm.map _).sum_eq]
    exact h.paths
  · rw [hsame.seals.sum_eq]
    exact h.sigs

/-- A row of claims determines them. -/
theorem packedAll_inj (h : ∀ o ∈ os, o.Reads) (h' : ∀ o ∈ os', o.Reads) (hlen : os.length = os'.length)
    (hpacked : packedAll os = packedAll os') : os = os' := by
  induction os generalizing os' with
  | nil => exact (List.eq_nil_of_length_eq_zero hlen.symm).symm
  | cons o rest ih =>
    obtain ⟨o', rest', rfl⟩ := List.exists_cons_of_length_eq_add_one hlen.symm
    rw [List.forall_mem_cons] at h h'
    have hread : ∀ {o : Occurrence}, o.Reads → ∀ more, parseClaim (o.packed ++ more) 0 = .ok (o.parsed, more, 0 + o.items) :=
      fun ho more => parseClaim_append.mpr ⟨_, ho.parse, rfl, by rw [Nat.zero_add]; exact ho.items_le⟩
    have hpacked' : o.packed ++ packedAll rest = o'.packed ++ packedAll rest' := by
      simpa only [packedAll, List.flatMap_cons] using hpacked
    have hparse := hread h.1 (packedAll rest)
    rw [hpacked', hread h'.1 (packedAll rest')] at hparse
    have hmore : packedAll rest' = packedAll rest := (Prod.mk.inj (Prod.mk.inj (Except.ok.inj hparse)).2).1
    rw [hmore] at hpacked'
    rw [h.1.eq h'.1 (List.append_cancel_right hpacked'), ih h.2 h'.2 (by simpa using hlen) hmore.symm]

/-- The request is structurally accepted: it fits and its scan, given gas, succeeds. -/
structure Accepted (ε : Type) (lim : Limits) (input : Bytes) (s : Scanned) : Prop where
  fits : input.length ≤ lim.bytes
  scan : (scan input usizeMax lim : Res (Error ε) Scanned) = .ok s

variable {input input' : Bytes} {s s' : Scanned}

/-- The claims of the accepted request of a row of claims are these. -/
theorem Accepted.occurrences_eq (hlim : lim.Word) (h : Accepted ε lim (request os) s) (hreads : ∀ o ∈ os, o.Reads)
    (hsome : 1 ≤ os.length) (hfew : os.length ≤ 2 ^ 16) : s.occurrences = os := by
  obtain ⟨hrequest, hacc, -⟩ := (scan_iff hlim).mp h.scan
  have hbytes := List.append_inj (List.append_inj hrequest (by simp)).1 (by simp)
  have hcount := congrArg beNat hbytes.2
  rw [beNat_beBytes, beNat_beBytes] at hcount
  have h1 := hacc.some
  have h2 := hacc.few
  have h3 := hlim.claims
  have hlen : os.length = s.occurrences.length := by omega
  exact (packedAll_inj hreads hacc.reads hlen (List.append_inj hrequest (by simp)).2).symm

/-- Gas decides only whether an accepted request is scanned. -/
theorem Accepted.scan_gas (h : Accepted ε lim input s) (gas : Nat) :
    ∃ need, (scanGas input.length s.dims.k : Res (Error ε) Nat) = .ok need ∧
      (B1.scan input gas lim : Res (Error ε) Scanned) = Res.refuse (gas < need) .outOfGas >>= fun _ => .ok s := by
  have hscan := h.scan
  simp only [B1.scan, Res.bind_eq_ok, Prod.exists, Res.pure_eq_ok] at hscan
  obtain ⟨k, data, hheader, need, hneed, _, -, occurrences, rest, hclaims, _, htrailing, dims, hdims, rfl⟩ := hscan
  have hk : dims.k = k := by
    simp only [group, Res.mapErr_eq_ok, Res.bind_eq_ok, Res.pure_eq_ok] at hdims
    obtain ⟨_, -, _, -, _, -, rfl⟩ := hdims
    rfl
  refine ⟨need, by rw [hk]; exact hneed, ?_⟩
  simp only [B1.scan, hheader, hneed, hclaims, htrailing, hdims, Res.bind_ok]
  rfl

/-- The unpaid part of an accepted call depends on its length and its dimensions. -/
theorem Accepted.prepare_eq (h : Accepted ε lim input s) (gas : Nat) :
    (prepare input gas lim : Res (Error ε) (Scanned × Nat)) = do
      Res.refuse (gas < min usizeMax (60000 + min usizeMax (16 * input.length))) .outOfGas
      let need ← scanGas input.length s.dims.k
      Res.refuse (gas < need) .outOfGas
      let charge ← s.dims.gas
      Res.refuse (gas < charge) .outOfGas
      return (s, charge) := by
  obtain ⟨need, hneed, hscan⟩ := h.scan_gas gas
  have hfits : (Res.refuse (input.length > lim.bytes) (.malformed .limit) : Res (Error ε) Unit) = .ok () :=
    Res.refuse_of_not (by have := h.fits; omega)
  simp only [prepare, hfits, hscan, hneed, Res.bind_ok]
  congr 1
  funext _
  cases (Res.refuse (gas < need) .outOfGas : Res (Error ε) Unit) <;> rfl

/-- The charge is a threshold. -/
theorem Accepted.prepare_charge (h : Accepted ε lim input s) {charge : Nat}
    (hcharge : (s.dims.gas : Res (Error ε) Nat) = .ok charge) (hbytes : s.dims.c = input.length) (gas : Nat) :
    (prepare input gas lim : Res (Error ε) (Scanned × Nat)) =
      Res.refuse (gas < charge) .outOfGas >>= fun _ => .ok (s, charge) := by
  obtain ⟨need, hneed, hle⟩ : ∃ need, (scanGas input.length s.dims.k : Res (Error ε) Nat) = .ok need ∧ need ≤ charge := by
    simp only [Dimensions.gas, batchGas, Res.bind_eq_ok, Res.u64_eq_ok, hbytes] at hcharge
    obtain ⟨need, hneed, -, rfl⟩ := hcharge
    exact ⟨need, hneed, by omega⟩
  have hbase : min usizeMax (60000 + min usizeMax (16 * input.length)) ≤ need := by
    simp only [scanGas, Res.bind_eq_ok, Res.u64_eq_ok] at hneed
    obtain ⟨others, -, -, rfl⟩ := hneed
    omega
  rw [h.prepare_eq, hneed, hcharge]
  by_cases hpaid : gas < charge
  · simp only [Res.bind_ok, Res.refuse, if_pos hpaid]
    split
    · rfl
    · split <;> rfl
  · have h1 : ¬ gas < need := by omega
    have h2 : ¬ gas < min usizeMax (60000 + min usizeMax (16 * input.length)) := by omega
    simp only [Res.bind_ok, Res.refuse_of_not hpaid, Res.refuse_of_not h1, Res.refuse_of_not h2]
    rfl

theorem Accepted.reads (hlim : lim.Word) (h : Accepted ε lim input s) : ∀ o ∈ s.occurrences, o.Reads :=
  ((scan_iff hlim).mp h.scan).2.1.reads

theorem Accepted.dims_eq (hlim : lim.Word) (h : Accepted ε lim input s) :
    s.dims = dimensionsOf input.length s.occurrences := ((scan_iff hlim).mp h.scan).2.2.1

variable {pins : Pins}

/-- An accepted call is its charge and its evaluation. -/
theorem Accepted.runWith_fst (hlim : lim.Word) (h : Accepted ε lim input s) (gas : Nat) (st : Session Unit) :
    (runWith (.ofWords ε words) keccak H S input gas pins lim st).1 =
      (prepare input gas lim : Res (Error ε) (Scanned × Nat)) >>= fun p =>
        (evaluate (.ofWords ε words) keccak H S s pins st).1 >>= fun valid =>
          .ok (Output.versioned p.2 2 valid) := by
  have hsame : SameClaims s.occurrences s.occurrences := ⟨h.reads hlim, h.reads hlim, fun _ => Iff.rfl⟩
  have hscanned : ∀ p, (prepare input gas lim : Res (Error ε) (Scanned × Nat)) = .ok p → p.1 = s := by
    intro p hp
    rw [h.prepare_eq gas] at hp
    simp only [Res.bind_eq_ok, Res.pure_eq_ok] at hp
    obtain ⟨_, -, _, -, _, -, _, -, _, -, rfl⟩ := hp
    rfl
  rw [runWith, Run.bind_apply_ok (a := ()) (Run.modify_eq_ok.mpr rfl), Run.lift_bind_fst]
  generalize (prepare input gas lim : Res (Error ε) (Scanned × Nat)) = prepared at hscanned ⊢
  cases prepared with
  | error f => simp only [Res.bind_error]
  | ok p =>
    obtain ⟨scanned, charge⟩ := p
    obtain rfl : scanned = s := hscanned _ rfl
    rw [Res.bind_ok, Res.bind_ok, Run.Steady.bind_fst fun valid => Run.steady_pure _]
    exact congrArg (· >>= _) (hsame.evaluate _ _ pins _ _)

section AnyRegistry

variable {ρ : Type} {R : RegistryRead ρ ε} {charge gas : Nat}

theorem raises_evaluate (hreads : ∀ o ∈ s.occurrences, o.Reads) : Run.Raises RegistryError (evaluate R keccak H S s pins) := by
  refine ((readable_raises R).commonV2 pins).andThen fun common => ?_
  refine ((readable_raises R).modify _).andThen fun _ => ?_
  split
  · exact Run.raises_pure _
  · exact raises_evaluateClaims fun o ho => hreads o (mem_of_mem_firstBy ho)

/-- Below its charge an accepted call is out of gas, over any registry. -/
theorem Accepted.runWith_unpaid (hlim : lim.Word) (h : Accepted ε lim input s)
    (hcharge : (s.dims.gas : Res (Error ε) Nat) = .ok charge) (hgas : gas < charge) (st : Session ρ) :
    (runWith R keccak H S input gas pins lim st).1 = Res.fail .outOfGas := by
  rw [runWith, Run.bind_apply_ok (a := ()) (Run.modify_eq_ok.mpr rfl), Run.lift_bind_fst,
    h.prepare_charge hcharge (by rw [h.dims_eq hlim]; rfl), Res.refuse, if_pos hgas, Res.bind_fail, Res.bind_fail]

/-- At or above its charge an accepted call costs the charge and is not out of gas, over any registry. -/
theorem Accepted.runWith_paid (hlim : lim.Word) (h : Accepted ε lim input s)
    (hcharge : (s.dims.gas : Res (Error ε) Nat) = .ok charge) (hgas : charge ≤ gas) (st : Session ρ) :
    (runWith R keccak H S input gas pins lim st).1 ≠ Res.fail .outOfGas ∧
      ∀ out, (runWith R keccak H S input gas pins lim st).1 = .ok out → out.gas = charge := by
  rw [runWith, Run.bind_apply_ok (a := ()) (Run.modify_eq_ok.mpr rfl), Run.lift_bind_fst,
    h.prepare_charge hcharge (by rw [h.dims_eq hlim]; rfl), Res.refuse_of_not (by omega), Res.bind_ok, Res.bind_ok,
    Run.Steady.bind_fst fun valid => Run.steady_pure _]
  have hraises : (evaluate R keccak H S s pins { st with counters := .zero }).1.FailsOnly RegistryError :=
    raises_evaluate (h.reads hlim) _
  generalize (evaluate R keccak H S s pins { st with counters := .zero }).1 = outcome at hraises ⊢
  rcases outcome with (e | _) | valid
  · refine ⟨fun heq => ?_, fun out hout => (by cases hout)⟩
    obtain rfl : e = .outOfGas := Fault.error.inj (Except.error.inj heq)
    rcases hraises with h | ⟨_, h⟩ <;> cases h
  · exact hraises.elim
  · refine ⟨fun heq => (by cases heq), fun out hout => ?_⟩
    obtain rfl : Output.versioned charge 2 valid = out := Except.ok.inj hout
    exact Output.versioned_gas _ _ _

end AnyRegistry

/-- Whether a request is accepted does not depend on how the registry can fail. -/
theorem Accepted.cast (hlim : lim.Word) (h : Accepted ε lim input s) (ε' : Type) : Accepted ε' lim input s := by
  obtain ⟨hinput, hacc, hdims, need, hneed, hgas⟩ := (scan_iff hlim).mp h.scan
  refine ⟨h.fits, (scan_iff hlim).mpr ⟨hinput, hacc, hdims, need, ?_, hgas⟩⟩
  simp only [scanGas, Res.bind_eq_ok, Res.sub_eq_ok, Res.u64_eq_ok] at hneed ⊢
  exact hneed

theorem accepted_of_dimensionsWith {d : Dimensions} (h : dimensionsWith input lim = .ok d) :
    ∃ s, Accepted Empty lim input s ∧ s.dims = d := by
  simp only [dimensionsWith, Res.bind_eq_ok, Res.refuse_eq_ok, exists_const, not_lt] at h
  obtain ⟨hfits, h⟩ := h
  cases hscan : (B1.scan input usizeMax lim : Res (Error Empty) Scanned) with
  | error f =>
    rw [hscan] at h
    rcases f with (_ | _ | _ | _) | _ <;> cases h
  | ok s =>
    rw [hscan] at h
    exact ⟨s, ⟨hfits, hscan⟩, Except.ok.inj h⟩

/-- The charge of claims within the standard limits is a word. -/
theorem Acceptable.standard_gas (h : Acceptable .standard os) {bytes : Nat} (hbytes : bytes ≤ maxBytes) :
    ∃ charge, ∀ ε' : Type, ((dimensionsOf bytes os).gas : Res ε' Nat) = .ok charge := by
  have hsome := h.some
  have hk : os.length ≤ 16 := h.few
  have hq : ((firstBy Occurrence.sealRaw (distinct os)).map Occurrence.sigs).sum ≤ 256 := h.sigs
  have hp := (sum_distinct_paths_le os).trans (show _ ≤ 4608 from h.paths)
  have ha : (distinct os).length ≤ os.length := length_firstBy_le _ _
  have he : (firstBy (·.claim.epoch) (distinct os)).length ≤ (distinct os).length := length_firstBy_le _ _
  have hgroup : 500 * os.length * (os.length - 1) ≤ 500 * 16 * 15 := Nat.mul_le_mul (by omega) (by omega)
  simp only [maxBytes] at hbytes
  simp only [Dimensions.gas, dimensionsOf, batchGas, scanGas, Res.bind_eq_ok, Res.sub_eq_ok, Res.u64_eq_ok, readGas,
    commonWords, epochWords, maxMembers]
  exact ⟨_, fun _ => ⟨_, ⟨_, ⟨hsome, rfl⟩, by omega, rfl⟩, by omega, rfl⟩⟩

theorem Accepted.standard_gas (h : Accepted ε .standard input s) :
    ∃ charge, ∀ ε' : Type, (s.dims.gas : Res ε' Nat) = .ok charge := by
  obtain ⟨-, hacc, hdims, -⟩ := (scan_iff Limits.standard_word).mp h.scan
  rw [hdims]
  exact hacc.standard_gas h.fits

end Requests

end Ureth.Source.B1
