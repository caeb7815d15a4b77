import Ureth.Guarantees.Retention
import Ureth.Source.Payload.TokenSystem

/-!
# When a parent resolves

Over every interleaving of the token store's sections: what a successful publication makes
resolvable, and what a lease may be based on. A publication leaves a pinned entry as it is, so
one that meets an entry restored from disk and pinned, but not admitted, publishes nothing.
-/

namespace Ureth.Guarantees
open Ureth.Foundation Ureth.Source.Execution Ureth.Source.Store Ureth.Source.Payload

variable {hashSlow : Header → Bytes32}

/-- Right after a publication's insertion, whatever ran before it, the published hash resolves for
a header its token's fee holds for exactly when no pin kept the insertion out of an entry that
does not resolve. -/
theorem publication_admits {st st' : TokenState} {hash : Bytes32} {number : UInt64}
    {identity : Identity} {token : CompletedParent} {header : SealedHeader} {profile : BlockProfile}
    (hstep : TokenStep hashSlow st (.published hash number identity token) st')
    (hheader : header.hash = hash) (hfee : FeeHolds hashSlow token header profile) :
    (∃ lease t, UnicityParentAccountings.resolve hashSlow header identity profile st'.tokens =
      (.ok lease, t)) ↔
      ∀ e, st.tokens.inner.find hash = some e → 0 < e.pins → Accepts hashSlow header identity profile e := by
  subst hheader
  cases hstep with
  | publish due =>
    rw [exists_resolve_iff, TokenState.setInner, ParentAccountingInner.find_insertInner_self]
    simp only [Option.some.injEq, exists_eq_left']
    cases hfind : st.tokens.inner.find header.hash with
    | none =>
      refine ⟨fun _ => by simp, fun _ => ?_⟩
      exact ⟨rfl, rfl, hfee⟩
    | some e =>
      rw [Option.map_some, Option.getD_some, ParentAccountingInner.refresh]
      by_cases hpins : 0 < e.pins
      · rw [if_pos hpins]
        simp [hpins]
      · rw [if_neg hpins]
        refine ⟨fun _ => by simp [hpins], fun _ => ?_⟩
        exact ⟨Bool.or_true _, rfl, hfee⟩

/-! ## A small chain -/

/-- The hash of a block of the chain: the successor of its number. -/
def smallHash (number : UInt64) : Bytes32 := .literal 32 (number.toNat + 1)

def numberHash (header : Header) : Bytes32 := smallHash header.number

def smallProfile : BlockProfile := ⟨3, 1, 1, 2, 8⟩

/-- A block that spends its system gas and nothing else. -/
def smallHeader (number : UInt64) : SealedHeader where
  header := { parentHash := .zero 32, number, gasLimit := 3, gasUsed := 1, timestamp := 0,
              mixHash := .zero 32, beneficiary := .zero 20, baseFeePerGas := some 1,
              parentBeaconBlockRoot := none, extraData := [], other := [] }
  hash := smallHash number

def smallToken (number : UInt64) : CompletedParent :=
  ⟨{ profile := smallProfile, parentHash := smallHash number, gas := ⟨1, 0, 1⟩, baseFee := 1 }⟩

def smallIdentity : Identity := (7, .literal 32 7)

def smallRecord (number : UInt64) : StoredAccounting :=
  ⟨7, .literal 32 7, number, (smallToken number).forLocalStorage⟩

theorem reconcile_small (number : UInt64) :
    ParentExecutionOutcome.reconcile smallProfile (smallHash number) 1 1 1 =
      .ok (smallToken number).outcome := rfl

theorem checkedNextBaseFee_small (number : UInt64) :
    (smallToken number).checkedNextBaseFee numberHash (smallHeader number) smallProfile = .ok 1 := by
  have hsame : ¬ (numberHash (smallHeader number).header ≠ (smallHeader number).hash ∨
      (smallToken number).outcome.parentHash ≠ (smallHeader number).hash ∨
      (smallToken number).outcome.profile ≠ smallProfile ∨
      (smallHeader number).header.gasLimit ≠ smallProfile.maxGas ∨
      (smallHeader number).header.gasUsed ≠ (smallToken number).outcome.gas.header ∨
      (smallHeader number).header.baseFeePerGas ≠ some (smallToken number).outcome.baseFee) := by
    simp [smallToken, smallHeader, numberHash, smallProfile]
  have hfee : nextBaseFee (smallToken number).outcome = .ok 1 :=
    calc
      nextBaseFee (smallToken number).outcome = nextBaseFee (smallToken 0).outcome := rfl
      _ = .ok 1 := by decide +kernel
  simp only [CompletedParent.checkedNextBaseFee, Res.bind_eq_ok, Res.refuse_eq_ok]
  exact ⟨(), hsame, _, reconcile_small number, (), by simp, hfee⟩

theorem fromLocalStorage_small (number : UInt64) :
    CompletedParent.fromLocalStorage numberHash (smallToken number).forLocalStorage
      (smallHeader number) smallProfile = .ok (smallToken number) := by
  simp only [CompletedParent.fromLocalStorage, Res.bind_eq_ok, Res.refuse_eq_ok]
  refine ⟨(), ?_, _, reconcile_small number, (), by simp [CompletedParent.forLocalStorage], rfl⟩
  simp [smallToken, smallHeader, numberHash, smallProfile, CompletedParent.forLocalStorage]

theorem checkRecord_small (number : UInt64) :
    checkRecord numberHash (smallRecord number) (smallHeader number) smallIdentity smallProfile =
      .ok (smallToken number) := by
  simp only [checkRecord, Res.bind_eq_ok, Res.refuse_eq_ok, Res.mapErr_eq_ok]
  exact ⟨(), by simp [smallRecord, smallIdentity, smallHeader], _, fromLocalStorage_small number, _,
    checkedNextBaseFee_small number, rfl⟩

theorem loadToken_small {s : CompanionStore} {a : Shelf} (hs : Represents s a) {number : UInt64}
    (hrecord : a.accounting (smallHash number) = some (smallRecord number)) (required : Bool) :
    loadToken numberHash (some s) required (smallHeader number) smallIdentity smallProfile =
      .ok (some (smallToken number)) := by
  have hget : s.getAccounting (smallHeader number).hash = .ok (some (smallRecord number)) :=
    (hs.getAccounting _).trans (congrArg _ hrecord)
  simp only [loadToken, hget, Res.bind_eq_ok, Except.ok.injEq, exists_eq_left']
  exact ⟨_, checkRecord_small number, rfl⟩

/-- A sidecar that holds the accounting of one block. -/
theorem smallStore_exists (number : UInt64) :
    ∃ s a, Represents s a ∧ a.accounting (smallHash number) = some (smallRecord number) := by
  have hnone : ∀ old, Shelf.empty.accounting (smallRecord number).accounting.blockHash = some old →
      old = smallRecord number := by
    rintro old ⟨⟩
  obtain ⟨s, -, hs⟩ := represents_fresh.putAccounting hnone
  exact ⟨s, _, hs, Function.update_self ..⟩

theorem recordToken_small {s : CompanionStore} {a : Shelf} (hs : Represents s a) {number : UInt64}
    (hrecord : a.accounting (smallHash number) = some (smallRecord number))
    (inner : ParentAccountingInner) (required : Bool) :
    ∃ s' a', recordToken (smallHash number) number smallIdentity (smallToken number)
      ⟨inner, some s, required⟩ = (.ok (), ⟨inner, some s', required⟩) ∧ Represents s' a' := by
  have hsame : ∀ old, a.accounting (smallRecord number).accounting.blockHash = some old →
      old = smallRecord number :=
    fun old hold => Option.some.inj (hold.symm.trans hrecord)
  obtain ⟨s', hput, hs'⟩ := hs.putAccounting hsame
  refine ⟨s', _, ?_, hs'⟩
  have hput' : CompanionStore.putAccounting
      ⟨smallIdentity.1, smallIdentity.2, number, (smallToken number).forLocalStorage⟩ s = (.ok (), s') :=
    hput
  simp only [recordToken, hput']
  rw [if_neg (by simp [smallToken, CompletedParent.forLocalStorage])]

theorem publication_admits_new :
    ∃ ls st st', Steps (TokenStep numberHash) (.start 16 none false) ls st ∧
      TokenStep numberHash st (.published (smallHash 1) 1 smallIdentity (smallToken 1)) st' ∧
      ∃ lease t, UnicityParentAccountings.resolve numberHash (smallHeader 1) smallIdentity smallProfile
        st'.tokens = (.ok lease, t) := by
  have hrecord : recordToken (smallHash 1) 1 smallIdentity (smallToken 1)
      ⟨.withCapacity 16, none, false⟩ = (.ok (), ⟨.withCapacity 16, none, false⟩) := rfl
  have hpublish := @TokenStep.publish numberHash ⟨⟨.withCapacity 16, none, false⟩,
    [.publishing (smallHash 1) 1 smallIdentity (smallToken 1)], []⟩ [] [] _ _ _ _ rfl
  refine ⟨_, _, _, .single (.record hrecord), hpublish, ?_⟩
  refine (publication_admits hpublish rfl (feeHolds_iff.mpr ⟨1, checkedNextBaseFee_small 1⟩)).mpr ?_
  rintro e ⟨⟩

/-- Block 1 as a restore leaves it: cached and not admitted. -/
def restoredEntry : ParentAccountingEntry :=
  ⟨smallHash 1, 1, smallToken 1, some smallIdentity, 0, false⟩

theorem restored_small {s : CompanionStore} {a : Shelf} (hs : Represents s a)
    (hrecord : a.accounting (smallHash 1) = some (smallRecord 1)) :
    Steps (TokenStep numberHash) (.start 16 (some s) true)
      [.other, .other, .other, .restored (smallHash 1) (smallToken 1)]
      ⟨⟨⟨[restoredEntry], 16, none⟩, some s, true⟩, [], []⟩ :=
  have hempty : cachedToken numberHash (.withCapacity 16) (smallHeader 1) smallIdentity smallProfile =
      .ok none := rfl
  .cons (.restore (smallHeader 1) smallIdentity smallProfile)
    (.cons (@TokenStep.miss numberHash _ [] _ _ _ _ _ rfl hempty)
      (.cons (@TokenStep.load numberHash _ [] _ _ _ _ _ _ rfl (loadToken_small hs hrecord true))
        (.single (@TokenStep.cache numberHash _ [] [] (smallHeader 1) smallIdentity smallProfile false
          (smallToken 1) rfl))))

/-- An entry restored from disk and pinned before it is admitted: the publication of its block
succeeds and the block still does not resolve. -/
theorem publication_kept_out :
    ∃ s ls st st', Steps (TokenStep numberHash) (.start 16 (some s) true) ls st ∧
      TokenStep numberHash st (.published (smallHash 1) 1 smallIdentity (smallToken 1)) st' ∧
      (smallHeader 1).hash = smallHash 1 ∧
      FeeHolds numberHash (smallToken 1) (smallHeader 1) smallProfile ∧
      ¬ ∃ lease t, UnicityParentAccountings.resolve numberHash (smallHeader 1) smallIdentity
        smallProfile st'.tokens = (.ok lease, t) := by
  obtain ⟨s, a, hs, hrecord⟩ := smallStore_exists 1
  have hrestored := restored_small hs hrecord
  let pinned : ParentAccountingInner := ⟨[{ restoredEntry with pins := 1 }], 16, none⟩
  have hfind : pinned.find (smallHash 1) = some { restoredEntry with pins := 1 } := by
    simp [pinned, restoredEntry, ParentAccountingInner.find, findKey_cons]
  have hpin : TokenStep numberHash ⟨⟨⟨[restoredEntry], 16, none⟩, some s, true⟩, [], []⟩
      (.pinned (smallHash 1)) ⟨⟨pinned, some s, true⟩, [], [smallHash 1]⟩ :=
    .pin (by simp [restoredEntry, pinned, ParentAccountingInner.pin, ParentAccountingInner.find,
      ParentAccountingInner.update, findKey_cons, updateKey])
  obtain ⟨s', -, hwrite, -⟩ := recordToken_small hs hrecord pinned true
  have hpublish := @TokenStep.publish numberHash ⟨⟨pinned, some s', true⟩,
    [.publishing (smallHash 1) 1 smallIdentity (smallToken 1)], [smallHash 1]⟩ [] [] _ _ _ _ rfl
  refine ⟨s, _, _, _, .snoc (.snoc hrestored hpin) (.record hwrite), hpublish, rfl,
    feeHolds_iff.mpr ⟨1, checkedNextBaseFee_small 1⟩, ?_⟩
  rw [exists_resolve_iff]
  rintro ⟨e, he, hadmitted, -, -⟩
  have hkept : (pinned.insertInner (smallHash 1) 1 (smallToken 1) (some smallIdentity) true).find
      (smallHash 1) = some { restoredEntry with pins := 1 } := by
    rw [ParentAccountingInner.find_insertInner_self, hfind]
    rfl
  obtain rfl := Option.some.inj (hkept.symm.trans he)
  cases hadmitted

/-! ## What a lease rests on -/

/-- Every lease of every run: the entry it was taken from was published or admitted since it last
entered the cache, carries the identity asked for, and its token and fee are the lease's. With the
sidecar attached from the start and nothing pruned, a token that is returned is the one record
its hash has had. -/
theorem resolution_sound {capacity : Nat} {durable : Option CompanionStore} {required : Bool}
    {ls : List TokenLabel} {st st' : TokenState} {label : TokenLabel}
    (run : Steps (TokenStep hashSlow) (.start capacity durable required) ls st)
    (step : TokenStep hashSlow st label st') :
    (∀ parent identity profile lease, label = .resolved parent identity profile lease →
      (∃ e, st.tokens.inner.find parent.hash = some e ∧ e.identity = some identity ∧
        e.token.checkedNextBaseFee hashSlow parent profile = .ok lease.nextFee ∧
        lease.token = e.token) ∧
      Since (TokenStep hashSlow) (fun _ l _ => Vouches parent.hash l)
        (fun u => u.tokens.inner.find parent.hash ≠ none) (.start capacity durable required) ls st) ∧
    (∀ hash, (∀ l ∈ ls, ¬ Vouches hash l) →
      ∀ parent identity profile lease, label = .resolved parent identity profile lease →
        parent.hash ≠ hash) ∧
    (∀ s, durable = some s → TokenLabel.sidecar true ∉ ls →
      ∀ hash token, label.returned = some (hash, token) →
        (∃ r, st.recorded hash = some r ∧ r.accounting = token.forLocalStorage) ∧
        ∀ ls₁ ls₂ mid r, ls = ls₁ ++ ls₂ →
          Steps (TokenStep hashSlow) (.start capacity durable required) ls₁ mid →
          Steps (TokenStep hashSlow) mid ls₂ st → mid.recorded hash = some r →
          r.accounting = token.forLocalStorage) := by
  have hlease : ∀ parent identity profile lease, label = .resolved parent identity profile lease →
      (∃ e, st.tokens.inner.find parent.hash = some e ∧ e.identity = some identity ∧
        e.token.checkedNextBaseFee hashSlow parent profile = .ok lease.nextFee ∧
        lease.token = e.token) ∧
      Since (TokenStep hashSlow) (fun _ l _ => Vouches parent.hash l)
        (fun u => u.tokens.inner.find parent.hash ≠ none) (.start capacity durable required) ls st := by
    rintro parent identity profile lease rfl
    cases step with
    | lease due taken =>
      obtain ⟨e, he, hadmitted, hidentity, hfee, -, htoken, -⟩ := leaseToken_eq_ok.mp taken
      exact ⟨⟨e, he, hidentity, hfee, htoken⟩, Steps.vouched run ⟨e, he, hadmitted⟩⟩
  refine ⟨hlease, ?_, ?_⟩
  · rintro hash hnone parent identity profile lease hlabel rfl
    obtain ⟨l, hl, hvouches⟩ := (hlease parent identity profile lease hlabel).2.label_mem
    exact hnone l hl hvouches
  · rintro s rfl hpruned hash token hreturned
    obtain ⟨s₁, hb, -⟩ := Steps.backed run hpruned (backed_start s capacity required)
    obtain ⟨r, hr, htoken⟩ := hb.returned step hreturned
    refine ⟨⟨r, hb.recorded.mpr hr, htoken⟩, ?_⟩
    rintro ls₁ ls₂ mid r' rfl run₁ run₂ hmid
    obtain ⟨hpruned₁, hpruned₂⟩ := not_or.mp fun h => hpruned (List.mem_append.mpr h)
    obtain ⟨s₂, hb₂, -⟩ := Steps.backed run₁ hpruned₁ (backed_start s capacity required)
    obtain ⟨s₃, hb₃, hgrow⟩ := Steps.backed run₂ hpruned₂ hb₂
    obtain rfl : s₃ = s₁ := Option.some.inj (hb₃.durable.symm.trans hb.durable)
    have hsame := (hgrow hash r' (hb₂.recorded.mp hmid)).symm.trans hr
    obtain rfl : r' = r := Option.some.inj (Except.ok.inj hsame)
    exact htoken

/-- A block read back from disk, admitted by recovery and then resolved. -/
theorem resolution_sound_admitted :
    ∃ s ls st st', Steps (TokenStep numberHash) (.start 16 (some s) true) ls st ∧
      TokenStep numberHash st
        (.resolved (smallHeader 1) smallIdentity smallProfile ⟨smallHash 1, smallToken 1, 1⟩) st' ∧
      (∃ l ∈ ls, Vouches (smallHash 1) l) ∧
      ∃ r, st.recorded (smallHash 1) = some r ∧ r.accounting = (smallToken 1).forLocalStorage := by
  obtain ⟨s, a, hs, hrecord⟩ := smallStore_exists 1
  have hrestored := restored_small hs hrecord
  let admitted : ParentAccountingInner :=
    ⟨[{ restoredEntry with admitted := true }], 16, some (smallHash 1)⟩
  have hadmission : TokenStep numberHash ⟨⟨⟨[restoredEntry], 16, none⟩, some s, true⟩, [], []⟩
      (.admitted (smallHash 1)) ⟨⟨admitted, some s, true⟩, [], []⟩ := .admission rfl
  have hfind : admitted.find (smallHash 1) = some { restoredEntry with admitted := true } := by
    simp [admitted, restoredEntry, ParentAccountingInner.find, findKey_cons]
  have hcalled : TokenStep numberHash ⟨⟨admitted, some s, true⟩, [], []⟩ .other
      ⟨⟨admitted, some s, true⟩, [.leasing (smallHeader 1) smallIdentity smallProfile], []⟩ :=
    .resolve (smallHeader 1) smallIdentity smallProfile
  have htaken : leaseToken numberHash admitted (smallHeader 1) smallIdentity smallProfile =
      .ok (⟨smallHash 1, smallToken 1, 1⟩, admitted.leased (smallHash 1)) :=
    leaseToken_eq_ok.mpr ⟨_, hfind, rfl, rfl, checkedNextBaseFee_small 1, rfl, rfl, rfl⟩
  have hlease := @TokenStep.lease numberHash
    ⟨⟨admitted, some s, true⟩, [.leasing (smallHeader 1) smallIdentity smallProfile], []⟩ [] [] _ _ _ _ _
    rfl htaken
  have run := Steps.snoc (.snoc hrestored hadmission) hcalled
  obtain ⟨hleases, -, hrecords⟩ := resolution_sound run hlease
  exact ⟨s, _, _, _, run, hlease, (hleases _ _ _ _ rfl).2.label_mem,
    (hrecords s rfl (by simp) _ _ rfl).1⟩

end Ureth.Guarantees
