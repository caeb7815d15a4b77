import Ureth.Foundation.Word64
import Ureth.Source.Payload.Tokens

/-!
# What the token store's sections do

Which entry an eviction takes, what each section leaves under each hash, and when a
resolution succeeds.
-/

namespace Ureth.Source.Payload
open Ureth.Foundation Ureth.Source.Execution Ureth.Source.Store

namespace ParentAccountingInner

variable {inner inner' : ParentAccountingInner} {hash hash' : Bytes32} {entry : ParentAccountingEntry}

/-! ## Eviction -/

/-- The scan ends at the earliest of the lowest evictable entries, or with what it started from. -/
theorem scanLowest_some {rest : List ParentAccountingEntry} {index : Nat}
    {lowest : Option (Nat × UInt64)} {low : Nat × UInt64}
    (h : inner.scanLowest rest index lowest = some low) :
    (lowest = some low ∧ ∀ x ∈ rest, inner.Evictable x → low.2 ≤ x.number) ∨
    ∃ pre e post, rest = pre ++ e :: post ∧ low = (index + pre.length, e.number) ∧
      inner.Evictable e ∧ (∀ l ∈ lowest, e.number < l.2) ∧
      (∀ x ∈ pre, inner.Evictable x → e.number < x.number) ∧
      ∀ x ∈ post, inner.Evictable x → e.number ≤ x.number := by
  induction rest generalizing index lowest with
  | nil => exact .inl ⟨h, by simp⟩
  | cons x rest ih =>
    rw [scanLowest] at h
    rcases ih h with ⟨heq, hle⟩ | ⟨pre, e, post, rfl, rfl, hev, hlow, hpre, hpost⟩
    · split_ifs at heq with hx
      · obtain rfl := Option.some.inj heq
        exact .inr ⟨[], x, rest, rfl, rfl, hx.1, hx.2, by simp, hle⟩
      · refine .inl ⟨heq, ?_⟩
        intro y hy hev
        rcases List.mem_cons.mp hy with rfl | hy
        · by_contra hlt
          refine hx ⟨hev, ?_⟩
          intro l hl
          obtain rfl : l = low := Option.some.inj (hl.symm.trans heq)
          exact UInt64.not_le.mp hlt
        · exact hle y hy hev
    · refine .inr ⟨x :: pre, e, post, rfl, by simp; omega, hev, ?_, ?_, hpost⟩
      · intro l hl
        split_ifs at hlow with hx
        · exact UInt64.lt_trans (hlow _ rfl) (hx.2 l hl)
        · exact hlow l hl
      · intro y hy hevy
        rcases List.mem_cons.mp hy with rfl | hy
        · split_ifs at hlow with hx
          · exact hlow _ rfl
          · have hnot : ¬ ∀ l ∈ lowest, y.number < l.2 := fun hall => hx ⟨hevy, hall⟩
            obtain ⟨l, hl⟩ := not_forall.mp hnot
            obtain ⟨hmem, hge⟩ := Classical.not_imp.mp hl
            exact UInt64.lt_of_lt_of_le (hlow l hmem) (UInt64.not_lt.mp hge)
        · exact hpre y hy hevy

theorem scanLowest_none {rest : List ParentAccountingEntry} {index : Nat}
    {lowest : Option (Nat × UInt64)} (h : inner.scanLowest rest index lowest = none) :
    lowest = none ∧ ∀ x ∈ rest, ¬ inner.Evictable x := by
  induction rest generalizing index lowest with
  | nil => exact ⟨h, by simp⟩
  | cons x rest ih =>
    rw [scanLowest] at h
    obtain ⟨hlow, hrest⟩ := ih h
    split_ifs at hlow with hx
    refine ⟨hlow, ?_⟩
    intro y hy
    rcases List.mem_cons.mp hy with rfl | hy
    · intro hev
      exact hx ⟨hev, by simp [hlow]⟩
    · exact hrest y hy

/-- The entry an eviction takes: evictable, of the lowest number among those, and the earliest of
that number. -/
structure Victim (inner : ParentAccountingInner) (pre : List ParentAccountingEntry)
    (e : ParentAccountingEntry) (post : List ParentAccountingEntry) : Prop where
  split : inner.tokens = pre ++ e :: post
  evictable : inner.Evictable e
  earlier : ∀ x ∈ pre, inner.Evictable x → e.number < x.number
  later : ∀ x ∈ post, inner.Evictable x → e.number ≤ x.number

theorem Victim.lowest {pre post : List ParentAccountingEntry} {e x : ParentAccountingEntry}
    (h : inner.Victim pre e post) (hx : x ∈ inner.tokens) (hev : inner.Evictable x) :
    e.number ≤ x.number := by
  rw [h.split, List.mem_append, List.mem_cons] at hx
  rcases hx with hx | rfl | hx
  · exact UInt64.le_of_lt (h.earlier x hx hev)
  · exact UInt64.le_refl _
  · exact h.later x hx hev

theorem evictLowest_some (h : inner.evictLowest = some inner') :
    ∃ pre e post, inner.Victim pre e post ∧ inner' = { inner with tokens := pre ++ post } := by
  obtain ⟨low, hlow, rfl⟩ := Option.map_eq_some_iff.mp h
  rcases scanLowest_some hlow with ⟨hnone, -⟩ | ⟨pre, e, post, hsplit, rfl, hev, -, hpre, hpost⟩
  · cases hnone
  · refine ⟨pre, e, post, ⟨hsplit, hev, hpre, hpost⟩, ?_⟩
    simp [hsplit, List.eraseIdx_append_of_length_le]

theorem evictLowest_none (h : inner.evictLowest = none) : ∀ x ∈ inner.tokens, ¬ inner.Evictable x :=
  (scanLowest_none (Option.map_eq_none_iff.mp h)).2

/-! ## What is found -/

/-- The hashes of a store are distinct. -/
def Distinct (inner : ParentAccountingInner) : Prop :=
  (inner.tokens.map ParentAccountingEntry.hash).Nodup

theorem find_update {f : ParentAccountingEntry → ParentAccountingEntry}
    (hf : ∀ e, (f e).hash = e.hash) :
    (inner.update hash f).find hash' =
      if hash' = hash then (inner.find hash).map f else inner.find hash' :=
  findKey_updateKey hf

theorem find_update_self {f : ParentAccountingEntry → ParentAccountingEntry}
    (hf : ∀ e, (f e).hash = e.hash) (h : inner.find hash = some entry) :
    (inner.update hash f).find hash = some (f entry) := by
  rw [find_update hf, if_pos rfl, h]
  rfl

theorem find_update_of_ne {f : ParentAccountingEntry → ParentAccountingEntry}
    (hf : ∀ e, (f e).hash = e.hash) (hne : hash' ≠ hash) :
    (inner.update hash f).find hash' = inner.find hash' := by
  rw [find_update hf, if_neg hne]

/-- What is found after an update is what was found before, or its update. -/
theorem find_of_update {f : ParentAccountingEntry → ParentAccountingEntry}
    (he : (inner.update hash f).find hash' = some entry) (hf : ∀ e, (f e).hash = e.hash) :
    ∃ old, inner.find hash' = some old ∧ (entry = old ∨ hash' = hash ∧ entry = f old) := by
  rw [find_update hf] at he
  split at he
  next heq =>
    obtain ⟨old, hold, rfl⟩ := Option.map_eq_some_iff.mp he
    exact ⟨old, heq ▸ hold, .inr ⟨heq, rfl⟩⟩
  next => exact ⟨entry, he, .inl rfl⟩

theorem hash_of_find (h : inner.find hash = some entry) : entry.hash = hash := key_of_findKey h

theorem mem_of_find (h : inner.find hash = some entry) : entry ∈ inner.tokens := mem_of_findKey h

theorem Distinct.find_of_mem (h : inner.Distinct) (he : entry ∈ inner.tokens) :
    inner.find entry.hash = some entry := findKey_of_mem h he

theorem Distinct.update {f : ParentAccountingEntry → ParentAccountingEntry}
    (h : inner.Distinct) (hf : ∀ e, (f e).hash = e.hash) : (inner.update hash f).Distinct := by
  unfold Distinct ParentAccountingInner.update
  rwa [map_updateKey hf]

/-- What a smaller store finds, the larger one finds: an eviction shows no entry that was hidden. -/
structure Shrinks (inner inner' : ParentAccountingInner) : Prop where
  sublist : inner'.tokens.Sublist inner.tokens
  capacity : inner'.capacity = inner.capacity
  protectedHash : inner'.protectedHash = inner.protectedHash

theorem Shrinks.refl (inner : ParentAccountingInner) : inner.Shrinks inner := ⟨.refl _, rfl, rfl⟩

theorem Shrinks.trans {inner'' : ParentAccountingInner} (h : inner.Shrinks inner')
    (k : inner'.Shrinks inner'') : inner.Shrinks inner'' :=
  ⟨k.sublist.trans h.sublist, k.capacity.trans h.capacity, k.protectedHash.trans h.protectedHash⟩

theorem Shrinks.distinct (h : inner.Shrinks inner') (hd : inner.Distinct) : inner'.Distinct :=
  hd.sublist (h.sublist.map _)

theorem Shrinks.find (h : inner.Shrinks inner') (hd : inner.Distinct)
    (he : inner'.find hash = some entry) : inner.find hash = some entry := by
  rw [← hash_of_find he]
  exact hd.find_of_mem (h.sublist.subset (mem_of_find he))

theorem evictLowest_shrinks (h : inner.evictLowest = some inner') : inner.Shrinks inner' := by
  obtain ⟨pre, e, post, hv, rfl⟩ := evictLowest_some h
  refine ⟨?_, rfl, rfl⟩
  rw [hv.split]
  exact (List.Sublist.refl pre).append (List.sublist_cons_self e post)

theorem evictToCapacity_shrinks (fuel : Nat) (inner : ParentAccountingInner) :
    inner.Shrinks (evictToCapacity fuel inner) := by
  induction fuel generalizing inner with
  | zero => exact .refl _
  | succ fuel ih =>
    unfold evictToCapacity
    split
    · split
      next inner' h => exact (evictLowest_shrinks h).trans (ih inner')
      next => exact .refl _
    · exact .refl _

/-- The store an insertion of a new hash pushes onto. -/
def room (inner : ParentAccountingInner) : ParentAccountingInner :=
  if inner.tokens.length ≥ inner.capacity then inner.evictLowest.getD inner else inner

theorem room_shrinks (inner : ParentAccountingInner) : inner.Shrinks inner.room := by
  unfold room
  split
  · cases h : inner.evictLowest with
    | none => exact .refl _
    | some inner' => exact evictLowest_shrinks h
  · exact .refl _

variable {number : UInt64} {token : CompletedParent} {identity : Option Identity} {admitted : Bool}

theorem hash_refresh (e : ParentAccountingEntry) :
    (refresh number token identity admitted e).hash = e.hash := by
  unfold refresh
  split <;> rfl

theorem insertInner_of_none (h : inner.find hash = none) :
    inner.insertInner hash number token identity admitted =
      { inner.room with
        tokens := inner.room.tokens ++ [⟨hash, number, token, identity, 0, admitted⟩] } := by
  simp only [insertInner, h, room]

theorem insertInner_of_some (h : inner.find hash = some entry) :
    inner.insertInner hash number token identity admitted =
      inner.update hash (refresh number token identity admitted) := by
  simp only [insertInner, h]

theorem Shrinks.find_none (h : inner.Shrinks inner') (hnone : inner.find hash = none) :
    inner'.find hash = none :=
  findKey_eq_none.mpr fun a ha => findKey_eq_none.mp hnone a (h.sublist.subset ha)

/-- What an insertion leaves under its own hash. -/
theorem find_insertInner_self :
    (inner.insertInner hash number token identity admitted).find hash =
      some (((inner.find hash).map (refresh number token identity admitted)).getD
        ⟨hash, number, token, identity, 0, admitted⟩) := by
  cases h : inner.find hash with
  | none =>
    rw [insertInner_of_none h]
    have hroom : findKey ParentAccountingEntry.hash hash inner.room.tokens = none :=
      (room_shrinks inner).find_none h
    simp [find, findKey_append, hroom, findKey_cons]
  | some entry =>
    rw [insertInner_of_some h, find_update hash_refresh, if_pos rfl, h]
    rfl

/-- What an insertion leaves under another hash was there before. -/
theorem find_insertInner_of_ne (hd : inner.Distinct) (hne : hash' ≠ hash)
    (he : (inner.insertInner hash number token identity admitted).find hash' = some entry) :
    inner.find hash' = some entry := by
  cases h : inner.find hash with
  | none =>
    rw [insertInner_of_none h] at he
    have hroom : inner.room.find hash' = some entry := by
      simpa [find, findKey_append, findKey_cons, Ne.symm hne] using he
    exact (room_shrinks inner).find hd hroom
  | some e =>
    rwa [insertInner_of_some h, find_update hash_refresh, if_neg hne] at he

theorem Distinct.insertInner (hd : inner.Distinct) :
    (inner.insertInner hash number token identity admitted).Distinct := by
  cases h : inner.find hash with
  | none =>
    rw [insertInner_of_none h]
    have hroom : ∀ a ∈ inner.room.tokens, a.hash ≠ hash :=
      findKey_eq_none.mp ((room_shrinks inner).find_none h)
    simp only [Distinct, List.map_append, List.map_cons, List.map_nil]
    refine List.nodup_append.mpr ⟨(room_shrinks inner).distinct hd, by simp, ?_⟩
    intro a ha b hb hab
    obtain ⟨x, hx, rfl⟩ := List.mem_map.mp ha
    obtain rfl : b = hash := by simpa using hb
    exact hroom x hx hab
  | some e =>
    rw [insertInner_of_some h]
    exact hd.update hash_refresh

theorem release_eq_ok {ε : Type} (h : (inner.release hash : Res ε _) = .ok inner') :
    (inner.find hash = none ∧ inner' = inner) ∨
      ∃ e, inner.find hash = some e ∧ 0 < e.pins ∧
        inner' = inner.update hash fun x => { x with pins := e.pins - 1 } := by
  unfold release at h
  cases hfind : inner.find hash with
  | none =>
    rw [hfind] at h
    exact .inl ⟨rfl, (Except.ok.inj h).symm⟩
  | some e =>
    rw [hfind] at h
    simp only [Res.bind_eq_ok, Res.sub_eq_ok, Res.pure_eq_ok] at h
    obtain ⟨pins, ⟨hpins, rfl⟩, rfl⟩ := h
    exact .inr ⟨e, rfl, hpins, rfl⟩

theorem unpin_eq_ok {ε : Type} (h : (inner.unpin hash : Res ε _) = .ok inner') :
    ∃ released, (inner.release hash : Res ε _) = .ok released ∧
      inner' = evictToCapacity released.tokens.length released := by
  simp only [unpin, Res.bind_eq_ok, Res.pure_eq_ok] at h
  obtain ⟨released, hreleased, rfl⟩ := h
  exact ⟨released, hreleased, rfl⟩

theorem Distinct.release {ε : Type} (hd : inner.Distinct)
    (h : (inner.release hash : Res ε _) = .ok inner') : inner'.Distinct := by
  rcases release_eq_ok h with ⟨-, rfl⟩ | ⟨e, -, -, rfl⟩
  · exact hd
  · exact hd.update fun _ => rfl

/-- What is found after an unpin was there before, up to its pins. -/
theorem find_of_unpin {ε : Type} (hd : inner.Distinct)
    (h : (inner.unpin hash : Res ε _) = .ok inner') (he : inner'.find hash' = some entry) :
    ∃ old pins, inner.find hash' = some old ∧ entry = { old with pins := pins } := by
  obtain ⟨released, hreleased, rfl⟩ := unpin_eq_ok h
  have hfind := (evictToCapacity_shrinks _ _).find (hd.release hreleased) he
  rcases release_eq_ok hreleased with ⟨-, rfl⟩ | ⟨x, -, -, rfl⟩
  · exact ⟨entry, entry.pins, hfind, rfl⟩
  · obtain ⟨old, hold, rfl | ⟨-, rfl⟩⟩ := find_of_update hfind fun _ => rfl
    · exact ⟨entry, entry.pins, hold, rfl⟩
    · exact ⟨old, x.pins - 1, hold, rfl⟩

end ParentAccountingInner

/-! ## Resolution -/

variable {hashSlow : Header → Bytes32} {inner inner' : ParentAccountingInner}
  {tokens tokens' : UnicityParentAccountings} {parent : SealedHeader} {identity : Identity}
  {profile : BlockProfile} {lease : ParentAccountingLease}

theorem feeHolds_iff {token : CompletedParent} {header : SealedHeader} :
    FeeHolds hashSlow token header profile ↔
      ∃ fee, token.checkedNextBaseFee hashSlow header profile = .ok fee := by
  unfold FeeHolds
  cases token.checkedNextBaseFee hashSlow header profile <;> simp [Res.value?]

/-- An entry a resolution accepts: admitted, under this identity, and of the header's fee. -/
structure Accepts (hashSlow : Header → Bytes32) (parent : SealedHeader) (identity : Identity)
    (profile : BlockProfile) (e : ParentAccountingEntry) : Prop where
  admitted : e.admitted = true
  identity : e.identity = some identity
  fee : FeeHolds hashSlow e.token parent profile

/-- The store after a lease of `hash`. -/
def ParentAccountingInner.leased (inner : ParentAccountingInner) (hash : Bytes32) :
    ParentAccountingInner :=
  { inner.update hash fun entry => { entry with pins := entry.pins + 1 } with
    protectedHash := some hash }

theorem leaseToken_eq_ok :
    leaseToken hashSlow inner parent identity profile = .ok (lease, inner') ↔
      ∃ e, inner.find parent.hash = some e ∧ e.admitted = true ∧ e.identity = some identity ∧
        e.token.checkedNextBaseFee hashSlow parent profile = .ok lease.nextFee ∧
        lease.hash = parent.hash ∧ lease.token = e.token ∧ inner' = inner.leased parent.hash := by
  simp only [leaseToken, Res.bind_eq_ok, Res.okOr_eq_ok, Res.refuse_eq_ok, Res.mapErr_eq_ok,
    Res.pure_eq_ok, Prod.mk.injEq, not_or, Bool.not_eq_false, not_not]
  constructor
  · rintro ⟨e, he, _, ⟨hadmitted, hidentity⟩, fee, hfee, rfl, rfl⟩
    exact ⟨e, he, hadmitted, hidentity, hfee, rfl, rfl, rfl⟩
  · rintro ⟨e, he, hadmitted, hidentity, hfee, hhash, htoken, rfl⟩
    refine ⟨e, he, (), ⟨hadmitted, hidentity⟩, lease.nextFee, hfee, ?_, rfl⟩
    cases lease
    simp only at hhash htoken
    rw [hhash, htoken]

/-- The last section of a resolution succeeds exactly on an entry it accepts. -/
theorem exists_lease_iff :
    (∃ lease t, UnicityParentAccountings.lease hashSlow parent identity profile tokens = (.ok lease, t)) ↔
      ∃ e, tokens.inner.find parent.hash = some e ∧ Accepts hashSlow parent identity profile e := by
  unfold UnicityParentAccountings.lease
  constructor
  · rintro ⟨lease, t, h⟩
    split at h
    next l i hl =>
      obtain ⟨e, he, hadmitted, hidentity, hfee, -⟩ := leaseToken_eq_ok.mp hl
      exact ⟨e, he, hadmitted, hidentity, feeHolds_iff.mpr ⟨_, hfee⟩⟩
    next => cases (Prod.mk.inj h).1
  · rintro ⟨e, he, hadmitted, hidentity, hfee⟩
    obtain ⟨fee, hfee⟩ := feeHolds_iff.mp hfee
    have hl : leaseToken hashSlow tokens.inner parent identity profile =
        .ok (⟨parent.hash, e.token, fee⟩, tokens.inner.leased parent.hash) :=
      leaseToken_eq_ok.mpr ⟨e, he, hadmitted, hidentity, hfee, rfl, rfl, rfl⟩
    exact ⟨_, _, by rw [hl]⟩

theorem cachedToken_eq_ok_none :
    cachedToken hashSlow inner parent identity profile = .ok none ↔ inner.find parent.hash = none := by
  unfold cachedToken
  cases inner.find parent.hash <;> simp [Res.bind_eq_ok]

theorem cachedToken_eq_ok_some {token : CompletedParent} :
    cachedToken hashSlow inner parent identity profile = .ok (some token) ↔
      ∃ e, inner.find parent.hash = some e ∧ e.identity = some identity ∧
        FeeHolds hashSlow e.token parent profile ∧ e.token = token := by
  unfold cachedToken
  cases inner.find parent.hash <;> simp [Res.bind_eq_ok, and_assoc]

/-- A restore answers from the cache and changes nothing, or inserts what it loaded. -/
theorem restoreExact_cases {r : Res StoreError (Option CompletedParent)}
    (h : UnicityParentAccountings.restoreExact hashSlow parent identity profile tokens = (r, tokens')) :
    (tokens' = tokens ∧ ∀ token, r = .ok (some token) → ∃ e, tokens.inner.find parent.hash = some e) ∨
    ∃ token, r = .ok (some token) ∧ tokens.inner.find parent.hash = none ∧
      loadToken hashSlow tokens.durable tokens.durabilityRequired parent identity profile =
        .ok (some token) ∧
      tokens' = tokens.insertInner parent.hash parent.header.number token (some identity) false := by
  rcases hc : cachedToken hashSlow tokens.inner parent identity profile with e | (_ | token)
  · simp only [UnicityParentAccountings.restoreExact, hc, Prod.mk.injEq] at h
    exact .inl ⟨h.2.symm, by simp [← h.1]⟩
  · rcases hl : loadToken hashSlow tokens.durable tokens.durabilityRequired parent identity profile
      with e | (_ | token)
    · simp only [UnicityParentAccountings.restoreExact, hc, UnicityParentAccountings.restoreFromDisk,
        hl, Prod.mk.injEq] at h
      exact .inl ⟨h.2.symm, by simp [← h.1]⟩
    · simp only [UnicityParentAccountings.restoreExact, hc, UnicityParentAccountings.restoreFromDisk,
        hl, Prod.mk.injEq] at h
      exact .inl ⟨h.2.symm, by simp [← h.1]⟩
    · simp only [UnicityParentAccountings.restoreExact, hc, UnicityParentAccountings.restoreFromDisk,
        hl, Prod.mk.injEq] at h
      exact .inr ⟨token, h.1.symm, cachedToken_eq_ok_none.mp hc, rfl, h.2.symm⟩
  · simp only [UnicityParentAccountings.restoreExact, hc, Prod.mk.injEq] at h
    obtain ⟨e, he, -⟩ := cachedToken_eq_ok_some.mp hc
    exact .inl ⟨h.2.symm, fun _ _ => ⟨e, he⟩⟩

/-- What a restore puts under a hash that had no entry is not admitted. -/
theorem restoreExact_of_none (hnone : tokens.inner.find parent.hash = none)
    {r : Res StoreError (Option CompletedParent)}
    (h : UnicityParentAccountings.restoreExact hashSlow parent identity profile tokens = (r, tokens')) :
    ∀ e, tokens'.inner.find parent.hash = some e → e.admitted = false := by
  intro e he
  rcases restoreExact_cases h with ⟨rfl, -⟩ | ⟨token, -, -, -, rfl⟩
  · rw [hnone] at he
    cases he
  · simp only [UnicityParentAccountings.insertInner, ParentAccountingInner.find_insertInner_self,
      hnone, Option.map_none, Option.getD_none, Option.some.injEq] at he
    rw [← he]

/-- A hash resolves exactly when the cache holds an entry that is accepted: what is only on disk
does not resolve. -/
theorem exists_resolve_iff :
    (∃ lease t, UnicityParentAccountings.resolve hashSlow parent identity profile tokens =
      (.ok lease, t)) ↔
      ∃ e, tokens.inner.find parent.hash = some e ∧ Accepts hashSlow parent identity profile e := by
  cases hfind : tokens.inner.find parent.hash with
  | some e =>
    simp only [UnicityParentAccountings.resolve, hfind]
    rw [exists_lease_iff, hfind]
  | none =>
    simp only [UnicityParentAccountings.resolve, hfind, Run.bind_eq_ok, reduceCtorEq, false_and,
      exists_false, iff_false]
    rintro ⟨lease, t, r, tokens1, hrestore, hlease⟩
    rcases hr : UnicityParentAccountings.restoreExact hashSlow parent identity profile tokens with
      ⟨r', tokens2⟩
    obtain rfl : tokens2 = tokens1 := by
      simp only [Run.mapErr, hr, Prod.mk.injEq] at hrestore
      exact hrestore.2
    obtain ⟨e, he, hadmitted, -⟩ := exists_lease_iff.mp ⟨lease, t, hlease⟩
    rw [restoreExact_of_none hfind hr e he] at hadmitted
    cases hadmitted

end Ureth.Source.Payload
