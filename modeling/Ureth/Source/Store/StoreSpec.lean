import Ureth.Source.Store.Store

/-!
# What the store is for

An abstract shelf: companions with their block number by hash, accounting records
by hash, a horizon and a cursor. The byte-level store represents a shelf when
its records decode to it and its number indexes list exactly its entries; every
operation of the store is the operation of the shelf.
-/

namespace Ureth.Source.Store
open Ureth.Foundation Ureth.Source.Execution

/-! ## Keys -/

theorem be64_lt_iff {a b : UInt64} : be64 a < be64 b ↔ a < b := by
  have ha := a.toNat_lt
  have hb := b.toNat_lt
  rw [bytes_lt_iff (by simp), be64, be64, beNat_beBytes, beNat_beBytes,
    Nat.mod_eq_of_lt (by simpa using ha), Nat.mod_eq_of_lt (by simpa using hb),
    UInt64.lt_iff_toNat_lt]

theorem be64_injective : Function.Injective be64 := by
  intro a b h
  rw [← fromBe64_be64 a, h, fromBe64_be64]

@[simp] theorem length_indexKey (n : UInt64) (h : Bytes32) : (indexKey n h).length = indexKeyLen := by
  simp [indexKey, indexKeyLen]

@[simp] theorem keyNumber_indexKey (n : UInt64) (h : Bytes32) : keyNumber (indexKey n h) = n := by
  rw [keyNumber, indexKey, numberLen, List.take_left' (length_be64 n), fromBe64_be64]

@[simp] theorem drop_indexKey (n : UInt64) (h : Bytes32) : (indexKey n h).drop numberLen = h.val := by
  rw [indexKey, numberLen, List.drop_left' (length_be64 n)]

theorem indexKey_inj {n m : UInt64} {h g : Bytes32} (heq : indexKey n h = indexKey m g) :
    n = m ∧ h = g := by
  obtain ⟨hn, hh⟩ := List.append_inj heq (by simp)
  exact ⟨be64_injective hn, Subtype.ext hh⟩

/-- Index keys are in the order of their numbers, then of their hashes. -/
theorem indexKey_lt_iff {n m : UInt64} {h g : Bytes32} :
    indexKey n h < indexKey m g ↔ n < m ∨ (n = m ∧ h.val < g.val) := by
  rw [indexKey, indexKey, append_lt_append_iff (by simp), be64_lt_iff, be64_injective.eq_iff]

/-- The eight bytes of a number stand before exactly the keys of no smaller number. -/
theorem be64_le_indexKey {lower n : UInt64} {h : Bytes32} : be64 lower ≤ indexKey n h ↔ lower ≤ n := by
  rw [← not_lt, ← List.append_nil (be64 lower), indexKey, append_lt_append_iff (by simp),
    be64_lt_iff]
  simp

/-! ## The shelf -/

/-- A companion with the number of its block. -/
abbrev Shelved := UInt64 × SealCompanion

structure Shelf where
  companions : Bytes32 → Option Shelved
  accounting : Bytes32 → Option StoredAccounting
  horizon : Option UInt64
  cursor : Option UInt64

namespace Shelf

def empty : Shelf := ⟨fun _ => none, fun _ => none, none, none⟩

def put (a : Shelf) (hash : Bytes32) (number : UInt64) (companion : SealCompanion) : Shelf :=
  { a with companions := Function.update a.companions hash (some (number, companion)) }

def remove (a : Shelf) (hash : Bytes32) : Shelf :=
  { a with companions := Function.update a.companions hash none }

def pruneBelow (a : Shelf) (number : UInt64) : Shelf :=
  { a with companions := fun h => (a.companions h).filter fun e => number ≤ e.1
           horizon := some (CompanionStore.raised a.horizon number) }

def putAccounting (a : Shelf) (record : StoredAccounting) : Shelf :=
  { a with accounting := Function.update a.accounting record.accounting.blockHash (some record) }

def pruneAccountingBelow (a : Shelf) (number : UInt64) : Shelf :=
  { a with accounting := fun h => (a.accounting h).filter fun r => number ≤ r.blockNumber }

def setCursor (a : Shelf) (number : UInt64) : Shelf :=
  { a with cursor := some (CompanionStore.raised a.cursor number) }

def lookup (a : Shelf) (hash : Bytes32) : Lookup :=
  match a.companions hash with
  | some (_, companion) => .found companion
  | none =>
    match a.horizon with
    | some horizon => .unavailable horizon
    | none => .unknown

end Shelf

/-- The stored value of a companion. -/
def IsValue (value : ByteVec) (e : Shelved) : Prop :=
  ∃ record, encode e.2 = .ok record ∧ value.val = be64 e.1 ++ record.val

/-- The records and the number index of the companions. -/
structure HoldsCompanions (s : CompanionStore) (m : Bytes32 → Option Shelved) : Prop where
  absent : ∀ h, m h = none → s.companions.find h.val = none
  present : ∀ h e, m h = some e → ∃ value, s.companions.find h.val = some value ∧ IsValue value e
  index : ∀ key, (key, ()) ∈ s.byNumber.rows ↔ ∃ h e, m h = some e ∧ key = indexKey e.1 h

/-- The records and the number index of the accounting. -/
structure HoldsAccounting (s : CompanionStore) (m : Bytes32 → Option StoredAccounting) : Prop where
  named : ∀ h r, m h = some r → r.accounting.blockHash = h
  record : ∀ h : Bytes32, s.accounting.find h.val = (m h).map encodeAccounting
  index : ∀ key, (key, ()) ∈ s.accountingByNumber.rows ↔
    ∃ h r, m h = some r ∧ key = indexKey r.blockNumber h

/-- The published numbers. -/
structure HoldsNumbers (s : CompanionStore) (horizon cursor : Option UInt64) : Prop where
  horizon : s.metadata.find horizonKey = horizon.map be64
  cursor : s.metadata.find evictionCursorKey = cursor.map be64

/-- The store represents a shelf. -/
structure Represents (s : CompanionStore) (a : Shelf) : Prop where
  companions : HoldsCompanions s a.companions
  accounting : HoldsAccounting s a.accounting
  numbers : HoldsNumbers s a.horizon a.cursor

theorem represents_fresh : Represents .fresh .empty where
  companions := ⟨fun _ _ => rfl, by simp [Shelf.empty],
    by simp [CompanionStore.fresh, Table.empty, Shelf.empty]⟩
  accounting := ⟨by simp [Shelf.empty], fun _ => rfl,
    by simp [CompanionStore.fresh, Table.empty, Shelf.empty]⟩
  numbers := ⟨rfl, rfl⟩

variable {s s' : CompanionStore} {a : Shelf}

/-! ## Transactions -/

theorem transaction_eq_ok {α : Type} {body : Txn α} {v : α} :
    transaction body s = (.ok v, s') ↔ body s = (.ok v, s') := by
  unfold transaction
  rcases body s with ⟨_ | _, _⟩ <;> simp

/-- A transaction that fails leaves the store as it was. -/
theorem transaction_error {α : Type} {body : Txn α} {e : Fault StoreError}
    (h : (transaction body s).1 = .error e) : (transaction body s).2 = s := by
  unfold transaction at h ⊢
  rcases hbody : body s with ⟨_ | _, _⟩
  · rfl
  · simp [hbody] at h

@[simp] theorem query_apply {α : Type} {f : CompanionStore → Res StoreError α} :
    query f s = (f s, s) := rfl

/-! ## Companions -/

theorem IsValue.storedNumber {value : ByteVec} {e : Shelved} (h : IsValue value e) :
    storedNumber value.val = .ok e.1 := by
  obtain ⟨record, -, hvalue⟩ := h
  have hlen : ¬ value.val.length < numberLen := by
    rw [hvalue, List.length_append, length_be64, numberLen]
    omega
  simp only [Store.storedNumber, Res.refuse_of_not hlen, Res.bind_ok, Res.pure_eq_ok]
  rw [hvalue, numberLen, List.take_left' (length_be64 _), fromBe64_be64]

theorem IsValue.decode {value : ByteVec} {e : Shelved} (h : IsValue value e) :
    ∃ record, storedRecord value = .ok record ∧ Store.decode record = .ok e.2 := by
  obtain ⟨record, hencode, hvalue⟩ := h
  have hlen : ¬ value.val.length < numberLen := by
    rw [hvalue, List.length_append, length_be64, numberLen]
    omega
  refine ⟨record, ?_, decode_eq_ok.mpr hencode⟩
  simp only [storedRecord, Res.refuse_of_not hlen, Res.bind_ok, Res.pure_eq_ok]
  apply Subtype.ext
  simp only [hvalue, numberLen, List.drop_left' (length_be64 _)]

theorem HoldsNumbers.readHorizon {hz cu : Option UInt64} (h : HoldsNumbers s hz cu) :
    readMetaNumber horizonKey s = .ok hz := by
  rw [readMetaNumber, h.horizon]
  cases hz with
  | none => rfl
  | some n => simp [numberLen, Res.refuse]

theorem HoldsNumbers.readCursor {hz cu : Option UInt64} (h : HoldsNumbers s hz cu) :
    readMetaNumber evictionCursorKey s = .ok cu := by
  rw [readMetaNumber, h.cursor]
  cases cu with
  | none => rfl
  | some n => simp [numberLen, Res.refuse]

/-- A lookup answers what the shelf holds. -/
theorem Represents.get (h : Represents s a) (hash : Bytes32) :
    CompanionStore.get hash s = .ok (a.lookup hash) := by
  unfold CompanionStore.get Shelf.lookup
  cases he : a.companions hash with
  | none =>
    rw [h.companions.absent hash he, h.numbers.readHorizon]
    cases a.horizon <;> rfl
  | some e =>
    obtain ⟨value, hfind, hvalue⟩ := h.companions.present hash e he
    obtain ⟨record, hrecord, hdecode⟩ := hvalue.decode
    simp [hfind, hrecord, hdecode]

/-- The index and the records after one hash changed. -/
theorem HoldsCompanions.update {m : Bytes32 → Option Shelved} (hm : HoldsCompanions s m)
    {hash : Bytes32} {e : Option Shelved}
    (hrecord : ∀ h : Bytes32, h ≠ hash → s'.companions.find h.val = s.companions.find h.val)
    (habsent : e = none → s'.companions.find hash.val = none)
    (hpresent : ∀ x, e = some x → ∃ value, s'.companions.find hash.val = some value ∧ IsValue value x)
    (hindex : ∀ key, (key, ()) ∈ s'.byNumber.rows ↔
      ((key, ()) ∈ s.byNumber.rows ∧ ∀ x, m hash = some x → key ≠ indexKey x.1 hash) ∨
        ∃ x, e = some x ∧ key = indexKey x.1 hash) :
    HoldsCompanions s' (Function.update m hash e) where
  absent h hnone := by
    by_cases heq : h = hash
    · subst heq
      rw [Function.update_self] at hnone
      exact habsent hnone
    · rw [Function.update_of_ne heq] at hnone
      rw [hrecord h heq]
      exact hm.absent h hnone
  present h x hx := by
    by_cases heq : h = hash
    · subst heq
      rw [Function.update_self] at hx
      exact hpresent x hx
    · rw [Function.update_of_ne heq] at hx
      rw [hrecord h heq]
      exact hm.present h x hx
  index key := by
    rw [hindex, hm.index]
    constructor
    · rintro (⟨⟨h, x, hx, rfl⟩, hne⟩ | ⟨x, hx, rfl⟩)
      · have hh : h ≠ hash := by
          rintro rfl
          exact hne x hx rfl
        exact ⟨h, x, by rwa [Function.update_of_ne hh], rfl⟩
      · exact ⟨hash, x, by rwa [Function.update_self], rfl⟩
    · rintro ⟨h, x, hx, rfl⟩
      by_cases heq : h = hash
      · subst heq
        rw [Function.update_self] at hx
        exact .inr ⟨x, hx, rfl⟩
      · rw [Function.update_of_ne heq] at hx
        refine .inl ⟨⟨h, x, hx, rfl⟩, ?_⟩
        intro y _ hkey
        exact heq (indexKey_inj hkey).2

theorem dropStaleIndex_eq {m : Bytes32 → Option Shelved} (hm : HoldsCompanions s m) (hash : Bytes32)
    (number : UInt64) :
    ∃ t, CompanionStore.dropStaleIndex hash number s = (.ok (), t) ∧
      t = { s with byNumber := t.byNumber } ∧
      ∀ key, key ≠ indexKey number hash →
        ((key, ()) ∈ t.byNumber.rows ↔
          (key, ()) ∈ s.byNumber.rows ∧ ∀ e, m hash = some e → key ≠ indexKey e.1 hash) := by
  cases he : m hash with
  | none =>
    refine ⟨s, ?_, rfl, by simp⟩
    simp [CompanionStore.dropStaleIndex, Run.bind_apply, hm.absent hash he]
  | some e =>
    obtain ⟨value, hfind, hvalue⟩ := hm.present hash e he
    refine ⟨if e.1 ≠ number then { s with byNumber := s.byNumber.erase (indexKey e.1 hash) } else s,
      ?_, ?_, ?_⟩
    · simp only [CompanionStore.dropStaleIndex, Run.bind_apply, query_apply, hfind, Run.lift_apply,
        hvalue.storedNumber, Run.modify_apply]
    · split_ifs <;> rfl
    · intro key hkey
      split_ifs with hsame
      · simp [Table.mem_erase]
      · simp only [ne_eq, not_not] at hsame
        simp [hsame, hkey]

theorem Represents.put (h : Represents s a) {hash : Bytes32} {number : UInt64}
    {companion : SealCompanion}
    (hput : CompanionStore.put hash number companion s = (.ok (), s')) :
    Represents s' (a.put hash number companion) := by
  obtain ⟨t, ht, htable, hrows⟩ := dropStaleIndex_eq h.companions hash number
  simp only [CompanionStore.put, Run.bind_eq_ok, Run.lift_eq_ok, toVec_eq_ok, transaction_eq_ok,
    Run.modify_eq_ok] at hput
  obtain ⟨record, _, ⟨hencode, rfl⟩, value, _, ⟨hvalue, rfl⟩, _, t', hdrop, rfl⟩ := hput
  obtain ⟨-, rfl⟩ := Prod.mk.inj (ht.symm.trans hdrop)
  rw [htable]
  refine ⟨h.companions.update ?_ (by simp) ?_ ?_, ⟨h.accounting.named, h.accounting.record,
    h.accounting.index⟩, ⟨h.numbers.horizon, h.numbers.cursor⟩⟩
  · intro g hg
    rw [Table.find_insert, if_neg (fun heq => hg (Subtype.ext heq))]
  · rintro x hx
    obtain rfl := Option.some.inj hx
    exact ⟨value, by rw [Table.find_insert, if_pos rfl], record, hencode, hvalue.symm⟩
  · intro key
    rw [Table.mem_insert]
    by_cases hkey : key = indexKey number hash
    · simp [hkey]
    · simp [hkey, hrows key hkey]

/-- A companion that is not stored leaves the store as it was. -/
theorem put_error {hash : Bytes32} {number : UInt64} {companion : SealCompanion}
    {e : Fault StoreError} (h : CompanionStore.put hash number companion s = (.error e, s')) :
    s' = s := by
  simp only [CompanionStore.put, Run.bind_eq, Run.lift_apply, Prod.mk.injEq] at h
  rcases h with ⟨record, _, ⟨-, rfl⟩, h⟩ | ⟨_, ⟨-, rfl⟩, -⟩
  · rcases h with ⟨value, _, ⟨-, rfl⟩, h⟩ | ⟨_, ⟨-, rfl⟩, -⟩
    · have hkeep := transaction_error (congrArg Prod.fst h)
      rw [h] at hkeep
      exact hkeep
    · rfl
  · rfl

/-- A companion whose record can be written is stored. -/
theorem Represents.put_ok (h : Represents s a) {companion : SealCompanion} (hframed : companion.Framed)
    (hlen : companion.layout.length + numberLen < 2 ^ 63) (hash : Bytes32) (number : UInt64) :
    ∃ t, CompanionStore.put hash number companion s = (.ok (), t) := by
  obtain ⟨t, ht, -, -⟩ := dropStaleIndex_eq h.companions hash number
  have hrecord : encode companion = .ok ⟨companion.layout, by omega⟩ :=
    encode_eq_ok.mpr ⟨hframed, rfl⟩
  have hsize : (be64 number ++ companion.layout).length < 2 ^ 63 := by
    rw [List.length_append, length_be64]
    rw [numberLen] at hlen
    omega
  simp only [CompanionStore.put, Run.bind_eq_ok, Run.lift_eq_ok, transaction_eq_ok, Run.modify_eq_ok]
  exact ⟨_, _, _, ⟨hrecord, rfl⟩, ⟨_, hsize⟩, _, ⟨toVec_eq_ok.mpr rfl, rfl⟩, _, _, ht, rfl⟩

theorem Represents.remove (h : Represents s a) (hash : Bytes32) :
    ∃ t, CompanionStore.remove hash s = (.ok (), t) ∧ Represents t (a.remove hash) := by
  cases he : a.companions hash with
  | none =>
    have hsame : a.remove hash = a := by
      simp only [Shelf.remove, ← he, Function.update_eq_self]
    refine ⟨s, transaction_eq_ok.mpr ?_, by rwa [hsame]⟩
    simp [Run.bind_apply, h.companions.absent hash he]
  | some e =>
    obtain ⟨value, hfind, hvalue⟩ := h.companions.present hash e he
    refine ⟨_, transaction_eq_ok.mpr (by simp only [Run.bind_apply, query_apply, hfind,
      Run.lift_apply, hvalue.storedNumber, Run.modify_apply]; rfl), ?_⟩
    refine ⟨h.companions.update ?_ ?_ (by simp) ?_, ⟨h.accounting.named, h.accounting.record,
      h.accounting.index⟩, ⟨h.numbers.horizon, h.numbers.cursor⟩⟩
    · intro g hg
      rw [Table.find_erase, if_neg (fun heq => hg (Subtype.ext heq))]
    · intro _
      rw [Table.find_erase, if_pos rfl]
    · intro key
      simp [Table.mem_erase, he]

/-! ### Walks of the number index -/

/-- Every row of the index is the key of an entry. -/
theorem HoldsCompanions.row {m : Bytes32 → Option Shelved} (hm : HoldsCompanions s m)
    {r : Bytes × Unit} (hr : r ∈ s.byNumber.rows) : ∃ h e, m h = some e ∧ r.1 = indexKey e.1 h :=
  (hm.index r.1).mp hr

/-- A walk of index keys in order stops at the first number that is not below `upper`. -/
theorem rangeRows_eq (upper : UInt64) {rows : List (Bytes × Unit)}
    (hkeys : ∀ r ∈ rows, ∃ (n : UInt64) (h : Bytes32), r.1 = indexKey n h)
    (hsorted : rows.Pairwise fun a b => a.1 < b.1) :
    ∃ entries, CompanionStore.rangeRows upper rows = .ok entries ∧
      (∀ h n, (h, n) ∈ entries ↔ (indexKey n h, ()) ∈ rows ∧ n < upper) ∧
      entries.Pairwise fun x y => indexKey x.2 x.1 < indexKey y.2 y.1 := by
  induction rows with
  | nil => exact ⟨[], rfl, by simp, .nil⟩
  | cons r rows ih =>
    obtain ⟨hfirst, hrest⟩ := List.pairwise_cons.mp hsorted
    obtain ⟨n, h, hkey⟩ := hkeys r (by simp)
    obtain ⟨key, u⟩ := r
    simp only at hkey
    subst hkey
    obtain ⟨entries, hentries, hmem, horder⟩ := ih (fun r hr => hkeys r (by simp [hr])) hrest
    have hhash : (Res.unwrap (Fixed.ofBytes? 32 h.val) : Res StoreError Bytes32) = .ok h := by
      simp
    by_cases hstop : n ≥ upper
    · refine ⟨[], ?_, ?_, .nil⟩
      · simp [CompanionStore.rangeRows, Res.refuse, hstop]
      · intro g m
        simp only [List.not_mem_nil, false_iff, not_and, UInt64.not_lt]
        intro hg
        rcases List.mem_cons.mp hg with heq | hg
        · obtain ⟨rfl, -⟩ := indexKey_inj (Prod.mk.inj heq).1
          exact hstop
        · -- a later key has no smaller number
          rcases indexKey_lt_iff.mp (hfirst _ hg) with hlt | ⟨rfl, -⟩
          · exact UInt64.le_trans hstop (UInt64.le_of_lt hlt)
          · exact hstop
    · refine ⟨(h, n) :: entries, ?_, ?_, ?_⟩
      · simp [CompanionStore.rangeRows, Res.refuse, hstop, hhash, hentries]
      · intro g m
        rw [List.mem_cons, List.mem_cons, hmem, Prod.mk.injEq, Prod.mk.injEq]
        constructor
        · rintro (⟨rfl, rfl⟩ | ⟨hg, hlt⟩)
          · exact ⟨.inl ⟨rfl, rfl⟩, UInt64.not_le.mp hstop⟩
          · exact ⟨.inr hg, hlt⟩
        · rintro ⟨⟨heq, -⟩ | hg, hlt⟩
          · obtain ⟨rfl, rfl⟩ := indexKey_inj heq
            exact .inl ⟨rfl, rfl⟩
          · exact .inr ⟨hg, hlt⟩
      · refine List.pairwise_cons.mpr ⟨?_, horder⟩
        rintro ⟨g, m⟩ hg
        exact hfirst _ ((hmem g m).mp hg).1

/-- A range read lists exactly the companions of the range, by number and hash. -/
theorem Represents.entriesInRange (h : Represents s a) (lower upper : UInt64) :
    ∃ entries, CompanionStore.entriesInRange lower upper s = .ok entries ∧
      (∀ hash n, (hash, n) ∈ entries ↔
        (∃ c, a.companions hash = some (n, c)) ∧ lower ≤ n ∧ n < upper) ∧
      entries.Pairwise fun x y => indexKey x.2 x.1 < indexKey y.2 y.1 := by
  have hkeys : ∀ r ∈ s.byNumber.since (be64 lower), ∃ (n : UInt64) (h : Bytes32), r.1 = indexKey n h := by
    intro r hr
    obtain ⟨g, e, -, hkey⟩ := h.companions.row (Table.mem_since.mp hr).1
    exact ⟨e.1, g, hkey⟩
  obtain ⟨entries, hentries, hmem, horder⟩ := rangeRows_eq upper hkeys
    (s.byNumber.pairwise_since _)
  refine ⟨entries, hentries, ?_, horder⟩
  intro hash n
  rw [hmem, Table.mem_since, h.companions.index, be64_le_indexKey]
  constructor
  · rintro ⟨⟨⟨g, ⟨m, c⟩, hg, hkey⟩, hle⟩, hlt⟩
    obtain ⟨rfl, rfl⟩ := indexKey_inj hkey
    exact ⟨⟨c, hg⟩, hle, hlt⟩
  · rintro ⟨⟨c, hc⟩, hle, hlt⟩
    exact ⟨⟨⟨hash, (n, c), hc, rfl⟩, hle⟩, hlt⟩

/-- A pruning walk drops the rows below the bound, one by one. -/
theorem pruneRows_eq {drop : Bytes → CompanionStore → CompanionStore} {reason : String}
    {number : UInt64} {rows : List (Bytes × Unit)} (hkeys : ∀ r ∈ rows, r.1.length = indexKeyLen)
    (t : CompanionStore) :
    CompanionStore.pruneRows drop reason number rows t =
      (.ok (), (rows.takeWhile fun r => keyNumber r.1 < number).foldl (fun t r => drop r.1 t) t) := by
  induction rows generalizing t with
  | nil => rfl
  | cons r rows ih =>
    obtain ⟨key, u⟩ := r
    have hlen : ¬ key.length ≠ indexKeyLen := not_not.mpr (hkeys (key, u) (by simp))
    have hrefuse : (Run.refuse (key.length ≠ indexKeyLen) (.corrupt reason) : Txn Unit) t =
        (.ok (), t) := Run.refuse_eq_ok.mpr ⟨hlen, rfl⟩
    rw [CompanionStore.pruneRows, Run.bind_apply_ok hrefuse, List.takeWhile_cons]
    by_cases hstop : keyNumber key ≥ number
    · simp [hstop, UInt64.not_lt.mpr hstop]
    · have hlt : keyNumber key < number := UInt64.not_le.mp hstop
      rw [if_neg hstop, Run.bind_apply_ok (Run.modify_apply (drop key) t),
        ih fun r hr => hkeys r (by simp [hr])]
      simp [hlt]

/-- The rows before the first number that is not below a bound are all rows below it. -/
theorem mem_takeWhile_keyNumber {number : UInt64} {rows : List (Bytes × Unit)}
    (hkeys : ∀ r ∈ rows, ∃ (n : UInt64) (h : Bytes32), r.1 = indexKey n h)
    (hsorted : rows.Pairwise fun a b => a.1 < b.1) {r : Bytes × Unit} :
    r ∈ rows.takeWhile (fun r => keyNumber r.1 < number) ↔ r ∈ rows ∧ keyNumber r.1 < number := by
  induction rows with
  | nil => simp
  | cons x rows ih =>
    obtain ⟨hfirst, hrest⟩ := List.pairwise_cons.mp hsorted
    rw [List.takeWhile_cons]
    split_ifs with hx
    · rw [List.mem_cons, List.mem_cons, ih (fun r hr => hkeys r (by simp [hr])) hrest]
      constructor
      · rintro (rfl | ⟨hr, hlt⟩)
        · exact ⟨.inl rfl, by simpa using hx⟩
        · exact ⟨.inr hr, hlt⟩
      · rintro ⟨rfl | hr, hlt⟩
        · exact .inl rfl
        · exact .inr ⟨hr, hlt⟩
    · simp only [List.not_mem_nil, false_iff, not_and, UInt64.not_lt]
      have hxle : number ≤ keyNumber x.1 := UInt64.not_lt.mp (by simpa using hx)
      intro hr
      rcases List.mem_cons.mp hr with rfl | hr
      · exact hxle
      · obtain ⟨n, h, hn⟩ := hkeys x (by simp)
        obtain ⟨m, g, hm⟩ := hkeys r (by simp [hr])
        have hlt := hfirst r hr
        rw [hn, hm] at hlt
        rw [hn, keyNumber_indexKey] at hxle
        rw [hm, keyNumber_indexKey]
        rcases indexKey_lt_iff.mp hlt with hnm | ⟨rfl, -⟩
        · exact UInt64.le_trans hxle (UInt64.le_of_lt hnm)
        · exact hxle

theorem foldl_dropCompanion (rows : List (Bytes × Unit)) (t : CompanionStore) :
    rows.foldl (fun t r => CompanionStore.dropCompanion r.1 t) t =
      { t with companions := t.companions.eraseAll (rows.map fun r => r.1.drop numberLen)
               byNumber := t.byNumber.eraseAll (rows.map Prod.fst) } := by
  induction rows generalizing t with
  | nil => rfl
  | cons r rows ih => rw [List.foldl_cons, ih]; rfl

theorem foldl_dropAccounting (rows : List (Bytes × Unit)) (t : CompanionStore) :
    rows.foldl (fun t r => CompanionStore.dropAccounting r.1 t) t =
      { t with accounting := t.accounting.eraseAll (rows.map fun r => r.1.drop numberLen)
               accountingByNumber := t.accountingByNumber.eraseAll (rows.map Prod.fst) } := by
  induction rows generalizing t with
  | nil => rfl
  | cons r rows ih => rw [List.foldl_cons, ih]; rfl

/-- The rows a pruning walk drops. -/
def prunedRows (index : Table Bytes Unit) (number : UInt64) : List (Bytes × Unit) :=
  index.rows.takeWhile fun r => keyNumber r.1 < number

section Pruned

variable {β : Type} {index : Table Bytes Unit} {m : Bytes32 → Option β} {num : β → UInt64}
  {number : UInt64}

theorem mem_prunedRows
    (hindex : ∀ key, (key, ()) ∈ index.rows ↔ ∃ h e, m h = some e ∧ key = indexKey (num e) h)
    {key : Bytes} :
    (key, ()) ∈ prunedRows index number ↔
      ∃ h e, m h = some e ∧ num e < number ∧ key = indexKey (num e) h := by
  have hkeys : ∀ r ∈ index.rows, ∃ (n : UInt64) (h : Bytes32), r.1 = indexKey n h := by
    rintro ⟨key, u⟩ hr
    obtain ⟨h, e, -, hkey⟩ := (hindex key).mp hr
    exact ⟨num e, h, hkey⟩
  rw [prunedRows, mem_takeWhile_keyNumber hkeys index.sorted, hindex]
  constructor
  · rintro ⟨⟨h, e, he, rfl⟩, hlt⟩
    exact ⟨h, e, he, by simpa using hlt, rfl⟩
  · rintro ⟨h, e, he, hlt, rfl⟩
    exact ⟨⟨h, e, he, rfl⟩, by simpa using hlt⟩

/-- The hashes dropped are those of the entries below the bound. -/
theorem hash_mem_pruned
    (hindex : ∀ key, (key, ()) ∈ index.rows ↔ ∃ h e, m h = some e ∧ key = indexKey (num e) h)
    (g : Bytes32) :
    g.val ∈ (prunedRows index number).map (fun r => r.1.drop numberLen) ↔
      ∃ e, m g = some e ∧ num e < number := by
  rw [List.mem_map]
  constructor
  · rintro ⟨⟨key, u⟩, hr, hg⟩
    obtain ⟨h, e, he, hlt, rfl⟩ := (mem_prunedRows hindex).mp hr
    rw [drop_indexKey] at hg
    obtain rfl := Subtype.ext hg
    exact ⟨e, he, hlt⟩
  · rintro ⟨e, he, hlt⟩
    exact ⟨(indexKey (num e) g, ()), (mem_prunedRows hindex).mpr ⟨g, e, he, hlt, rfl⟩, by simp⟩

/-- The index left behind lists the entries that stay. -/
theorem mem_eraseAll_pruned
    (hindex : ∀ key, (key, ()) ∈ index.rows ↔ ∃ h e, m h = some e ∧ key = indexKey (num e) h)
    (key : Bytes) :
    (key, ()) ∈ (index.eraseAll ((prunedRows index number).map Prod.fst)).rows ↔
      ∃ h e, (m h).filter (fun e => number ≤ num e) = some e ∧ key = indexKey (num e) h := by
  have hdropped : key ∈ (prunedRows index number).map Prod.fst ↔
      (key, ()) ∈ prunedRows index number :=
    ⟨fun h => by obtain ⟨⟨k, u⟩, hr, rfl⟩ := List.mem_map.mp h; exact hr,
      fun h => List.mem_map.mpr ⟨_, h, rfl⟩⟩
  rw [Table.mem_eraseAll, hindex, hdropped, mem_prunedRows hindex]
  constructor
  · rintro ⟨⟨g, e, he, rfl⟩, hkept⟩
    refine ⟨g, e, Option.filter_eq_some_iff.mpr ⟨he, ?_⟩, rfl⟩
    by_contra hlt
    exact hkept ⟨g, e, he, by simpa using hlt, rfl⟩
  · rintro ⟨g, e, hg, rfl⟩
    obtain ⟨he, hle⟩ := Option.filter_eq_some_iff.mp hg
    refine ⟨⟨g, e, he, rfl⟩, ?_⟩
    rintro ⟨g', e', he', hlt, heq⟩
    obtain ⟨-, rfl⟩ := indexKey_inj heq
    obtain rfl := Option.some.inj (he.symm.trans he')
    exact UInt64.not_lt.mpr (by simpa using hle) hlt

end Pruned

theorem horizonKey_ne_evictionCursorKey : horizonKey ≠ evictionCursorKey := by
  intro h
  have hlen := congrArg List.length h
  simp [horizonKey, evictionCursorKey, ascii] at hlen

theorem HoldsNumbers.putHorizon {hz cu : Option UInt64} (h : HoldsNumbers s hz cu) {number : UInt64}
    {t : CompanionStore} (ht : t.metadata = s.metadata.insert horizonKey (be64 number)) :
    HoldsNumbers t (some number) cu where
  horizon := by rw [ht, Table.find_insert, if_pos rfl]; rfl
  cursor := by rw [ht, Table.find_insert, if_neg horizonKey_ne_evictionCursorKey.symm, h.cursor]

theorem HoldsNumbers.putCursor {hz cu : Option UInt64} (h : HoldsNumbers s hz cu) {number : UInt64}
    {t : CompanionStore} (ht : t.metadata = s.metadata.insert evictionCursorKey (be64 number)) :
    HoldsNumbers t hz (some number) where
  horizon := by rw [ht, Table.find_insert, if_neg horizonKey_ne_evictionCursorKey, h.horizon]
  cursor := by rw [ht, Table.find_insert, if_pos rfl]; rfl

theorem Represents.pruneBelow (h : Represents s a) (number : UInt64) :
    ∃ t, CompanionStore.pruneBelow number s = (.ok (), t) ∧ Represents t (a.pruneBelow number) := by
  have hkeys : ∀ r ∈ s.byNumber.rows, r.1.length = indexKeyLen := by
    intro r hr
    obtain ⟨g, e, -, hkey⟩ := h.companions.row hr
    rw [hkey, length_indexKey]
  have hhash (g : Bytes32) :
      g.val ∈ (prunedRows s.byNumber number).map (fun r => r.1.drop numberLen) ↔ _ :=
    hash_mem_pruned h.companions.index g
  refine ⟨_, transaction_eq_ok.mpr (Run.bind_eq_ok.mpr ⟨a.horizon, s,
    by rw [query_apply, h.numbers.readHorizon], Run.bind_eq_ok.mpr ⟨s.byNumber.rows, s, rfl,
    Run.bind_eq_ok.mpr ⟨(), _, pruneRows_eq hkeys s, rfl⟩⟩⟩), ?_⟩
  rw [foldl_dropCompanion]
  refine ⟨⟨?_, ?_, mem_eraseAll_pruned h.companions.index⟩,
    ⟨h.accounting.named, h.accounting.record, h.accounting.index⟩, h.numbers.putHorizon rfl⟩
  · intro g hg
    rw [Table.find_eraseAll]
    split_ifs with hpruned
    · rfl
    · refine h.companions.absent g ?_
      cases he : a.companions g with
      | none => rfl
      | some e =>
        have hlt : e.1 < number := by
          simpa [Shelf.pruneBelow, he] using hg
        exact absurd ((hhash g).mpr ⟨e, he, hlt⟩) hpruned
  · intro g e hg
    obtain ⟨he, hle⟩ := Option.filter_eq_some_iff.mp hg
    obtain ⟨value, hfind, hvalue⟩ := h.companions.present g e he
    refine ⟨value, ?_, hvalue⟩
    have hkept : ¬ ∃ x, a.companions g = some x ∧ x.1 < number := by
      rintro ⟨x, hx, hlt⟩
      obtain rfl := Option.some.inj (he.symm.trans hx)
      exact UInt64.not_lt.mpr (by simpa using hle) hlt
    exact (Table.find_eraseAll.trans (if_neg (mt (hhash g).mp hkept))).trans hfind

theorem Represents.setEvictionCursor (h : Represents s a) (number : UInt64) :
    ∃ t, CompanionStore.setEvictionCursor number s = (.ok (), t) ∧
      Represents t (a.setCursor number) := by
  refine ⟨_, transaction_eq_ok.mpr (by
    rw [Run.bind_apply_ok (by rw [query_apply, h.numbers.readCursor])]
    rfl), ?_⟩
  exact ⟨⟨h.companions.absent, h.companions.present, h.companions.index⟩,
    ⟨h.accounting.named, h.accounting.record, h.accounting.index⟩, h.numbers.putCursor rfl⟩

/-! ## Accounting -/

theorem Represents.getAccounting (h : Represents s a) (hash : Bytes32) :
    CompanionStore.getAccounting hash s = .ok (a.accounting hash) := by
  rw [CompanionStore.getAccounting, h.accounting.record]
  cases hr : a.accounting hash with
  | none => rfl
  | some r =>
    have hnamed := h.accounting.named hash r hr
    simp [decodeAccounting_encodeAccounting, Res.refuse, hnamed]

theorem refuseConflict_eq (h : Represents s a) (record : StoredAccounting) :
    CompanionStore.refuseConflict record s =
      (Res.refuse (∃ old, a.accounting record.accounting.blockHash = some old ∧ old ≠ record)
        (.corrupt "conflicting accounting for block hash"), s) := by
  simp only [CompanionStore.refuseConflict, Run.bind_apply, query_apply, h.accounting.record]
  cases ho : a.accounting record.accounting.blockHash with
  | none => simp [Res.refuse]
  | some old => simp [decodeAccounting_encodeAccounting, Run.bind_apply, Run.refuse, Res.refuse]

theorem HoldsAccounting.update {m : Bytes32 → Option StoredAccounting} (hm : HoldsAccounting s m)
    {record : StoredAccounting}
    (hsame : ∀ old, m record.accounting.blockHash = some old → old = record) :
    HoldsAccounting
      { s with accounting :=
                 s.accounting.insert record.accounting.blockHash.val (encodeAccounting record)
               accountingByNumber := s.accountingByNumber.insert
                 (indexKey record.blockNumber record.accounting.blockHash) () }
      (Function.update m record.accounting.blockHash (some record)) where
  named h r hr := by
    by_cases heq : h = record.accounting.blockHash
    · subst heq
      rw [Function.update_self, Option.some.injEq] at hr
      rw [hr]
    · rw [Function.update_of_ne heq] at hr
      exact hm.named h r hr
  record h := by
    rw [Table.find_insert]
    by_cases heq : h = record.accounting.blockHash
    · rw [if_pos (congrArg _ heq), heq, Function.update_self]
      rfl
    · rw [if_neg fun hval => heq (Subtype.ext hval), Function.update_of_ne heq, hm.record]
  index key := by
    rw [Table.mem_insert, hm.index]
    constructor
    · rintro (heq | ⟨⟨h, r, hr, rfl⟩, -⟩)
      · exact ⟨_, record, Function.update_self .., (Prod.mk.inj heq).1⟩
      · by_cases heq : h = record.accounting.blockHash
        · subst heq
          rw [hsame r hr]
          exact ⟨_, record, Function.update_self .., rfl⟩
        · exact ⟨h, r, by rwa [Function.update_of_ne heq], rfl⟩
    · rintro ⟨h, r, hr, rfl⟩
      by_cases heq : h = record.accounting.blockHash
      · subst heq
        rw [Function.update_self, Option.some.injEq] at hr
        subst hr
        exact .inl rfl
      · rw [Function.update_of_ne heq] at hr
        refine .inr ⟨⟨h, r, hr, rfl⟩, ?_⟩
        intro hkey
        exact heq (indexKey_inj hkey).2

/-- A record is stored unless the hash already has another one. -/
theorem Represents.putAccounting (h : Represents s a) {record : StoredAccounting}
    (hsame : ∀ old, a.accounting record.accounting.blockHash = some old → old = record) :
    ∃ t, CompanionStore.putAccounting record s = (.ok (), t) ∧
      Represents t (a.putAccounting record) := by
  have hclear : ¬ ∃ old, a.accounting record.accounting.blockHash = some old ∧ old ≠ record := by
    rintro ⟨old, hold, hne⟩
    exact hne (hsame old hold)
  have hrefuse := refuseConflict_eq h record
  rw [Res.refuse_of_not hclear] at hrefuse
  refine ⟨_, transaction_eq_ok.mpr (Run.bind_eq_ok.mpr ⟨_, _, hrefuse, rfl⟩), ?_⟩
  exact ⟨⟨h.companions.absent, h.companions.present, h.companions.index⟩, h.accounting.update hsame,
    ⟨h.numbers.horizon, h.numbers.cursor⟩⟩

/-- What a written record leaves to be read, in any store: a hash keeps the record it had. -/
theorem getAccounting_of_putAccounting {record : StoredAccounting}
    (hput : CompanionStore.putAccounting record s = (.ok (), s')) :
    (∀ old, s.getAccounting record.accounting.blockHash = .ok (some old) → old = record) ∧
      s'.getAccounting record.accounting.blockHash = .ok (some record) ∧
      ∀ g, g ≠ record.accounting.blockHash → s'.getAccounting g = s.getAccounting g := by
  obtain ⟨⟨⟩, t, hrefuse, hwrite⟩ := Run.bind_eq_ok.mp (transaction_eq_ok.mp hput)
  simp only [CompanionStore.refuseConflict, Run.bind_eq_ok, query_apply, Prod.mk.injEq,
    Except.ok.injEq] at hrefuse
  obtain ⟨found, _, ⟨rfl, rfl⟩, hrefuse⟩ := hrefuse
  have ht : t = s ∧ ∀ old, s.getAccounting record.accounting.blockHash = .ok (some old) →
      old = record := by
    cases hfound : s.accounting.find record.accounting.blockHash.val with
    | some bytes =>
      simp only [hfound, Run.bind_eq_ok, Run.lift_apply, Prod.mk.injEq, Run.refuse, Res.refuse_eq_ok,
        not_not] at hrefuse
      obtain ⟨old, _, ⟨hold, rfl⟩, rfl, rfl⟩ := hrefuse
      refine ⟨rfl, ?_⟩
      intro old' hold'
      simp only [CompanionStore.getAccounting, hfound, Res.bind_eq_ok, hold, Except.ok.injEq,
        exists_eq_left', Res.refuse_eq_ok, Res.pure_eq_ok, Option.some.injEq] at hold'
      obtain ⟨_, -, rfl⟩ := hold'
      rfl
    | none =>
      simp only [hfound, Run.pure_apply, Prod.mk.injEq] at hrefuse
      refine ⟨hrefuse.2.symm, ?_⟩
      intro old hold
      simp only [CompanionStore.getAccounting, hfound] at hold
      cases hold
  obtain ⟨rfl, hsame⟩ := ht
  obtain ⟨-, rfl⟩ := Prod.mk.inj hwrite
  refine ⟨hsame, ?_, ?_⟩
  · simp [CompanionStore.getAccounting, Table.find_insert, decodeAccounting_encodeAccounting, Res.refuse]
  · intro g hg
    have hval : g.val ≠ record.accounting.blockHash.val := fun heq => hg (Subtype.ext heq)
    simp only [CompanionStore.getAccounting, Table.find_insert, if_neg hval]

theorem Represents.pruneAccountingBelow (h : Represents s a) (number : UInt64) :
    ∃ t, CompanionStore.pruneAccountingBelow number s = (.ok (), t) ∧
      Represents t (a.pruneAccountingBelow number) := by
  have hkeys : ∀ r ∈ s.accountingByNumber.rows, r.1.length = indexKeyLen := by
    rintro ⟨key, u⟩ hr
    obtain ⟨g, r, -, hkey⟩ := (h.accounting.index key).mp hr
    simp only [hkey, length_indexKey]
  have hhash (g : Bytes32) :
      g.val ∈ (prunedRows s.accountingByNumber number).map (fun r => r.1.drop numberLen) ↔ _ :=
    hash_mem_pruned h.accounting.index g
  refine ⟨_, transaction_eq_ok.mpr (Run.bind_eq_ok.mpr ⟨s.accountingByNumber.rows, s, rfl,
    pruneRows_eq hkeys s⟩), ?_⟩
  rw [foldl_dropAccounting]
  refine ⟨⟨h.companions.absent, h.companions.present, h.companions.index⟩,
    ⟨?_, ?_, mem_eraseAll_pruned h.accounting.index⟩, ⟨h.numbers.horizon, h.numbers.cursor⟩⟩
  · intro g r hg
    exact h.accounting.named g r (Option.filter_eq_some_iff.mp hg).1
  · intro g
    refine Table.find_eraseAll.trans ?_
    rw [h.accounting.record, Shelf.pruneAccountingBelow]
    cases hr : a.accounting g with
    | none => simp [hr]
    | some r =>
      by_cases hlt : r.blockNumber < number
      · have hpruned := (hhash g).mpr ⟨r, hr, hlt⟩
        rw [prunedRows] at hpruned
        simp [hr, hpruned, hlt]
      · have hkept := mt (hhash g).mp (by rintro ⟨x, hx, hx'⟩; rw [hr] at hx; cases hx; exact hlt hx')
        rw [prunedRows] at hkept
        simp [hr, hkept, UInt64.not_lt.mp hlt]

end Ureth.Source.Store
