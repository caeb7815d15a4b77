import Ureth.Source.B2.CborItem
import Ureth.Source.B2.Semantics

/-!
# What the semantics checks establish

Two kinds of facts about each function of the semantics. On the items of an
accepted scan, decoding neither panics nor reports out-of-gas (`Quiet`), and the
verification of what was decoded fails only as a relation does (`Relational`).
Where a function succeeds, it has established what later steps rely on: amounts
fit a word, each transition adds one new state ID, and a decoded history has one
transfer for each tuple.
-/

namespace Ureth.Source.B2
open Ureth.Foundation
open Cbor (Item Items Scanned)
open Ureth.Source.B1.Cbor (usizeMax Room)

/-- An object short enough to scan without overflow. -/
abbrev Short (b : Bytes) : Prop := b.length + 1 < 2 ^ 63

theorem Short.room {b : Bytes} (h : Short b) : Room b 0 := by
  unfold Room
  omega

/-- A budget whose ceiling is a machine word. -/
def Items.Word (items : Items) : Prop := items.cap < 2 ^ 64

theorem items_default_word : Items.Word .default := by
  simp [Items.Word, Items.default, Items.perObject, Items.max]

/-- How the verification of a decoded history fails: with a relation failure, or with a lock reason
or lock proof above its size bound. -/
abbrev Relational (e : Error) : Prop :=
  e.isInvalid = true ∨ e = .justificationTooLarge ∨ e = .lockProofTooLarge

theorem Relational.ne_outOfGas {e : Error} (h : Relational e) : e ≠ .outOfGas := by
  rintro rfl
  revert h
  decide

section Fields

variable {it : Item}

theorem network_quiet (it : Item) : Quiet (network it) :=
  (Cbor.uint_quiet it _).bind fun _ _ => (Res.failsOnly_refuse (by simp)).bind fun _ _ => by simp

theorem checkCfgNetwork_quiet (h : Scanned it) : Quiet (checkCfgNetwork it) := by
  refine (Res.failsOnly_attempt (h.array_quiet 16).noPanic).bind fun a _ => ?_
  cases a with
  | none => simp
  | some a =>
    refine (Res.failsOnly_attempt (Cbor.blob_quiet _ _).noPanic).bind fun d _ => ?_
    cases d with
    | none => simp
    | some domain =>
      dsimp only
      split
      · exact (network_quiet _).bind fun _ _ => by simp
      · simp

theorem amount_quiet (it : Item) : Quiet (amount it) :=
  (Cbor.blob_quiet it _).bind fun _ _ => (Res.failsOnly_refuse (by simp)).bind fun _ _ => by simp

/-- A decoded amount is minimal and fits a word. -/
theorem amount_eq_ok {b : Bytes} (h : amount it = .ok b) :
    b ≠ [] ∧ b.length ≤ 32 ∧ b.head? ≠ some 0 := by
  simp only [amount, Res.bind_eq_ok, Res.refuse_eq_ok, exists_const, Res.pure_eq_ok, not_or, not_lt] at h
  obtain ⟨_, -, ⟨hne, hlen, hhead⟩, rfl⟩ := h
  exact ⟨hne, hlen, hhead⟩

theorem word_eq_ok {b : Bytes} (h : b.length ≤ 32) :
    word b = .ok ⟨List.replicate (32 - b.length) 0 ++ b, by
      rw [List.length_append, List.length_replicate]; omega⟩ := by
  simp [word, Fixed.padLeft?, h, Res.unwrap]

theorem failsOnly_word {P : Error → Prop} {b : Bytes} (h : b.length ≤ 32) : (word b).FailsOnly P :=
  Res.failsOnly_of_eq_ok (word_eq_ok h)

theorem deadline_quiet (it : Item) : Quiet (deadline it) := by
  unfold deadline
  split
  · simp
  · refine (Res.failsOnly_mapErr (Cbor.uint_quiet it _).noPanic fun _ => by simp).bind fun _ _ => ?_
    exact (Res.failsOnly_refuse (by simp)).bind fun _ _ => by simp

theorem predicate_quiet (h : Scanned it) : Quiet (predicate it) := by
  refine Res.FailsOnly.bind ?_ fun a _ => ?_
  · have hq := h.tagged_quiet 3 39032 1
    rcases hq.cases with ⟨v, hv⟩ | ⟨e, he, hv⟩
    · rw [hv]
      simp [Res.mapErr]
    · rw [hv]
      simp only [Res.mapErr, Res.fail]
      change (if e = .version then Error.predicate else e) ≠ .outOfGas
      split
      · simp
      · exact he
  · refine (Cbor.blob_quiet _ _).bind fun code _ => ?_
    refine (Cbor.blob_quiet _ _).bind fun params _ => ?_
    split
    · simp
    · split
      · simp
      · exact Res.failsOnly_fail (by simp)

theorem nullable_quiet (it : Item) : Quiet (nullable it) := by
  unfold nullable
  split
  · simp
  · exact (Cbor.blob_quiet it _).bind fun _ _ => by simp

theorem proofBlob_relational (it : Item) (max : Nat) : (proofBlob it max).FailsOnly Relational := by
  refine (Res.failsOnly_mapErr (Cbor.blob_quiet it _).noPanic fun e => ?_).bind fun _ _ => ?_
  · split <;> decide
  · exact (Res.failsOnly_refuse (by decide)).bind fun _ _ => by simp

theorem proofBlob_length {b : Bytes} {max : Nat} (h : proofBlob it max = .ok b) :
    b.length ≤ max := by
  simp only [proofBlob, Res.bind_eq_ok, Res.mapErr_eq_ok, Cbor.Item.blob, Res.refuse_eq_ok,
    exists_const, Res.pure_eq_ok, not_lt] at h
  obtain ⟨_, ⟨-, hmax, rfl⟩, -, rfl⟩ := h
  exact hmax

end Fields

section Semantics

variable {H : Bytes → Bytes32} {K : K256}

theorem key_relational (params : Bytes) : (key K params).FailsOnly Relational :=
  Res.failsOnly_okOr (by decide)

theorem predStrict_quiet {it : Item} (h : Scanned it) : Quiet (predStrict K it) := by
  refine (predicate_quiet h).bind fun ⟨typ, params⟩ _ => ?_
  dsimp only
  split
  · exact ((key_relational params).mono fun _ he => he.ne_outOfGas).bind fun _ _ => by simp
  · simp

theorem predStrict_ok {it : Item} {u : Unit} (h : predStrict K it = .ok u) :
    ∃ x, predicate it = .ok x := by
  simp only [predStrict, Res.bind_eq_ok] at h
  obtain ⟨x, hx, -⟩ := h
  exact ⟨x, hx⟩

theorem parse_quiet {it : Item} (h : Scanned it) : Quiet (Cfg.parse H it) := by
  refine (h.array_quiet 16).bind fun a ha => ?_
  refine (Cbor.blob_quiet _ _).bind fun _ _ => ?_
  refine (Res.failsOnly_refuse (by simp)).bind fun _ _ => ?_
  refine (network_quiet _).bind fun _ _ => ?_
  refine (Cbor.bytes_quiet _ _).bind fun _ _ => ?_
  refine (Cbor.uint_quiet _ _).bind fun _ _ => ?_
  refine (Cbor.bytes_quiet _ _).bind fun _ _ => ?_
  refine (Cbor.uint_quiet _ _).bind fun _ _ => ?_
  refine (Cbor.blob_quiet _ _).bind fun _ _ => ?_
  refine (Cbor.bytes_quiet _ _).bind fun _ _ => ?_
  refine (Res.failsOnly_refuse (by simp)).bind fun _ _ => ?_
  refine (Cbor.bytes_quiet _ _).bind fun _ _ => ?_
  refine (Res.failsOnly_refuse (by simp)).bind fun _ _ => ?_
  refine (Cbor.bytes_quiet _ _).bind fun _ _ => ?_
  refine (Cbor.bytes_quiet _ _).bind fun _ _ => ?_
  refine Res.FailsOnly.bind ?_ fun _ _ => ?_
  · exact Res.failsOnly_each fun v _ => (Cbor.bytes_quiet v _).bind fun _ _ => by simp
  refine (Cbor.bytes_quiet _ _).bind fun _ _ => ?_
  exact (Res.failsOnly_refuse (by simp)).bind fun _ _ => by simp

theorem derive_relational {cfg : Cfg} {n : Nat} {amt : Bytes} {p : Item} {x : Nat × Bytes}
    (h : predicate p = .ok x) (hamt : amt.length ≤ 32) :
    (derive H K cfg n amt p).FailsOnly Relational := by
  refine (Res.failsOnly_refuse (by decide)).bind fun _ _ => ?_
  refine (Res.failsOnly_of_eq_ok h).bind fun ⟨typ, params⟩ _ => ?_
  refine (Res.failsOnly_refuse (by decide)).bind fun _ _ => ?_
  refine (key_relational _).bind fun _ _ => ?_
  refine (Res.failsOnly_refuse (by decide)).bind fun _ _ => ?_
  exact (failsOnly_word hamt).bind fun _ _ => by simp

/-- The derived outcome carries the amount as a word and no leaves. -/
theorem derive_eq_ok {cfg : Cfg} {n : Nat} {amt : Bytes} {p : Item} {out : Outcome}
    (h : derive H K cfg n amt p = .ok out) :
    word amt = .ok out.amount ∧ out.cfg = H cfg.raw ∧ out.leaves = [] ∧ out.depth = 0 := by
  simp only [derive, Res.bind_eq_ok, Res.pure_eq_ok] at h
  obtain ⟨_, -, _, -, _, -, _, -, _, -, w, hw, rfl⟩ := h
  exact ⟨hw, rfl, rfl, rfl⟩

/-! ## The mint -/

theorem trieTotal_relational (nodes : List Item) (total : Nat)
    (hroom : total + 1024 * nodes.length < 2 ^ 64) : (trieTotal nodes total).FailsOnly Relational := by
  induction nodes generalizing total with
  | nil => simp [trieTotal]
  | cons node rest ih =>
    rw [List.length_cons] at hroom
    refine (proofBlob_relational node _).bind fun b hb => ?_
    have := proofBlob_length hb
    refine (Res.failsOnly_u64 (by omega)).bind fun t ht => ih t ?_
    obtain ⟨-, rfl⟩ := Res.u64_eq_ok.mp ht
    omega

theorem trieTotal_le {nodes : List Item} {total t : Nat} (h : trieTotal nodes total = .ok t) :
    t ≤ total + 1024 * nodes.length := by
  induction nodes generalizing total with
  | nil =>
    simp only [trieTotal, Except.ok.injEq] at h
    omega
  | cons node rest ih =>
    simp only [trieTotal, Res.bind_eq_ok, Res.u64_eq_ok] at h
    obtain ⟨b, hb, _, ⟨-, rfl⟩, hrest⟩ := h
    have := proofBlob_length hb
    have := ih hrest
    rw [List.length_cons]
    omega

theorem trieProof_relational {trie : Item} (h : Scanned trie) (total : Nat) (hroom : total < 2 ^ 63) :
    (trieProof trie total).FailsOnly Relational := by
  refine (Res.failsOnly_mapErr (Cbor.count_quiet trie _).noPanic fun e => ?_).bind
    fun count hcount => ?_
  · split <;> decide
  rw [Res.mapErr_eq_ok] at hcount
  obtain ⟨kids, hkids, -, hlen, hmax⟩ := h.count_children hcount
  refine (Res.failsOnly_refuse (by decide)).bind fun _ _ => ?_
  rw [hkids, Res.bind_ok]
  exact trieTotal_relational kids total (by omega)

theorem trieProof_le {trie : Item} (h : Scanned trie) {total t : Nat}
    (hok : trieProof trie total = .ok t) : t ≤ total + 1024 * 65 := by
  simp only [trieProof, Res.bind_eq_ok, Res.mapErr_eq_ok] at hok
  obtain ⟨count, hcount, _, -, kids, hkids, htotal⟩ := hok
  obtain ⟨kids', hkids', -, hlen, hmax⟩ := h.count_children hcount
  rw [hkids, Except.ok.injEq] at hkids'
  subst hkids'
  have := trieTotal_le htotal
  omega

theorem lockFields_quiet (cfg : Cfg) (j : FieldList Item 6) : Quiet (lockFields cfg j) := by
  refine (Cbor.uint_quiet _ _).bind fun _ _ => ?_
  refine (Res.failsOnly_refuse (by simp)).bind fun _ _ => ?_
  refine (Cbor.bytes_quiet _ _).bind fun _ _ => ?_
  refine (Res.failsOnly_refuse (by simp)).bind fun _ _ => ?_
  refine (Cbor.bytes_quiet _ _).bind fun _ _ => ?_
  refine (Res.failsOnly_refuse (by simp)).bind fun _ _ => ?_
  refine (Cbor.uint_quiet _ _).bind fun _ _ => ?_
  exact (Res.failsOnly_refuse (by simp)).bind fun _ _ => by simp

theorem lockProof_relational {cfg : Cfg} {it : Item} (h : Scanned it) :
    (lockProof H cfg it).FailsOnly Relational := by
  refine (Res.failsOnly_mapErr (h.array_quiet 8).noPanic fun _ => by decide).bind fun p hp => ?_
  rw [Res.mapErr_eq_ok] at hp
  refine (Res.failsOnly_mapErr (Cbor.uint_quiet _ _).noPanic fun _ => by decide).bind fun _ _ => ?_
  refine (Res.failsOnly_refuse (by decide)).bind fun _ _ => ?_
  refine (Res.failsOnly_mapErr (Cbor.bytes_quiet _ _).noPanic fun _ => by decide).bind fun _ _ => ?_
  refine (Res.failsOnly_refuse (by decide)).bind fun _ _ => ?_
  refine (Res.failsOnly_mapErr (Cbor.bytes_quiet _ _).noPanic fun _ => by decide).bind fun _ _ => ?_
  refine (proofBlob_relational _ _).bind fun _ _ => ?_
  refine (proofBlob_relational _ _).bind fun _ _ => ?_
  refine (proofBlob_relational _ _).bind fun _ _ => ?_
  refine (trieProof_relational (h.array hp 6 (by omega)) 0 (by omega)).bind fun t ht => ?_
  have := trieProof_le (h.array hp 6 (by omega)) ht
  refine (trieProof_relational (h.array hp 7 (by omega)) t (by omega)).bind fun _ _ => ?_
  exact Res.failsOnly_refuse (by decide)

theorem justification_relational {cfg : Cfg} {b : Bytes} {items : Items} (hitems : Items.Word items) :
    (justification H cfg b items).FailsOnly Relational := by
  refine (Res.failsOnly_refuse (by decide)).bind fun _ hlen => ?_
  rw [Res.refuse_eq_ok] at hlen
  have hshort : Short b := by
    unfold Short
    omega
  refine (Res.failsOnly_mapErr ?_ fun _ => by decide).bind fun j hj => ?_
  · refine (Cbor.one_quiet hitems b hshort.room).noPanic.bind fun it hit => ?_
    exact ((Cbor.scanned_of_one hitems hit).tagged_quiet _ _ _).noPanic
  rw [Res.mapErr_eq_ok, Res.bind_eq_ok] at hj
  obtain ⟨it, hit, hj⟩ := hj
  have hscan := Cbor.scanned_of_one hitems hit
  refine (Res.failsOnly_mapErr (lockFields_quiet cfg j).noPanic fun _ => by decide).bind fun _ _ => ?_
  refine (lockProof_relational (hscan.tagged (by omega) hj 5 (by omega))).bind fun _ _ => ?_
  simp

theorem mintData_relational {cfg : Cfg} {b : Bytes} {items : Items} (hitems : Items.Word items)
    (hb : Short b) : (mintData cfg b items).FailsOnly Relational := by
  refine Res.failsOnly_mapErr ?_ fun _ => by decide
  refine (Cbor.one_quiet hitems b hb.room).noPanic.bind fun it hit => ?_
  have hscan := Cbor.scanned_of_one hitems hit
  refine (hscan.tagged_quiet 3 39050 1).noPanic.bind fun d hd => ?_
  have h1 := hscan.tagged (by omega) hd 1 (by omega)
  refine (h1.array_quiet 1).noPanic.bind fun list hlist => ?_
  refine ((h1.array hlist 0 (by omega)).array_quiet 2).noPanic.bind fun a _ => ?_
  refine (Cbor.bytes_quiet _ _).noPanic.bind fun _ _ => ?_
  exact (Res.noPanic_refuse _ _).bind fun _ _ => (amount_quiet _).noPanic

theorem mintData_length {cfg : Cfg} {b amt : Bytes} {items : Items}
    (h : mintData cfg b items = .ok amt) : amt.length ≤ 32 := by
  unfold mintData at h
  rw [Res.mapErr_eq_ok] at h
  simp only [Res.bind_eq_ok] at h
  obtain ⟨_, -, _, -, _, -, _, -, _, -, _, -, hamt⟩ := h
  exact (amount_eq_ok hamt).2.1

/-- What later steps know of a decoded mint. -/
structure MintOk (m : Mint) : Prop where
  fields : ∀ i, i < 8 → Scanned m.fields[i]
  salt : m.fields[3].data.length = 32
  ty : m.fields[4].data.length = 32
  pred : ∃ x, predicate m.fields[2] = .ok x
  short : ∀ b, (m.justification = some b ∨ m.data = some b) → ∃ i, i < 8 ∧ b = m.fields[i].data

theorem decodeMint_quiet {it : Item} (h : Scanned it) : Quiet (decodeMint K it) := by
  refine (h.tagged_quiet 8 39041 2).bind fun m hm => ?_
  refine (network_quiet _).bind fun _ _ => ?_
  refine (predStrict_quiet (h.tagged (by omega) hm 2 (by omega))).bind fun _ _ => ?_
  refine (Cbor.bytes_quiet _ _).bind fun _ _ => ?_
  refine (Cbor.bytes_quiet _ _).bind fun _ _ => ?_
  refine (nullable_quiet _).bind fun _ _ => ?_
  refine (nullable_quiet _).bind fun _ _ => ?_
  exact (deadline_quiet _).bind fun _ _ => by simp

theorem nullable_eq_ok {it : Item} {o : Option Bytes} (h : nullable it = .ok o) {b : Bytes}
    (ho : o = some b) : b = it.data := by
  unfold nullable at h
  split at h
  · simp only [Except.ok.injEq] at h
    simp [← h] at ho
  · simp only [Res.bind_eq_ok, Cbor.Item.blob, Res.refuse_eq_ok, exists_const, Res.pure_eq_ok] at h
    obtain ⟨_, ⟨-, -, rfl⟩, rfl⟩ := h
    exact (Option.some.inj ho).symm

theorem decodeMint_ok {it : Item} (h : Scanned it) {m : Mint} (hm : decodeMint K it = .ok m) :
    MintOk m ∧ it.tagged 8 39041 2 = .ok m.fields ∧ nullable m.fields[5] = .ok m.justification ∧
      nullable m.fields[6] = .ok m.data := by
  simp only [decodeMint, Res.bind_eq_ok, Res.pure_eq_ok] at hm
  obtain ⟨f, hf, _, -, _, hpred, s, hs, t, ht, j, hj, d, hd, _, -, rfl⟩ := hm
  have hscan := h.tagged (by omega) hf
  refine ⟨⟨hscan, ?_, ?_, predStrict_ok hpred, ?_⟩, hf, hj, hd⟩
  · obtain ⟨hlen, rfl⟩ := (hscan 3 (by omega)).bytes_length hs
    exact hlen
  · obtain ⟨hlen, rfl⟩ := (hscan 4 (by omega)).bytes_length ht
    exact hlen
  · rintro b (hb | hb)
    · exact ⟨5, by omega, nullable_eq_ok hj hb⟩
    · exact ⟨6, by omega, nullable_eq_ok hd hb⟩

theorem mintNonce_relational {cfg : Cfg} {m : Mint} {root : Bool} {items : Items}
    (hitems : Items.Word items) : (mintNonce H cfg m root items).FailsOnly Relational := by
  unfold mintNonce
  split
  · refine Res.FailsOnly.bind ?_ fun _ _ => by simp
    refine (Res.failsOnly_okOr (by decide)).bind fun j _ => ?_
    refine (justification_relational hitems).bind fun _ _ => ?_
    exact (Res.failsOnly_refuse (by decide)).bind fun _ _ => by simp
  · simp

theorem verifyMint_relational {cfg : Cfg} {m : Mint} {root : Bool} {items : Items} (hm : MintOk m)
    (hitems : Items.Word items) (hshort : ∀ b, m.data = some b → Short b) :
    (verifyMint H cfg m root items).FailsOnly Relational := by
  obtain ⟨x, hx⟩ := hm.pred
  refine (Res.failsOnly_refuse (by decide)).bind fun _ _ => ?_
  refine (Res.failsOnly_of_eq_ok hx).bind fun ⟨typ, _⟩ _ => ?_
  refine (Res.failsOnly_refuse (by decide)).bind fun _ _ => ?_
  refine (Res.failsOnly_refuse (by decide)).bind fun _ _ => ?_
  refine (mintNonce_relational hitems).bind fun _ _ => ?_
  refine (Res.failsOnly_okOr (by decide)).bind fun data hdata => ?_
  rw [Res.okOr_eq_ok] at hdata
  exact (mintData_relational hitems (hshort data hdata)).bind fun _ _ => by simp

/-- A verified mint has data, an amount that fits a word and, for a root, a nonce. -/
theorem verifyMint_ok {cfg : Cfg} {m : Mint} {root : Bool} {items : Items} {n : Option Nat}
    {amt : Bytes} (h : verifyMint H cfg m root items = .ok (n, amt)) :
    amt.length ≤ 32 ∧ n.isSome = root ∧ m.data.isSome = true := by
  simp only [verifyMint, Res.bind_eq_ok, Res.okOr_eq_ok, Res.pure_eq_ok,
    Prod.mk.injEq] at h
  obtain ⟨_, -, _, -, _, -, _, -, n', hn, data, hdata, amt', hamt, rfl, rfl⟩ := h
  refine ⟨mintData_length hamt, ?_, by simp [hdata]⟩
  unfold mintNonce at hn
  cases root with
  | true =>
    simp only [if_true, Res.bind_eq_ok, Res.pure_eq_ok] at hn
    obtain ⟨_, -, rfl⟩ := hn
    rfl
  | false =>
    simp only [Bool.false_eq_true, if_false, Except.ok.injEq] at hn
    simp [← hn]

/-! ## Transitions -/

theorem cd_quiet {it : Item} (h : Scanned it) : Quiet (cd it) := by
  refine (h.tagged_quiet 6 39031 2).bind fun a ha => ?_
  refine (predicate_quiet (h.tagged (by omega) ha 1 (by omega))).bind fun _ _ => ?_
  refine (Cbor.bytes_quiet _ _).bind fun _ _ => ?_
  refine (Cbor.bytes_quiet _ _).bind fun _ _ => ?_
  refine (deadline_quiet _).bind fun _ _ => ?_
  exact (Cbor.blob_quiet _ _).bind fun _ _ => by simp

theorem cd_pred {it : Item} (h : Scanned it) {c : Cd} (hc : cd it = .ok c) : Scanned c.pred := by
  simp only [cd, Res.bind_eq_ok, Res.pure_eq_ok] at hc
  obtain ⟨a, ha, _, -, _, -, _, -, _, -, _, -, rfl⟩ := hc
  exact h.tagged (by omega) ha 1 (by omega)

theorem cdStrict_quiet {it : Item} (h : Scanned it) : Quiet (cdStrict K it) := by
  refine (cd_quiet h).bind fun c hc => ?_
  exact (predStrict_quiet (cd_pred h hc)).bind fun _ _ => by simp

theorem transfer_quiet {it : Item} (h : Scanned it) : Quiet (transfer it) := by
  refine (h.tagged_quiet 5 39045 2).bind fun a ha => ?_
  refine (predicate_quiet (h.tagged (by omega) ha 1 (by omega))).bind fun _ _ => ?_
  refine (Cbor.bytes_quiet _ _).bind fun _ _ => ?_
  refine (nullable_quiet _).bind fun _ _ => ?_
  exact (deadline_quiet _).bind fun _ _ => by simp

/-- What later steps know of a decoded transaction. -/
structure TxOk (it : Item) (tx : Tx) : Prop where
  pred : Scanned tx.pred
  raw : tx.raw = it.raw
  mask : tx.mask.length = 32
  data : ∀ b, tx.data = some b → b.length ≤ it.raw.length

theorem transfer_ok {it : Item} (h : Scanned it) {tx : Tx} (htx : transfer it = .ok tx) :
    TxOk it tx := by
  simp only [transfer, Res.bind_eq_ok, Res.pure_eq_ok] at htx
  obtain ⟨a, ha, _, -, mask, hmask, d, hd, _, -, rfl⟩ := htx
  have hlen := ((h.tagged (by omega) ha 2 (by omega)).bytes_length hmask).1
  refine ⟨h.tagged (by omega) ha 1 (by omega), rfl, hlen, fun b hb => ?_⟩
  rw [nullable_eq_ok hd hb]
  have hfield := h.tagged (by omega) ha 3 (by omega)
  exact (hfield.data_lt.trans (h.tagged_raw_lt (by omega) ha 3 (by omega))).le

theorem transferStrict_quiet {it : Item} (h : Scanned it) : Quiet (transferStrict K it) := by
  refine (transfer_quiet h).bind fun tx htx => ?_
  exact (predStrict_quiet (transfer_ok h htx).pred).bind fun _ _ => by simp

theorem transferStrict_ok {it : Item} {tx : Tx} (htx : transferStrict K it = .ok tx) :
    transfer it = .ok tx := by
  simp only [transferStrict, Res.bind_eq_ok, Res.pure_eq_ok] at htx
  obtain ⟨_, h, _, -, rfl⟩ := htx
  exact h

theorem unlock_relational (k : K.VerifyingKey) (source tx u : Bytes) : (unlock H K k source tx u).FailsOnly Relational := by
  refine (Res.failsOnly_refuse (by decide)).bind fun _ hlen => ?_
  rw [Res.refuse_eq_ok, not_not] at hlen
  refine (Res.failsOnly_okOr (by decide)).bind fun _ _ => ?_
  refine (Res.failsOnly_refuse (by decide)).bind fun _ _ => ?_
  refine (Res.failsOnly_index (by omega)).bind fun _ _ => ?_
  refine (Res.failsOnly_okOr (by decide)).bind fun _ _ => ?_
  refine (Res.failsOnly_okOr (by decide)).bind fun _ _ => ?_
  refine (Res.failsOnly_refuse (by decide)).bind fun _ _ => ?_
  exact Res.failsOnly_refuse (by decide)

theorem step_relational (pred : Bytes) (source : Bytes32) (raw : Bytes) (e : Option Nat) (cd : Cd) (t : Nat)
    (k : K.VerifyingKey) (seen : List Bytes32) : (step H K pred source raw e cd t k seen).FailsOnly Relational := by
  refine (Res.failsOnly_refuse (by decide)).bind fun _ _ => ?_
  refine (Res.failsOnly_refuse (by decide)).bind fun _ _ => ?_
  refine (unlock_relational k _ _ _).bind fun _ _ => ?_
  refine (Res.failsOnly_refuse (by decide)).bind fun _ _ => ?_
  refine Res.FailsOnly.bind ?_ fun _ _ => by simp
  exact (Res.failsOnly_refuse (by decide)).bind fun _ _ => by simp

/-- `leaves` extend the state IDs seen so far by new ones, in order. -/
def Fresh (seen : List Bytes32) (leaves : List Leaf) (seen' : List Bytes32) : Prop :=
  seen' = (leaves.map (·.sid)).reverse ++ seen ∧ (seen.Nodup → seen'.Nodup)

theorem Fresh.nil (seen : List Bytes32) : Fresh seen [] seen := ⟨by simp, id⟩

theorem Fresh.append {seen seen' seen'' : List Bytes32} {l l' : List Leaf} (h : Fresh seen l seen')
    (h' : Fresh seen' l' seen'') : Fresh seen (l ++ l') seen'' := by
  obtain ⟨rfl, hn⟩ := h
  obtain ⟨rfl, hn'⟩ := h'
  exact ⟨by simp, fun hs => hn' (hn hs)⟩

theorem step_fresh {pred : Bytes} {source : Bytes32} {raw : Bytes} {e : Option Nat} {cd : Cd} {t : Nat}
    {k : K.VerifyingKey} {seen seen' : List Bytes32} {leaf : Leaf}
    (h : step H K pred source raw e cd t k seen = .ok (leaf, seen')) : Fresh seen [leaf] seen' := by
  simp only [step, insertSid, Res.bind_eq_ok, Res.refuse_eq_ok, exists_const, Res.pure_eq_ok, Prod.mk.injEq] at h
  obtain ⟨-, -, _, -, -, _, ⟨hnew, rfl⟩, rfl, rfl⟩ := h
  exact ⟨by simp, fun hs => List.nodup_cons.mpr ⟨hnew, hs⟩⟩

theorem mintLeaf_relational (id : Bytes32) (raw : Bytes) (e : Option Nat) (cd0 : Cd) (t0 : Nat)
    (seen : List Bytes32) : (mintLeaf H K id raw e cd0 t0 seen).FailsOnly Relational :=
  (Res.failsOnly_okOr (by decide)).bind fun _ _ => step_relational _ _ _ _ _ _ _ _

theorem mintLeaf_fresh {id : Bytes32} {raw : Bytes} {e : Option Nat} {cd0 : Cd} {t0 : Nat}
    {seen seen' : List Bytes32} {leaf : Leaf}
    (h : mintLeaf H K id raw e cd0 t0 seen = .ok (leaf, seen')) : Fresh seen [leaf] seen' := by
  simp only [mintLeaf, Res.bind_eq_ok] at h
  obtain ⟨_, -, h⟩ := h
  exact step_fresh h

theorem spend_relational {owner : Item} {x : Nat × Bytes} (h : predicate owner = .ok x)
    (state : Bytes32) (tr : Transfer) (seen : List Bytes32) :
    (spend H K owner state tr seen).FailsOnly Relational := by
  refine (Res.failsOnly_of_eq_ok h).bind fun ⟨_, params⟩ _ => ?_
  exact (key_relational params).bind fun _ _ => step_relational _ _ _ _ _ _ _ _

theorem spend_fresh {owner : Item} {state : Bytes32} {tr : Transfer} {seen seen' : List Bytes32}
    {leaf : Leaf} (h : spend H K owner state tr seen = .ok (leaf, seen')) : Fresh seen [leaf] seen' := by
  simp only [spend, Res.bind_eq_ok] at h
  obtain ⟨_, -, _, -, h⟩ := h
  exact step_fresh h

theorem interior_relational {tx : Tx} {x : Nat × Bytes} (h : predicate tx.pred = .ok x) :
    (interior K tx).FailsOnly Relational := by
  refine (Res.failsOnly_of_eq_ok h).bind fun ⟨typ, p⟩ _ => ?_
  refine (Res.failsOnly_refuse (by decide)).bind fun _ _ => ?_
  refine (key_relational p).bind fun _ _ => ?_
  exact Res.failsOnly_refuse (by decide)

theorem burn_relational {cfg : Cfg} {amt : Bytes32} {tx : Tx} {items : Items} (hpred : Scanned tx.pred)
    (hitems : Items.Word items) (hdata : ∀ b, tx.data = some b → Short b) :
    (burn H cfg amt tx items).FailsOnly Relational := by
  have hinner : Quiet (burnInner H cfg amt tx items) := by
    refine (predicate_quiet hpred).bind fun ⟨typ, params⟩ _ => ?_
    refine (Res.failsOnly_refuse (by simp)).bind fun _ _ => ?_
    refine (Res.failsOnly_okOr (by simp)).bind fun data hd => ?_
    rw [Res.okOr_eq_ok] at hd
    refine (Cbor.one_quiet hitems data (hdata data hd).room).bind fun it hit => ?_
    have hscan := Cbor.scanned_of_one hitems hit
    refine (hscan.tagged_quiet 11 39048 1).bind fun r hr => ?_
    refine (Cbor.uint_quiet _ _).bind fun _ _ => ?_
    refine (Res.failsOnly_refuse (by simp)).bind fun _ _ => ?_
    refine (Cbor.bytes_quiet _ _).bind fun _ _ => ?_
    refine (Res.failsOnly_refuse (by simp)).bind fun _ _ => ?_
    refine (Cbor.bytes_quiet _ _).bind fun _ _ => ?_
    refine (Res.failsOnly_refuse (by simp)).bind fun _ _ => ?_
    refine (Cbor.bytes_quiet _ _).bind fun _ _ => ?_
    refine (Res.failsOnly_refuse (by simp)).bind fun _ _ => ?_
    refine (Cbor.bytes_quiet _ _).bind fun _ _ => ?_
    refine (Res.failsOnly_refuse (by simp)).bind fun _ _ => ?_
    refine (Cbor.bytes_quiet _ _).bind fun r6 hr6 => ?_
    obtain ⟨hlen, -⟩ := (hscan.tagged (by omega) hr 6 (by omega)).bytes_length hr6
    refine (Res.failsOnly_mapErr (amount_quiet _).noPanic fun _ => by simp).bind fun a ha => ?_
    rw [Res.mapErr_eq_ok] at ha
    refine (failsOnly_word (amount_eq_ok ha).2.1).bind fun _ _ => ?_
    refine (Res.failsOnly_refuse (by simp)).bind fun _ _ => ?_
    refine (Cbor.bytes_quiet _ _).bind fun _ _ => ?_
    refine (Res.failsOnly_refuse (by simp)).bind fun _ _ => ?_
    refine (Cbor.bytes_quiet _ _).bind fun _ _ => ?_
    refine (Res.failsOnly_refuse (by simp)).bind fun _ _ => ?_
    refine (Cbor.uint_quiet _ _).bind fun _ _ => ?_
    refine (Res.failsOnly_refuse (by simp)).bind fun _ _ => ?_
    refine (Res.failsOnly_refuse (by simp)).bind fun _ _ => ?_
    refine (Res.failsOnly_refuse (by simp)).bind fun _ _ => ?_
    exact Res.failsOnly_unwrap (Fixed.ofBytes?_eq_some.mpr (show r6 = (⟨r6, hlen⟩ : Fixed 20).val from rfl))
  rcases hinner.cases with ⟨v, hv⟩ | ⟨e, he, hv⟩
  · rw [burn, hv]
    simp [Res.mapErr]
  · rw [burn, hv]
    change Relational (if e.isInvalid then e else .returnData)
    split
    next hinvalid => exact .inl hinvalid
    next => decide

/-! ## Decoded histories -/

/-- What later steps know of a decoded transfer. -/
structure TransferOk (tr : Transfer) : Prop where
  scanned : Scanned tr.tx.pred
  pred : ∃ x, predicate tr.tx.pred = .ok x
  item : ∃ it, Scanned it ∧ transfer it = .ok tr.tx

theorem decodeTuple_quiet {it : Item} (h : Scanned it) : Quiet (decodeTuple K it) := by
  refine (h.array_quiet 3).bind fun a ha => ?_
  refine (transferStrict_quiet (h.array ha 0 (by omega))).bind fun _ _ => ?_
  refine (cdStrict_quiet (h.array ha 1 (by omega))).bind fun _ _ => ?_
  exact (Cbor.uint_quiet _ _).bind fun _ _ => by simp

theorem decodeTuple_ok {it : Item} (h : Scanned it) {tr : Transfer}
    (htr : decodeTuple K it = .ok tr) :
    ∃ a, it.array 3 = .ok a ∧ transfer a[0] = .ok tr.tx ∧ Scanned a[0] ∧ TransferOk tr := by
  simp only [decodeTuple, Res.bind_eq_ok, Res.pure_eq_ok] at htr
  obtain ⟨a, ha, tx, htx, _, -, _, -, rfl⟩ := htr
  have hscan := h.array ha 0 (by omega)
  have htr := transferStrict_ok htx
  refine ⟨a, ha, htr, hscan, (transfer_ok hscan htr).pred, ?_, _, hscan, htr⟩
  simp only [transferStrict, Res.bind_eq_ok, Res.pure_eq_ok] at htx
  obtain ⟨_, -, _, hpred, rfl⟩ := htx
  exact predStrict_ok hpred

/-- What later steps know of a decoded history. -/
structure HistoryOk (h : History) : Prop where
  mint : MintOk h.mint
  mintItem : Scanned h.mintItem
  mintFields : h.mintItem.tagged 8 39041 2 = .ok h.mint.fields
  count : h.transfers.length = h.count
  transfers : ∀ tr ∈ h.transfers, TransferOk tr

theorem HistoryOk.transfers_ne_nil {h : History} (hh : HistoryOk h) (hcount : h.count ≠ 0) :
    h.transfers ≠ [] := by
  intro hnil
  have hlen := hh.count
  rw [hnil, List.length_nil] at hlen
  exact hcount hlen.symm

theorem decodeFields_quiet {payload : Item} (hp : Scanned payload) (maxTransfers : Nat) :
    Quiet (decodeFields K payload maxTransfers) := by
  refine (hp.array_quiet 2).bind fun h hh => ?_
  have h0 := hp.array hh 0 (by omega)
  have h1 := hp.array hh 1 (by omega)
  refine (h0.array_quiet 3).bind fun g hg => ?_
  refine (Cbor.count_quiet _ _).bind fun count hcount => ?_
  refine (decodeMint_quiet (h0.array hg 0 (by omega))).bind fun _ _ => ?_
  refine (cdStrict_quiet (h0.array hg 1 (by omega))).bind fun _ _ => ?_
  refine (Cbor.uint_quiet _ _).bind fun _ _ => ?_
  obtain ⟨kids, hkids, hall, -, -⟩ := h1.count_children hcount
  rw [hkids, Res.bind_ok]
  exact (Res.failsOnly_collect fun k hk => decodeTuple_quiet (hall k hk)).bind fun _ _ => by simp

theorem decodeFields_ok {payload : Item} (hp : Scanned payload) {maxTransfers : Nat} {hist : History}
    (h : decodeFields K payload maxTransfers = .ok hist) : HistoryOk hist := by
  simp only [decodeFields, Res.bind_eq_ok, Res.pure_eq_ok] at h
  obtain ⟨h, hh, g, hg, count, hcount, mint, hmint, _, -, _, -, kids, hkids, transfers, htr, rfl⟩ := h
  have h0 := hp.array hh 0 (by omega)
  have h1 := hp.array hh 1 (by omega)
  have hg0 := h0.array hg 0 (by omega)
  obtain ⟨kids', hkids', hall, hlen, -⟩ := h1.count_children hcount
  rw [hkids, Except.ok.injEq] at hkids'
  subst hkids'
  refine ⟨(decodeMint_ok hg0 hmint).1, hg0, (decodeMint_ok hg0 hmint).2.1, ?_, ?_⟩
  · rw [← hlen]
    exact Res.collect_length htr
  · intro tr hmem
    obtain ⟨k, hk, hdec⟩ := Res.mem_of_collect htr hmem
    obtain ⟨_, -, -, -, hok⟩ := decodeTuple_ok (hall k hk) hdec
    exact hok

/-- The justification and the data of a decoded history are part of its bytes. -/
theorem decodeFields_data_lt {payload : Item} (hp : Scanned payload) {maxTransfers : Nat}
    {hist : History} (h : decodeFields K payload maxTransfers = .ok hist) {b : Bytes}
    (hb : (hist.mint.justification = some b ∨ hist.mint.data = some b) ∨
      ∃ tr ∈ hist.transfers, tr.tx.data = some b) : b.length < payload.raw.length := by
  simp only [decodeFields, Res.bind_eq_ok, Res.pure_eq_ok] at h
  obtain ⟨v, hv, g, hg, count, hcount, mint, hmint, _, -, _, -, kids, hkids, trs, htrs, rfl⟩ := h
  have h0 := hp.array hv 0 (by omega)
  have h1 := hp.array hv 1 (by omega)
  rcases hb with hb | ⟨tr, htr, hb⟩
  · have hg0 := h0.array hg 0 (by omega)
    obtain ⟨hok, hfields, -⟩ := decodeMint_ok hg0 hmint
    obtain ⟨i, hi, rfl⟩ := hok.short b hb
    calc mint.fields[i].data.length
        < mint.fields[i].raw.length := (hok.fields i hi).data_lt
      _ < g[0].raw.length := hg0.tagged_raw_lt (by omega) hfields i hi
      _ < v[0].raw.length := h0.array_raw_lt hg 0 (by omega)
      _ < payload.raw.length := hp.array_raw_lt hv 0 (by omega)
  · obtain ⟨k, hk, hdec⟩ := Res.mem_of_collect htrs htr
    have hmajor : v[1].major = 4 := by
      simp only [Cbor.Item.count, Res.bind_eq_ok, Res.refuse_eq_ok, not_not, exists_const] at hcount
      exact hcount.1
    obtain ⟨kids', hkids', hall, -⟩ := h1.count_children hcount
    rw [hkids, Except.ok.injEq] at hkids'
    subst hkids'
    have hscan := hall k hk
    obtain ⟨a, ha, htx, hscan0, -⟩ := decodeTuple_ok hscan hdec
    calc b.length
        ≤ a[0].raw.length := (transfer_ok hscan0 htx).data b hb
      _ < k.raw.length := hscan.array_raw_lt ha 0 (by omega)
      _ < v[1].raw.length := h1.children_raw_lt hmajor hkids hk
      _ < payload.raw.length := hp.array_raw_lt hv 1 (by omega)

end Semantics

end Ureth.Source.B2
