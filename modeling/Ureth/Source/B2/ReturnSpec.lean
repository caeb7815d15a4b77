import Ureth.Source.B2.Kernel
import Ureth.Source.B2.LineageSpec

/-!
# The two evaluations of an unsplit redemption

`relation` evaluates a history in one pass, in which the last transfer is the
return burn. The lineage relation verifies the same history as its only level and
looks at the terminal transfer afterwards. Both succeed exactly if there is a
`Redemption` of the decoded history, except that the lineage also bounds the
items of the history.
-/

namespace Ureth.Source.B2
open Ureth.Foundation
open Ureth.Foundation.Cbor (Value)
open Cbor (Item Items)
open Ureth.Source.B1.Cbor (usizeMax usizeMax_lt Scannable)

section Return

variable {H : Bytes → Bytes32} {K : K256}

/-- Everything both evaluations establish of a decoded history with transfers. -/
structure Redemption (H : Bytes → Bytes32) (K : K256) (cfg : Cfg) (h : History) where
  nonce : Nat
  amt : Bytes
  base : Outcome
  first : Leaf
  seen : List Bytes32
  rest : List Leaf
  seenAfter : List Bytes32
  last : Transfer
  lastLeaf : Leaf
  releaseTo : Fixed 20
  mint_ok : verifyMint H cfg h.mint true .default = .ok (some nonce, amt)
  base_ok : derive H K cfg nonce amt h.mint.fields[2] = .ok base
  first_ok : mintLeaf H K base.tokenId h.mintItem.raw h.mint.deadline h.cd0 h.t0 [] = .ok (first, seen)
  rest_ok : levelTransfers H K h.transfers h.mint.fields[2]
    (outputState H (mintSource H base.tokenId) base.tokenId.val) seen = .ok (rest, seenAfter)
  last_eq : h.transfers.getLast? = some last
  lastLeaf_eq : rest.getLast? = some lastLeaf
  burn_ok : burn H cfg base.amount last.tx .default = .ok releaseTo
  nullifier_ne : nullifierOf H base.cfg lastLeaf ≠ .zero 32

/-- The outcome of the one-pass evaluation. -/
def Redemption.outcome {cfg : Cfg} {h : History} (r : Redemption H K cfg h) : Outcome :=
  { r.base with
    releaseTo := r.releaseTo
    nullifier := nullifierOf H r.base.cfg r.lastLeaf
    leaves := r.first :: r.rest }

/-! ## The one-pass evaluation -/

theorem terminal_ok {cfg : Cfg} {items : Items} {out out' : Outcome} {leaf : Leaf} {tx : Tx} :
    terminal H cfg items out leaf tx = .ok out' ↔
      ∃ releaseTo, burn H cfg out.amount tx items = .ok releaseTo ∧
        nullifierOf H out.cfg leaf ≠ .zero 32 ∧
        out' = { out with releaseTo, nullifier := nullifierOf H out.cfg leaf } := by
  simp only [terminal, Res.bind_eq_ok, Res.refuse_eq_ok, exists_const, Res.pure_eq_ok]
  exact exists_congr fun releaseTo => and_congr_right fun _ => and_congr_right fun _ => eq_comm

/-- The transfers of a return: the leaves are those of a level, and the last
transfer is the return burn. -/
theorem evaluateTransfers_ok {cfg : Cfg} {items : Items} (trs : List Transfer) (owner : Item)
    (state : Bytes32) (seen : List Bytes32) (out o : Outcome) (hne : trs ≠ []) :
    evaluateTransfers H K cfg items trs owner state seen out = .ok o ↔
      ∃ leaves seen' tr leaf releaseTo, levelTransfers H K trs owner state seen = .ok (leaves, seen') ∧
        trs.getLast? = some tr ∧ leaves.getLast? = some leaf ∧
        burn H cfg out.amount tr.tx items = .ok releaseTo ∧ nullifierOf H out.cfg leaf ≠ .zero 32 ∧
        o = { out with releaseTo, nullifier := nullifierOf H out.cfg leaf,
                       leaves := out.leaves ++ leaves } := by
  induction trs generalizing owner state seen out with
  | nil => exact absurd rfl hne
  | cons tr rest ih =>
    by_cases hrest : rest = []
    · subst hrest
      simp only [evaluateTransfers, levelTransfers, if_true, Res.bind_eq_ok, terminal_ok,
        Res.pure_eq_ok, Except.ok.injEq, Prod.mk.injEq, Res.bind_ok, List.getLast?_singleton,
        Option.some.injEq]
      constructor
      · rintro ⟨⟨leaf, seen'⟩, hspend, _, ⟨releaseTo, hburn, hnull, rfl⟩, rfl⟩
        exact ⟨[leaf], seen', tr, leaf, releaseTo, ⟨_, hspend, rfl, rfl⟩, rfl, rfl, hburn, hnull, rfl⟩
      · rintro ⟨leaves, seen', tr', leaf, releaseTo, ⟨⟨leaf', seen1⟩, hspend, rfl, rfl⟩, rfl, hleaf,
          hburn, hnull, rfl⟩
        obtain rfl : leaf' = leaf := by simpa using hleaf
        exact ⟨_, hspend, _, ⟨releaseTo, hburn, hnull, rfl⟩, rfl⟩
    · have hlast : ∀ x : Transfer, (x :: rest).getLast? = rest.getLast? := by
        intro x
        cases rest with
        | nil => exact absurd rfl hrest
        | cons y ys => rw [List.getLast?_cons_cons]
      simp only [evaluateTransfers, levelTransfers, if_neg hrest, Res.bind_eq_ok, Res.pure_eq_ok, Prod.mk.injEq, hlast]
      constructor
      · rintro ⟨⟨leaf, seen1⟩, hspend, _, ⟨_, hint, rfl⟩, hrun⟩
        obtain ⟨leaves, seen', tr', leaf', releaseTo, hlevel, htr, hleaf, hburn, hnull, rfl⟩ :=
          (ih _ _ _ _ hrest).mp hrun
        refine ⟨leaf :: leaves, seen', tr', leaf', releaseTo, ⟨_, hspend, _, hint, _, hlevel, rfl, rfl⟩,
          htr, ?_, hburn, hnull, ?_⟩
        · cases leaves with
          | nil => simp at hleaf
          | cons y ys => rwa [List.getLast?_cons_cons]
        · simp
      · rintro ⟨_, seen', tr', leaf', releaseTo, ⟨⟨leaf, seen1⟩, hspend, _, hint, ⟨leaves, seen2⟩, hlevel,
          rfl, rfl⟩, htr, hleaf, hburn, hnull, rfl⟩
        have hne' : leaves ≠ [] := by
          have := (levelTransfers_ok hlevel).1
          rintro rfl
          exact hrest (List.length_eq_zero_iff.mp this.symm)
        refine ⟨_, hspend, _, ⟨_, hint, rfl⟩, ?_⟩
        refine (ih _ _ _ _ hrest).mpr ⟨leaves, seen2, tr', leaf', releaseTo, hlevel, htr, ?_, hburn, hnull,
          ?_⟩
        · cases leaves with
          | nil => exact absurd rfl hne'
          | cons y ys => rwa [List.getLast?_cons_cons] at hleaf
        · simp

/-- The one-pass evaluation of a history with transfers. -/
theorem evaluate_return {cfgItem payload : Item} (hp : Cbor.Scanned payload) {o : Outcome} :
    evaluate H K 2 cfgItem payload u64Max .default = .ok o ↔
      ∃ cfg h, Cfg.parse H cfgItem = .ok cfg ∧ decodeFields K payload u64Max = .ok h ∧ h.count ≠ 0 ∧
        ∃ r : Redemption H K cfg h, o = r.outcome := by
  have hne : ∀ h, decodeFields K payload u64Max = .ok h → h.count ≠ 0 → h.transfers ≠ [] :=
    fun h hdec hcount => (decodeFields_ok hp hdec).transfers_ne_nil hcount
  simp only [evaluate, show ¬ (2 : Nat) = 0 by decide, if_false, show ¬ (2 : Nat) = 1 by decide,
    false_and, true_and, Res.bind_eq_ok, Res.refuse_eq_ok, not_false_eq_true, exists_const,
    Res.unwrap_eq_ok]
  constructor
  · rintro ⟨cfg, hcfg, h, hdec, hcount, ⟨n, amt⟩, hmint, nonce, rfl, base, hbase, ⟨first, seen⟩, hfirst,
      hrun⟩
    obtain ⟨rest, seen', tr, leaf, releaseTo, hrest, htr, hleaf, hburn, hnull, rfl⟩ :=
      (evaluateTransfers_ok _ _ _ _ _ _ (hne h hdec hcount)).mp hrun
    exact ⟨cfg, h, hcfg, hdec, hcount, ⟨nonce, amt, base, first, seen, rest, seen', tr, leaf, releaseTo,
      hmint, hbase, hfirst, hrest, htr, hleaf, hburn, hnull⟩, rfl⟩
  · rintro ⟨cfg, h, hcfg, hdec, hcount, r, rfl⟩
    refine ⟨cfg, hcfg, h, hdec, hcount, _, r.mint_ok, r.nonce, rfl, r.base, r.base_ok, _, r.first_ok, ?_⟩
    exact (evaluateTransfers_ok _ _ _ _ _ _ (hne h hdec hcount)).mpr ⟨r.rest, r.seenAfter, r.last,
      r.lastLeaf, r.releaseTo, r.rest_ok, r.last_eq, r.lastLeaf_eq, r.burn_ok, r.nullifier_ne, rfl⟩

theorem parseCfg_ok {cfgBytes : Bytes} {cfg : Cfg} :
    parseCfg H cfgBytes = .ok cfg ↔
      ∃ it, Cbor.one cfgBytes .default = .ok it ∧ checkCfgNetwork it = .ok () ∧
        Cfg.parse H it = .ok cfg := by
  simp only [parseCfg, Res.bind_eq_ok]
  constructor
  · rintro ⟨it, hit, _, hnet, hcfg⟩
    exact ⟨it, hit, hnet, hcfg⟩
  · rintro ⟨it, hit, hnet, hcfg⟩
    exact ⟨it, hit, (), hnet, hcfg⟩

/-- The transfers of a decoded history are those its scan counts. -/
theorem transferCount_of_decodeFields {history : Bytes} {p : Item} {h : History}
    (hp : Cbor.one history (.perObject usizeMax) = .ok p) (hdec : decodeFields K p u64Max = .ok h) :
    transferCount history = .ok h.count := by
  simp only [decodeFields, Res.bind_eq_ok, Res.pure_eq_ok] at hdec
  obtain ⟨v, hv, _, -, count, hcount, _, -, _, -, _, -, _, -, _, -, rfl⟩ := hdec
  simp only [transferCount, Res.bind_eq_ok]
  exact ⟨p, hp, v, hv, hcount⟩

/-- `relation` with a charge that never refuses, on a history with transfers. -/
theorem relation_return {cfgBytes history : Bytes} {o : Outcome} :
    relation H K 2 cfgBytes history (fun _ => .ok ()) = .ok o ↔
      ∃ cfg p h, parseCfg H cfgBytes = .ok cfg ∧ Cbor.one history (.perObject usizeMax) = .ok p ∧
        decodeFields K p u64Max = .ok h ∧ h.count ≠ 0 ∧ ∃ r : Redemption H K cfg h, o = r.outcome := by
  simp only [relation, Res.bind_eq_ok, leafCount, show ¬ (2 : Nat) = 0 by decide, if_false]
  constructor
  · rintro ⟨it, hit, _, hnet, p, hp, _, -, _, -, heval⟩
    have hscan := Cbor.scanned_of_one usizeMax_lt hp
    obtain ⟨cfg, h, hcfg, hdec, hcount, r, rfl⟩ := (evaluate_return hscan).mp heval
    exact ⟨cfg, p, h, parseCfg_ok.mpr ⟨it, hit, hnet, hcfg⟩, hp, hdec, hcount, r, rfl⟩
  · rintro ⟨cfg, p, h, hcfg, hp, hdec, hcount, r, rfl⟩
    obtain ⟨it, hit, hnet, hcfg⟩ := parseCfg_ok.mp hcfg
    have hscan := Cbor.scanned_of_one usizeMax_lt hp
    have htc := transferCount_of_decodeFields hp hdec
    have hlt := transferCount_lt htc
    simp only [transferCount, Res.bind_eq_ok] at htc
    obtain ⟨p', hp', v, hv, hc⟩ := htc
    obtain rfl : p = p' := Except.ok.inj (hp.symm.trans hp')
    exact ⟨it, hit, (), hnet, p, hp, _, ⟨v, hv, _, hc, Res.u64_of_lt hlt⟩, (), trivial,
      (evaluate_return hscan).mpr ⟨cfg, h, hcfg, hdec, hcount, r, rfl⟩⟩

/-! ## The lineage of depth zero -/

/-- The root's level, as far as the relation looks at it. -/
structure RootLevel (H : Bytes → Bytes32) (K : K256) (cfg : Cfg) (h : History) (base : Outcome)
    (lv : Verified) where
  nonce : Nat
  amt : Bytes
  first : Leaf
  seen : List Bytes32
  rest : List Leaf
  seenAfter : List Bytes32
  mint_ok : verifyMint H cfg h.mint true .default = .ok (some nonce, amt)
  base_ok : derive H K cfg nonce amt h.mint.fields[2] = .ok base
  first_ok : mintLeaf H K base.tokenId h.mintItem.raw h.mint.deadline h.cd0 h.t0 [] = .ok (first, seen)
  rest_ok : levelTransfers H K h.transfers h.mint.fields[2]
    (outputState H (mintSource H base.tokenId) base.tokenId.val) seen = .ok (rest, seenAfter)
  last_eq : (first :: rest).getLast? = some lv.last
  id_eq : lv.id = base.tokenId
  amount_eq : lv.amount = base.amount
  base_eq : lv.base = some base
  leaves_eq : lv.leaves = first :: rest

theorem level_root_ok {cfg : Cfg} {history : Bytes} {lv : Verified} {seen' : List Bytes32}
    (hlevel : level H K cfg history true [] .default = .ok (lv, seen')) :
    ∃ p h base, Cbor.one history .default = .ok p ∧ decodeFields K p u64Max = .ok h ∧ h.count ≠ 0 ∧
      Nonempty (RootLevel H K cfg h base lv) := by
  simp only [level, Res.bind_eq_ok, Res.refuse_eq_ok, exists_const, Res.unwrap_eq_ok, Res.pure_eq_ok, Prod.mk.injEq] at hlevel
  obtain ⟨p, hp, h, hdec, hcount, ⟨n, amt⟩, hmint, ⟨id, base?⟩, hid, amount, hamount, ⟨first, seen⟩,
    hfirst, ⟨rest, seen2⟩, hrest, last, hlast, salt, -, ty, -, data, -, rfl, rfl⟩ := hlevel
  obtain ⟨nonce, rfl⟩ : ∃ nonce, n = some nonce :=
    Option.isSome_iff_exists.mp ((verifyMint_ok hmint).2.1)
  simp only [levelIdentity, Res.bind_eq_ok, Res.pure_eq_ok, Prod.mk.injEq] at hid
  obtain ⟨base, hbase, rfl, rfl⟩ := hid
  have hword := (derive_eq_ok hbase).1
  rw [hamount, Except.ok.injEq] at hword
  exact ⟨p, h, base, hp, hdec, hcount, ⟨nonce, amt, first, seen, rest, seen2, hmint, hbase, hfirst,
    hrest, hlast, rfl, hword, rfl, rfl⟩⟩

theorem level_root_of {cfg : Cfg} {history : Bytes} {p : Item} {h : History}
    (hp : Cbor.one history .default = .ok p) (hdec : decodeFields K p u64Max = .ok h)
    (hcount : h.count ≠ 0) (r : Redemption H K cfg h) :
    ∃ lv, level H K cfg history true [] .default = .ok (lv, r.seenAfter) ∧
      (r.first :: r.rest).getLast? = some lv.last ∧ lv.id = r.base.tokenId ∧
      lv.amount = r.base.amount ∧ lv.base = some r.base ∧ lv.leaves = r.first :: r.rest := by
  have hscan := Cbor.scanned_of_one items_default_word hp
  have hmint := (decodeFields_ok hscan hdec).mint
  obtain ⟨data, hdata⟩ : ∃ data, h.mint.data = some data :=
    Option.isSome_iff_exists.mp (verifyMint_ok r.mint_ok).2.2
  obtain ⟨last, hlast⟩ : ∃ last, (r.first :: r.rest).getLast? = some last :=
    ⟨_, List.getLast?_eq_some_getLast (by simp)⟩
  refine ⟨{ last, id := r.base.tokenId, amount := r.base.amount, base := some r.base,
            leaves := r.first :: r.rest, network := h.mint.fields[1].arg,
            recipient := h.mint.fields[2].raw, salt := ⟨_, hmint.salt⟩, ty := ⟨_, hmint.ty⟩, data }, ?_,
    hlast, rfl, rfl, rfl, rfl⟩
  simp only [level, Res.bind_eq_ok, Res.refuse_eq_ok, exists_const, Res.unwrap_eq_ok, Res.pure_eq_ok, Prod.mk.injEq]
  refine ⟨p, hp, h, hdec, hcount, _, r.mint_ok, (r.base.tokenId, some r.base), ?_, r.base.amount,
    (derive_eq_ok r.base_ok).1, _, r.first_ok, _, r.rest_ok, last, hlast, ⟨_, hmint.salt⟩, ?_,
    ⟨_, hmint.ty⟩, ?_, data, hdata, rfl, rfl⟩
  · simp only [levelIdentity, r.base_ok, Res.bind_ok, Res.pure_eq_ok]
  · simp
  · simp

/-- The terminal transaction is the last transfer's. -/
theorem terminalTx_of_decodeFields {history : Bytes} {p : Item} {h : History} {tr : Transfer}
    (hp : Cbor.one history (.perObject usizeMax) = .ok p) (hdec : decodeFields K p u64Max = .ok h)
    (hlast : h.transfers.getLast? = some tr) : terminalTx history = .ok tr.tx := by
  have hscan := Cbor.scanned_of_one usizeMax_lt hp
  simp only [decodeFields, Res.bind_eq_ok, Res.pure_eq_ok] at hdec
  obtain ⟨v, hv, _, -, count, hcount, _, -, _, -, _, -, kids, hkids, transfers, htrs, rfl⟩ := hdec
  obtain ⟨k, hk, htr⟩ := Res.getLast_of_collect htrs hlast
  obtain ⟨kids', hkids', hall, -, -⟩ := (hscan.array hv 1 (by omega)).count_children hcount
  obtain rfl : kids = kids' := Except.ok.inj (hkids.symm.trans hkids')
  obtain ⟨a, ha, htx, -, -⟩ := decodeTuple_ok (hall k (List.mem_of_getLast? hk)) htr
  simp only [terminalTx, Res.bind_eq_ok, Res.unwrap_eq_ok]
  exact ⟨p, hp, v, hv, kids, hkids, k, hk, a, ha, htx⟩

/-- The walk reads the justification the mint decodes to. -/
theorem mintJustification_of_decodeFields {history : Bytes} {p : Item} {h : History} {j : Bytes}
    (hp : Cbor.one history (.perObject usizeMax) = .ok p) (hdec : decodeFields K p u64Max = .ok h)
    (hj : h.mint.justification = some j) : mintJustification history = .ok j := by
  have hscan := Cbor.scanned_of_one usizeMax_lt hp
  simp only [decodeFields, Res.bind_eq_ok, Res.pure_eq_ok] at hdec
  obtain ⟨v, hv, g, hg, count, -, mint, hmint, _, -, _, -, kids, -, transfers, -, rfl⟩ := hdec
  have hg0 := (hscan.array hv 0 (by omega)).array hg 0 (by omega)
  obtain ⟨-, hfields, hnull, -⟩ := decodeMint_ok hg0 hmint
  simp only at hj
  rw [hj] at hnull
  have hblob : mint.fields[5].blob usizeMax = .ok j := by
    unfold nullable at hnull
    split at hnull
    · simp at hnull
    · simpa [Res.bind_eq_ok] using hnull
  simp only [mintJustification, Res.bind_eq_ok, Res.mapErr_eq_ok]
  exact ⟨p, hp, v, hv, g, hg, mint.fields, hfields, hblob⟩

/-- A lock reason starts with its tag. -/
theorem justificationTag_of_justification {cfg : Cfg} {j : Bytes} {n : Nat}
    (h : justification H cfg j .default = .ok n) : justificationTag j = some tagLock := by
  simp only [justification, Res.bind_eq_ok, Res.mapErr_eq_ok, Res.refuse_eq_ok, exists_const] at h
  obtain ⟨-, v, ⟨it, hit, hv⟩, -⟩ := h
  obtain ⟨t, hacc, rfl, rfl, hle⟩ := (Cbor.one_eq_ok items_default_word).mp hit
  have ht : Scannable t := hacc.scannable (lt_of_le_of_lt hle items_default_word)
  obtain ⟨ts, rfl, -⟩ := (Cbor.tagged_itemOf ht (by omega)).mp hv
  have hhead : Foundation.Cbor.head 6 39049 = [0xd9, 0x98, 0x89] := by decide
  rw [Value.encode, hhead]
  simp [justificationTag, tagLock, beNat]

/-- A root's mint checks read a lock reason. -/
theorem justificationTag_of_verifyMint {cfg : Cfg} {m : Mint} {n : Nat} {amt : Bytes}
    (h : verifyMint H cfg m true .default = .ok (some n, amt)) :
    ∃ j, m.justification = some j ∧ justificationTag j = some tagLock := by
  simp only [verifyMint, mintNonce, rootNonce, Res.bind_eq_ok, Res.refuse_eq_ok, exists_const,
    Res.okOr_eq_ok, Res.pure_eq_ok, Prod.mk.injEq, if_true] at h
  obtain ⟨-, _, -, -, -, _, ⟨_, ⟨j, hj, _, hjust, -⟩, -⟩, -⟩ := h
  exact ⟨j, hj, justificationTag_of_justification hjust⟩

/-! ### The mint of a redemption is short -/

theorem length_head_le (m n : Nat) : (Foundation.Cbor.head m n).length ≤ 9 := by
  unfold Foundation.Cbor.head
  repeat' split
  all_goals simp

theorem raw_length_le {it : Item} (h : Cbor.Scanned it) : it.raw.length ≤ it.data.length + 9 := by
  obtain ⟨t, -, rfl⟩ := h
  have := length_head_le t.major t.arg
  rw [Cbor.itemOf_raw, Cbor.itemOf_data, Value.encode_eq, List.length_append]
  omega

/-- An array of items of at most `b` bytes. -/
theorem array_length_le {it : Item} (h : Cbor.Scanned it) {n b : Nat} {v : FieldList Item n}
    (hv : it.array n = .ok v) (hb : ∀ i, i < n → v[i].raw.length ≤ b) :
    it.raw.length ≤ 9 + n * b := by
  obtain ⟨t, ht, rfl⟩ := h
  obtain ⟨ts, rfl, hlen, hfields⟩ := (Cbor.array_itemOf ht).mp hv
  have hsum : (ts.map fun t => t.encode.length).sum ≤ ts.length * b := by
    refine (List.sum_le_card_nsmul _ b ?_).trans (by simp)
    intro x hx
    obtain ⟨t, htmem, rfl⟩ := List.mem_map.mp hx
    obtain ⟨i, hi, rfl⟩ := List.getElem_of_mem htmem
    have hin : i < n := by omega
    have hbi := hb i hin
    have hget := FieldList.getElem_of_toList hfields i hin
    rw [List.getElem?_map, List.getElem?_eq_getElem hi, Option.map_some, Option.some.injEq] at hget
    rwa [← hget, Cbor.itemOf_raw] at hbi
  have := length_head_le 4 ts.length
  rw [Cbor.itemOf_raw, Value.length_encode_array]
  rw [hlen] at hsum
  omega

/-- A tagged array of items of at most `b` bytes. -/
theorem tagged_length_le {it : Item} (h : Cbor.Scanned it) {n b tag version : Nat} [NeZero n]
    {v : FieldList Item n} (hv : it.tagged n tag version = .ok v)
    (hb : ∀ i, i < n → v[i].raw.length ≤ b) : it.raw.length ≤ 18 + n * b := by
  obtain ⟨t, ht, rfl⟩ := h
  simp only [Cbor.Item.tagged, Res.bind_eq_ok, Res.refuse_eq_ok, exists_const, Res.pure_eq_ok, not_not] at hv
  obtain ⟨hmajor, -, inner, hinner, a, ha, -, -, -, rfl⟩ := hv
  cases t with
  | tag m u =>
    have hu : Scannable u := ht.kid (by simp)
    obtain rfl : inner = Cbor.itemOf u :=
      Except.ok.inj (hinner.symm.trans (Cbor.item_encode hu.fits.root))
    have hin := array_length_le ⟨u, hu, rfl⟩ ha hb
    have := length_head_le 6 m
    rw [Cbor.itemOf_raw] at hin ⊢
    rw [Value.length_encode_tag]
    omega
  | _ => simp at hmajor

theorem uint_length_le {it : Item} (h : Cbor.Scanned it) {max n : Nat} (hn : it.uint max = .ok n) :
    it.raw.length ≤ 9 := by
  have hraw := raw_length_le h
  obtain ⟨t, -, rfl⟩ := h
  obtain ⟨rfl, -⟩ := Cbor.uint_itemOf.mp hn
  exact hraw

theorem null_length_le {it : Item} (h : Cbor.Scanned it) (hn : it.null = true) : it.raw.length ≤ 9 := by
  have hraw := raw_length_le h
  obtain ⟨t, -, rfl⟩ := h
  obtain rfl := Cbor.null_itemOf.mp hn
  exact hraw

theorem blob_length_le {it : Item} (h : Cbor.Scanned it) {max : Nat} {b : Bytes}
    (hb : it.blob max = .ok b) : it.raw.length ≤ b.length + 9 := by
  have hraw := raw_length_le h
  obtain ⟨t, -, rfl⟩ := h
  obtain ⟨rfl, -⟩ := Cbor.blob_itemOf.mp hb
  exact hraw

/-- The version field of a tagged array. -/
theorem version_length_le {it : Item} (h : Cbor.Scanned it) {n tag version : Nat} [NeZero n]
    (hversion : version < 2 ^ 64) {v : FieldList Item n} (hv : it.tagged n tag version = .ok v)
    (h0 : 0 < n) : v[0].raw.length ≤ 9 := by
  have hv0 := h.tagged hversion hv 0 h0
  simp only [Cbor.Item.tagged, Res.bind_eq_ok, Res.refuse_eq_ok, exists_const, Res.pure_eq_ok] at hv
  obtain ⟨-, -, -, -, a, -, found, hfound, -, rfl⟩ := hv
  exact uint_length_le hv0 hfound

theorem predicate_length_le {it : Item} (h : Cbor.Scanned it) {typ : Nat} {params : Bytes}
    (hp : predicate it = .ok (typ, params)) : it.raw.length ≤ 200 := by
  simp only [predicate, Res.bind_eq_ok, Res.mapErr_eq_ok] at hp
  obtain ⟨a, ha, code, hcode, params', hparams, hp⟩ := hp
  have hlen : code.length ≤ 33 ∧ params'.length ≤ 33 := by
    split at hp
    next hc => simp [hc.1, hc.2.1]
    next =>
      split at hp
      next hc => simp [hc.1, hc.2]
      next => simp at hp
  have h0 := version_length_le h (by omega) ha (by omega)
  have h1 := blob_length_le (h.tagged (by omega) ha 1 (by omega)) hcode
  have h2 := blob_length_le (h.tagged (by omega) ha 2 (by omega)) hparams
  refine (tagged_length_le (b := 42) h ha ?_).trans (by omega)
  intro i hi
  obtain rfl | rfl | rfl : i = 0 ∨ i = 1 ∨ i = 2 := by omega
  all_goals omega

theorem mintData_length_le {cfg : Cfg} {data amt : Bytes} (h : mintData cfg data .default = .ok amt) :
    data.length ≤ 400 := by
  simp only [mintData, Res.mapErr_eq_ok, Res.bind_eq_ok, Res.refuse_eq_ok, exists_const, not_or,
    Bool.not_eq_false] at h
  obtain ⟨it, hit, d, hd, list, hlist, a, ha, aid, haid, ⟨-, hnull⟩, hamt⟩ := h
  have hscan := Cbor.scanned_of_one items_default_word hit
  have hd1 := hscan.tagged (by omega) hd 1 (by omega)
  have hlist0 := hd1.array hlist 0 (by omega)
  have hlen := (amount_eq_ok hamt).2.1
  simp only [amount, Res.bind_eq_ok, Res.refuse_eq_ok, exists_const, Res.pure_eq_ok] at hamt
  obtain ⟨b, hb, -, rfl⟩ := hamt
  have ha0 := raw_length_le (hlist0.array ha 0 (by omega))
  have haid' := (hlist0.array ha 0 (by omega)).bytes_length haid
  have ha1 := blob_length_le (hlist0.array ha 1 (by omega)) hb
  have hpair : list[0].raw.length ≤ 9 + 2 * 41 := by
    refine array_length_le hlist0 ha fun i hi => ?_
    obtain rfl | rfl : i = 0 ∨ i = 1 := by omega
    · rw [haid'.2] at haid'
      omega
    · omega
  have hlist' : d[1].raw.length ≤ 9 + 1 * (9 + 2 * 41) := by
    refine array_length_le hd1 hlist fun i hi => ?_
    obtain rfl : i = 0 := by omega
    exact hpair
  have h0 := version_length_le hscan (by omega) hd (by omega)
  have h2 := null_length_le (hscan.tagged (by omega) hd 2 (by omega)) hnull
  rw [← Cbor.raw_of_one items_default_word hit]
  refine (tagged_length_le (b := 100) hscan hd ?_).trans (by omega)
  intro i hi
  obtain rfl | rfl | rfl : i = 0 ∨ i = 1 ∨ i = 2 := by omega
  all_goals omega

/-- The mint of a redemption: the lock reason and the mint data are bounded, and so
is everything else in it. -/
theorem mint_length_lt {cfg : Cfg} {h : History} (hh : HistoryOk h) (hdec : decodeMint K h.mintItem = .ok h.mint)
    {n : Nat} {amt : Bytes} (hmint : verifyMint H cfg h.mint true .default = .ok (some n, amt)) :
    splitPerByte * h.mintItem.raw.length < 2 ^ 64 := by
  obtain ⟨hok, hfields, hjust, hdata⟩ := decodeMint_ok hh.mintItem hdec
  simp only [decodeMint, Res.bind_eq_ok, Res.pure_eq_ok] at hdec
  obtain ⟨m, hm, _, hnet, _, -, _, -, _, -, _, -, _, -, e, hdead, hdec⟩ := hdec
  obtain rfl : m = h.mint.fields := Except.ok.inj (hm.symm.trans hfields)
  simp only [verifyMint, mintNonce, rootNonce, justification, Res.bind_eq_ok, Res.refuse_eq_ok,
    exists_const, Res.okOr_eq_ok, Res.pure_eq_ok, Prod.mk.injEq, if_true,
    not_lt] at hmint
  obtain ⟨-, ⟨typ, params⟩, hpred, -, -, _, ⟨_, ⟨j, hj, _, ⟨hjlen, -⟩, -⟩, -⟩, data, hdata', _, hmd, -⟩ :=
    hmint
  have hnull : ∀ it : Item, Cbor.Scanned it → ∀ b : Bytes, nullable it = .ok (some b) →
      it.raw.length ≤ b.length + 9 := by
    intro it hit b hb
    rw [nullable_eq_ok hb rfl]
    exact raw_length_le hit
  have h0 := version_length_le hh.mintItem (by omega) hfields (by omega)
  have h1 : h.mint.fields[1].raw.length ≤ 9 := by
    simp only [network, Res.bind_eq_ok] at hnet
    obtain ⟨_, hu, -⟩ := hnet
    exact uint_length_le (hok.fields 1 (by omega)) hu
  have h2 := predicate_length_le (hok.fields 2 (by omega)) hpred
  have h3 := raw_length_le (hok.fields 3 (by omega))
  have h4 := raw_length_le (hok.fields 4 (by omega))
  have h5 := hnull _ (hok.fields 5 (by omega)) j (hj ▸ hjust)
  have h6 := hnull _ (hok.fields 6 (by omega)) data (hdata' ▸ hdata)
  have h7 : h.mint.fields[7].raw.length ≤ 9 := by
    unfold deadline at hdead
    split at hdead
    next hn => exact null_length_le (hok.fields 7 (by omega)) hn
    next =>
      simp only [Res.bind_eq_ok, Res.mapErr_eq_ok] at hdead
      obtain ⟨_, hu, -⟩ := hdead
      exact uint_length_le (hok.fields 7 (by omega)) hu
  have hsalt := hok.salt
  have hty := hok.ty
  have hmdlen := mintData_length_le hmd
  have hlen : h.mintItem.raw.length ≤ 18 + 8 * 65545 := by
    refine tagged_length_le hh.mintItem hfields fun i hi => ?_
    interval_cases i
    all_goals omega
  unfold splitPerByte
  omega

/-! ### The relation -/

/-- The outcome of the lineage of an unsplit redemption: its part is the token itself. -/
def Redemption.lineageOutcome {cfg : Cfg} {h : History} (r : Redemption H K cfg h) : Outcome :=
  { r.outcome with partTokenId := r.base.tokenId, partAmount := r.base.amount }

section Lineage

variable {σ : Type} {charge : Nat → Run σ Error Unit}

/-- The walk that meets the lock reason in the history itself, and its only level. -/
def unsplit (history : Bytes) : Walked := { proofs := [], projs := [history] }

/-- Both evaluations meet the same last transfer and leaf. -/
theorem getLast_of_level {trs : List Transfer} {owner : Item} {state : Bytes32} {seen seen' : List Bytes32}
    {rest : List Leaf} (hrest : levelTransfers H K trs owner state seen = .ok (rest, seen'))
    (hne : trs ≠ []) (first : Leaf) : (first :: rest).getLast? = rest.getLast? := by
  cases rest with
  | nil => exact absurd (List.length_eq_zero_iff.mp (levelTransfers_ok hrest).1.symm) hne
  | cons y ys => rw [List.getLast?_cons_cons]

theorem verifyLevel_root_ok {cfg : Cfg} {history : Bytes} {st : VerifyState} {s s' : σ}
    (hrun : verifyLevel H K charge cfg (unsplit history) 0 0 (.start 0) s = (.ok st, s')) :
    ∃ p h, Cbor.one history .default = .ok p ∧ decodeFields K p u64Max = .ok h ∧ h.count ≠ 0 ∧
      ∃ r : Redemption H K cfg h, st.out = r.lineageOutcome := by
  simp only [verifyLevel, unsplit, Run.bind_eq_ok, Run.lift_apply, Prod.mk.injEq, Run.pure_apply,
    Except.ok.injEq, Res.index_eq_ok, List.getElem?_cons_zero, Option.some.injEq, decide_true,
    lt_irrefl, if_false] at hrun
  obtain ⟨_, _, ⟨rfl, rfl⟩, ⟨lv, seen⟩, _, ⟨hlevel, rfl⟩, _, _, -, ⟨out, root⟩, _, ⟨hterm, -⟩, out', _,
    ⟨htake, -⟩, rfl, -⟩ := hrun
  obtain ⟨p, h, base, hp, hdec, hcount, ⟨r⟩⟩ := level_root_ok hlevel
  have hwide := Cbor.one_mono (show Items.max ≤ usizeMax by decide) usizeMax_lt hp
  have hne := (decodeFields_ok (Cbor.scanned_of_one items_default_word hp) hdec).transfers_ne_nil hcount
  obtain ⟨last, hlast⟩ : ∃ last, h.transfers.getLast? = some last :=
    ⟨_, List.getLast?_eq_some_getLast hne⟩
  simp only [levelTerminal, partTerminal, terminalTx_of_decodeFields hwide hdec hlast, if_true,
    Res.bind_eq_ok, Res.bind_ok, Res.refuse_eq_ok, exists_const, Res.pure_eq_ok,
    Prod.mk.injEq] at hterm
  obtain ⟨_, ⟨releaseTo, hburn, hnull, rfl⟩, rfl, -⟩ := hterm
  simp only [takeBase, if_true, r.base_eq, Res.bind_eq_ok, Res.unwrap_eq_ok, Option.some.injEq,
    Res.pure_eq_ok] at htake
  obtain ⟨_, rfl, rfl⟩ := htake
  rw [r.amount_eq] at hburn
  have hcfg := (derive_eq_ok r.base_ok).2.1
  rw [← hcfg] at hnull
  have hlastLeaf := r.last_eq
  rw [getLast_of_level r.rest_ok hne] at hlastLeaf
  refine ⟨p, h, hp, hdec, hcount, ⟨r.nonce, r.amt, base, r.first, r.seen, r.rest, r.seenAfter, last,
    lv.last, releaseTo, r.mint_ok, r.base_ok, r.first_ok, r.rest_ok, hlast, hlastLeaf, hburn, hnull⟩, ?_⟩
  simp only [Redemption.lineageOutcome, Redemption.outcome, VerifyState.start, r.id_eq, r.amount_eq,
    r.leaves_eq, ← hcfg, (derive_eq_ok r.base_ok).2.2.2]
  rfl

theorem verifyLevel_root_of {cfg : Cfg} {history : Bytes} {p : Item} {h : History}
    (hp : Cbor.one history .default = .ok p) (hdec : decodeFields K p u64Max = .ok h)
    (hcount : h.count ≠ 0) (r : Redemption H K cfg h) (s : σ) :
    ∃ st, verifyLevel H K charge cfg (unsplit history) 0 0 (.start 0) s = (.ok st, s) ∧
      st.out = r.lineageOutcome := by
  obtain ⟨lv, hlevel, hlast, hid, hamount, hbase, hleaves⟩ := level_root_of hp hdec hcount r
  have hwide := Cbor.one_mono (show Items.max ≤ usizeMax by decide) usizeMax_lt hp
  have hcfg := (derive_eq_ok r.base_ok).2.1
  have hne : h.transfers ≠ [] := by
    rintro hnil
    simpa [hnil] using r.last_eq
  have hleaf : lv.last = r.lastLeaf := by
    rw [getLast_of_level r.rest_ok hne, r.lastLeaf_eq] at hlast
    exact (Option.some.inj hlast).symm
  have hnull := r.nullifier_ne
  rw [hcfg] at hnull
  have hterm : levelTerminal H cfg 0 lv history (VerifyState.start 0).out =
      .ok ({ (VerifyState.start 0).out with
        nullifier := nullifierOf H (H cfg.raw) r.lastLeaf, releaseTo := r.releaseTo,
        partTokenId := r.base.tokenId, partAmount := r.base.amount }, .zero 32) := by
    simp only [levelTerminal, partTerminal, terminalTx_of_decodeFields hwide hdec r.last_eq, if_true,
      Res.bind_ok, hamount, r.burn_ok, hleaf, Res.refuse_of_not hnull, Res.pure_def, hid]
  refine ⟨{ seen := r.seenAfter, out := r.lineageOutcome,
            parent := some { id := lv.id, amount := lv.amount, root := .zero 32 } }, ?_, rfl⟩
  simp only [verifyLevel, unsplit, Run.bind_eq_ok, Run.lift_apply, Prod.mk.injEq, Run.pure_apply,
    Except.ok.injEq, Res.index_eq_ok, List.getElem?_cons_zero, Option.some.injEq, decide_true,
    lt_irrefl, if_false]
  refine ⟨history, s, ⟨rfl, rfl⟩, (lv, r.seenAfter), s, ⟨hlevel, rfl⟩, (), s, ⟨trivial, rfl⟩, _, s,
    ⟨hterm, rfl⟩, r.lineageOutcome, s, ⟨?_, rfl⟩, rfl, rfl⟩
  simp only [takeBase, if_true, hbase, Res.unwrap, Res.bind_ok, Res.pure_def, hleaves,
    Redemption.lineageOutcome, Redemption.outcome, VerifyState.start, hcfg,
    (derive_eq_ok r.base_ok).2.2.2]
  rfl

/-- An accepted lineage without splits is a redemption of at most `Items.max` items. -/
theorem lineage_root_ok {cfgBytes history : Bytes} {o : Outcome} {s : σ}
    (hrun : (Lineage.relation H K charge cfgBytes history s).1 = .ok o) (hdepth : o.depth = 0) :
    ∃ cfg p h, parseCfg H cfgBytes = .ok cfg ∧ Cbor.one history .default = .ok p ∧
      decodeFields K p u64Max = .ok h ∧ h.count ≠ 0 ∧ ∃ r : Redemption H K cfg h, o = r.lineageOutcome := by
  obtain ⟨cfg, ancestors, levels, st, hcfg, -, rfl, hv, s1, s2, hlevels⟩ :=
    relation_ok (Prod.ext hrun rfl)
  obtain rfl : ancestors = [] := by
    rw [hv.depth] at hdepth
    exact List.length_eq_zero_iff.mp hdepth
  simp only [List.length_nil, verifyLevels, Run.bind_eq_ok, Run.pure_apply, Prod.mk.injEq,
    Except.ok.injEq] at hlevels
  obtain ⟨_, _, hlevel, rfl, -⟩ := hlevels
  obtain ⟨p, h, hp, hdec, hcount, r, hout⟩ := verifyLevel_root_ok hlevel
  exact ⟨cfg, p, h, hcfg, hp, hdec, hcount, r, hout⟩

/-- A redemption of at most `Items.max` items has a lineage of depth zero. -/
theorem lineage_root_of (hfree : ∀ n s, (charge n s).1 = .ok ()) {cfgBytes history : Bytes} {cfg : Cfg}
    {p : Item} {h : History} (hcfg : parseCfg H cfgBytes = .ok cfg)
    (hp : Cbor.one history .default = .ok p) (hdec : decodeFields K p u64Max = .ok h)
    (hcount : h.count ≠ 0) (r : Redemption H K cfg h) (s : σ) :
    ∃ s', Lineage.relation H K charge cfgBytes history s = (.ok r.lineageOutcome, s') := by
  have hwide : Cbor.one history (.perObject usizeMax) = .ok p :=
    Cbor.one_mono (show Items.max ≤ usizeMax by decide) usizeMax_lt hp
  have hh := decodeFields_ok (Cbor.scanned_of_one usizeMax_lt hwide) hdec
  obtain ⟨j, hj, htag⟩ := justificationTag_of_verifyMint r.mint_ok
  have hmj := mintJustification_of_decodeFields hwide hdec hj
  have houter : outerMint history = .ok h.mintItem ∧ decodeMint K h.mintItem = .ok h.mint := by
    simp only [decodeFields, Res.bind_eq_ok, Res.pure_eq_ok] at hdec
    obtain ⟨v, hv, g, hg, count, hc, mint, hmint, _, -, _, -, _, -, _, -, rfl⟩ := hdec
    simp only [outerMint, hwide, hv, hc, hg, Res.bind_ok, Res.refuse_of_not hcount, Res.pure_eq_ok]
    exact ⟨trivial, hmint⟩
  obtain ⟨s1, hcharge⟩ : ∃ s1,
      chargeU64 charge (splitPerByte * h.mintItem.raw.length) s = (.ok (), s1) := by
    rw [chargeU64, Res.u64_of_lt (mint_length_lt hh houter.2 r.mint_ok)]
    exact ⟨_, Prod.ext (hfree _ _) rfl⟩
  have hwalk : walk K charge (history.length + 1) (unsplit history) s1 = (.ok (unsplit history), s1) := by
    simp only [walk, Run.bind_eq_ok, Run.lift_apply, Prod.mk.injEq, Res.unwrap_eq_ok]
    refine ⟨history, s1, ⟨rfl, rfl⟩, j, s1, ⟨hmj, rfl⟩, ?_⟩
    rw [if_pos htag]
    rfl
  obtain ⟨st, hlevel, hout⟩ : ∃ st, verifyLevel H K charge cfg (unsplit history) 0 0 (.start 0) s1 =
      (.ok st, s1) ∧ st.out = r.lineageOutcome := verifyLevel_root_of hp hdec hcount r s1
  have hdecode : decodeHistory K history = .ok () := by
    simp only [decodeHistory, hwide, hdec, Res.bind_ok, Res.pure_eq_ok]
  refine ⟨s1, ?_⟩
  simp only [Lineage.relation, Run.bind_eq_ok, Run.lift_apply, Prod.mk.injEq, Run.pure_apply,
    Except.ok.injEq]
  refine ⟨cfg, s, ⟨hcfg, rfl⟩, (), s, ⟨hdecode, rfl⟩, h.mintItem, s, ⟨houter.1, rfl⟩, (), s1, hcharge,
    unsplit history, s1, hwalk, 0, s1, ⟨rfl, rfl⟩, st, s1, ?_, hout, rfl⟩
  simp only [verifyLevels, Run.bind_eq_ok, Run.pure_apply]
  exact ⟨st, s1, hlevel, rfl⟩

end Lineage

end Return

end Ureth.Source.B2
