import Ureth.Source.B2.ReturnSpec

/-!
# What an accepted return history is

The loops of the evaluation carry the current owner, the current source state and
the state IDs seen so far. Read off their successful runs: a chain of certified
transitions from the token's own identity to its burn. The other outcomes of the
evaluation, once the history has decoded, are relation failures, which the call
answers at the price of a success.
-/

namespace Ureth.Source.B2
open Ureth.Foundation
open Cbor (Item Items Scanned bytes uint)
open Ureth.Source.B1.Cbor (usizeMax usizeMax_lt)

section Chain

variable (H : Bytes → Bytes32) (K : K256)

/-- One certified transition: the transaction `raw` of the owner predicate `pred` at the state
`source`, unlocked by `k` and observed at `t`, with its leaf. -/
structure Certified (k : K.VerifyingKey) (pred : Bytes) (source : Bytes32) (raw : Bytes)
    (deadline : Option Nat) (cert : Cd) (t : Nat) (leaf : Leaf) : Prop where
  pred_eq : cert.pred.raw = pred
  source_eq : cert.source = source.val
  tx_eq : cert.tx = (H raw).val
  deadline_eq : cert.e = deadline
  unlocked : unlock H K k source.val (H raw).val cert.unlock = .ok ()
  in_time : ∀ e, deadline = some e → t < e
  leaf_eq : leaf = { sid := sidOf H pred source, txHash := H raw, referenceTime := t,
                     value := hashArray H [bytes (H raw).val, uint t] }

/-- The transfers of an owner at a state: each is certified by the key of the current owner's
predicate, hands the token to the predicate it names and moves on to the state of its mask. -/
inductive Transitions : Item → Bytes32 → List Transfer → List Leaf → Prop where
  | nil {owner : Item} {state : Bytes32} : Transitions owner state [] []
  | cons {owner : Item} {state : Bytes32} {tr : Transfer} {trs : List Transfer} {leaf : Leaf}
      {leaves : List Leaf} {typ : Nat} {params : Bytes} {k : K.VerifyingKey}
      (hpred : predicate owner = .ok (typ, params)) (hkey : key K params = .ok k)
      (hcert : Certified H K k owner.raw state tr.tx.raw tr.tx.e tr.cert tr.t leaf)
      (hrest : Transitions tr.tx.pred (outputState H state tr.tx.mask) trs leaves) :
      Transitions owner state (tr :: trs) (leaf :: leaves)

/-- A transaction that hands the token to a key and carries no data. -/
def HandsOver (tx : Tx) : Prop := (∃ params, predicate tx.pred = .ok (1, params)) ∧ tx.data = none

/-- A burn for the recipient `releaseTo`: its reason is the hash of its data, which names the
configuration's chain, vault, type and asset, and the amount `amt`. -/
structure ReturnBurn (cfg : Cfg) (amt : Bytes32) (tx : Tx) (items : Items) (releaseTo : Fixed 20)
    (data : Bytes) (r : FieldList Item 11) : Prop where
  data_eq : tx.data = some data
  reason : predicate tx.pred = .ok (2, (H data).val)
  fields : (Cbor.one data items >>= fun it => it.tagged 11 39048 1) = .ok r
  chain : r[1].uint u64Max = .ok cfg.chain
  vault : r[2].bytes 20 = .ok cfg.vault
  ty : r[4].bytes 32 = .ok cfg.ty
  aid : r[5].bytes 32 = .ok cfg.aid
  recipient : r[6].bytes 20 = .ok releaseTo.val
  amount : ∃ a, B2.amount r[7] = .ok a ∧ word a = .ok amt
  not_zero : releaseTo.val ≠ zero20
  not_vault : releaseTo.val ≠ cfg.vault

/-- The token of a verified root mint: its nonce and amount, its derived identity, and the amount
its data mints. -/
structure MintedRoot (cfg : Cfg) (m : Mint) (items : Items) (o : Outcome) : Prop where
  nonce : ∃ j, m.justification = some j ∧ justification H cfg j items = .ok o.nonce
  salt : m.fields[3].data = (saltOf H cfg o.nonce).val
  tokenId : o.tokenId = hashArray H [bytes (saltOf H cfg o.nonce).val, uint cfg.network]
  amount : ∃ data amt, m.data = some data ∧ mintData cfg data items = .ok amt ∧ word amt = .ok o.amount
  owner : ∃ params, predicate m.fields[2] = .ok (1, params)

/-- Everything an accepted return of a decoded history establishes. -/
structure VerifiedReturn (cfg : Cfg) (h : History) (items : Items) (o : Outcome) : Prop where
  root : MintedRoot H cfg h.mint items o
  minted : ∃ mk first rest, minterKey H K o.tokenId = .ok mk ∧ o.leaves = first :: rest ∧
    Certified H K mk (signaturePred K mk) (mintSource H o.tokenId) h.mintItem.raw h.mint.deadline h.cd0
      h.t0 first ∧
    Transitions H K h.mint.fields[2] (outputState H (mintSource H o.tokenId) o.tokenId.val) h.transfers
      rest
  interior : ∀ tr ∈ h.transfers.dropLast, HandsOver tr.tx
  burnt : ∃ last data r, h.transfers.getLast? = some last ∧
    ReturnBurn H cfg o.amount last.tx items o.releaseTo data r
  leaves : o.leaves.length = 1 + h.transfers.length

end Chain

section Return

variable {H : Bytes → Bytes32} {K : K256}

theorem step_ok {pred : Bytes} {source : Bytes32} {raw : Bytes} {e : Option Nat} {cd : Cd} {t : Nat}
    {k : K.VerifyingKey} {seen seen' : List Bytes32} {leaf : Leaf}
    (h : step H K pred source raw e cd t k seen = .ok (leaf, seen')) :
    Certified H K k pred source raw e cd t leaf := by
  simp only [step, Res.bind_eq_ok, Res.refuse_eq_ok, exists_const, Res.pure_eq_ok,
    Prod.mk.injEq, not_or, not_not] at h
  obtain ⟨⟨hpred, hsource, htx⟩, he, _, hunlock, htime, _, -, rfl, -⟩ := h
  refine ⟨hpred, hsource, htx, he, hunlock, ?_, rfl⟩
  rintro e rfl
  simpa using htime

theorem mintLeaf_ok {id : Bytes32} {raw : Bytes} {e : Option Nat} {cd0 : Cd} {t0 : Nat}
    {seen seen' : List Bytes32} {leaf : Leaf}
    (h : mintLeaf H K id raw e cd0 t0 seen = .ok (leaf, seen')) :
    ∃ mk, minterKey H K id = .ok mk ∧
      Certified H K mk (signaturePred K mk) (mintSource H id) raw e cd0 t0 leaf := by
  simp only [mintLeaf, Res.bind_eq_ok] at h
  obtain ⟨mk, hmk, hstep⟩ := h
  exact ⟨mk, hmk, step_ok hstep⟩

theorem interior_ok {tx : Tx} {u : Unit} (h : interior K tx = .ok u) : HandsOver tx := by
  simp only [interior, Res.bind_eq_ok, Res.refuse_eq_ok, exists_const, not_not, Bool.not_eq_true,
    Option.isSome_eq_false_iff, Option.isNone_iff_eq_none] at h
  obtain ⟨⟨typ, params⟩, hpred, rfl, _, -, hdata⟩ := h
  exact ⟨⟨params, hpred⟩, hdata⟩

/-- The run of a level's loop is a chain of transitions, all but the last to a key and without data. -/
theorem levelTransfers_chain {trs : List Transfer} {owner : Item} {state : Bytes32}
    {seen seen' : List Bytes32} {leaves : List Leaf}
    (h : levelTransfers H K trs owner state seen = .ok (leaves, seen')) :
    Transitions H K owner state trs leaves ∧ ∀ tr ∈ trs.dropLast, HandsOver tr.tx := by
  induction trs generalizing owner state seen leaves with
  | nil =>
    simp only [levelTransfers, Except.ok.injEq, Prod.mk.injEq] at h
    obtain ⟨rfl, -⟩ := h
    exact ⟨.nil, by simp⟩
  | cons tr rest ih =>
    simp only [levelTransfers, Res.bind_eq_ok, Prod.exists, Res.pure_eq_ok,
      Prod.mk.injEq] at h
    obtain ⟨leaf, seen1, hspend, _, hint, leaves', seen2, hlevel, rfl, rfl⟩ := h
    obtain ⟨hchain, hhand⟩ := ih hlevel
    simp only [spend, Res.bind_eq_ok, Prod.exists] at hspend
    obtain ⟨typ, params, hpred, k, hkey, hstep⟩ := hspend
    refine ⟨.cons hpred hkey (step_ok hstep) hchain, ?_⟩
    cases rest with
    | nil => simp
    | cons next more =>
      rw [if_neg (by simp)] at hint
      intro tr' htr'
      rw [List.dropLast_cons_cons, List.mem_cons] at htr'
      rcases htr' with rfl | htr'
      · exact interior_ok hint
      · exact hhand tr' htr'

theorem Transitions.length_eq {owner : Item} {state : Bytes32} {trs : List Transfer} {leaves : List Leaf}
    (h : Transitions H K owner state trs leaves) : leaves.length = trs.length := by
  induction h with
  | nil => rfl
  | cons _ _ _ _ ih => rw [List.length_cons, List.length_cons, ih]

theorem burn_ok {cfg : Cfg} {amt : Bytes32} {tx : Tx} {items : Items} {releaseTo : Fixed 20}
    (h : burn H cfg amt tx items = .ok releaseTo) :
    ∃ data r, ReturnBurn H cfg amt tx items releaseTo data r := by
  simp only [burn, Res.mapErr_eq_ok, burnInner, Res.bind_eq_ok, Res.refuse_eq_ok, exists_const,
    Res.okOr_eq_ok, Res.unwrap_eq_ok, not_not, not_or, Prod.exists] at h
  obtain ⟨typ, params, hpred, rfl, data, hdata, it, hit, r, hr, chain, hchain, rfl, vault, hvault, rfl, _,
    -, -, ty, hty, rfl, aid, haid, rfl, recipient, hrec, a, ha, aw, haw, rfl, _, -, -, _, -, -, _, -, -,
    ⟨hzero, hne⟩, rfl, hfixed⟩ := h
  have hval : recipient = releaseTo.val := Fixed.ofBytes?_eq_some.mp hfixed
  subst hval
  exact ⟨data, r, hdata, hpred, by rw [hit, Res.bind_ok]; exact hr, hchain, hvault, hty, haid, hrec,
    ⟨a, ha, haw⟩, hzero, hne⟩

/-- The derived outcome of a verified root mint. -/
theorem mintedRoot_of {cfg : Cfg} {m : Mint} {items : Items} {n : Nat} {amt : Bytes} {base : Outcome}
    (hmint : verifyMint H cfg m true items = .ok (some n, amt))
    (hbase : derive H K cfg n amt m.fields[2] = .ok base) : MintedRoot H cfg m items base := by
  have hamount := (derive_eq_ok hbase).1
  simp only [verifyMint, mintNonce, rootNonce, if_true, Res.bind_eq_ok, Res.refuse_eq_ok, exists_const,
    Res.okOr_eq_ok, Res.pure_eq_ok, Prod.mk.injEq, not_not, Prod.exists] at hmint
  obtain ⟨-, typ, params, hpred, rfl, -, _, ⟨n', ⟨j, hj, _, hjust, hsalt, rfl⟩, rfl⟩, data, hdata, _,
    hamt, hn, rfl⟩ := hmint
  obtain rfl := Option.some.inj hn
  simp only [derive, Res.bind_eq_ok, Res.pure_eq_ok] at hbase
  obtain ⟨_, -, _, -, _, -, _, -, _, -, w, -, rfl⟩ := hbase
  exact ⟨⟨j, hj, hjust⟩, hsalt, rfl, ⟨data, _, hdata, hamt, hamount⟩, ⟨params, hpred⟩⟩

/-- An accepted return, under any bounds on its transfers and items. -/
theorem evaluate_return_verified {cfgItem payload : Item} (hp : Scanned payload) {maxTransfers : Nat}
    {items : Items} {o : Outcome} (h : evaluate H K 2 cfgItem payload maxTransfers items = .ok o) :
    ∃ cfg hist, Cfg.parse H cfgItem = .ok cfg ∧ decodeFields K payload maxTransfers = .ok hist ∧
      VerifiedReturn H K cfg hist items o := by
  simp only [evaluate, show ¬ (2 : Nat) = 0 by decide, if_false, show ¬ (2 : Nat) = 1 by decide,
    false_and, true_and, Res.bind_eq_ok, Res.refuse_eq_ok, not_false_eq_true, exists_const,
    Res.unwrap_eq_ok, Prod.exists] at h
  obtain ⟨cfg, hcfg, hist, hdec, hcount, n, amt, hmint, nonce, rfl, base, hbase, first, seen, hfirst,
    hrun⟩ := h
  have hne := (decodeFields_ok hp hdec).transfers_ne_nil hcount
  obtain ⟨rest, seen', last, leaf, releaseTo, hrest, hlast, -, hburn, -, rfl⟩ :=
    (evaluateTransfers_ok _ _ _ _ _ _ hne).mp hrun
  obtain ⟨mk, hmk, hcert⟩ := mintLeaf_ok hfirst
  obtain ⟨hchain, hhand⟩ := levelTransfers_chain hrest
  obtain ⟨data, r, hburn⟩ := burn_ok hburn
  have hroot := mintedRoot_of hmint hbase
  refine ⟨cfg, hist, hcfg, hdec, ⟨hroot.nonce, hroot.salt, hroot.tokenId, hroot.amount, hroot.owner⟩,
    ⟨mk, first, rest, hmk, rfl, hcert, hchain⟩, hhand, ⟨last, data, r, hlast, hburn⟩, ?_⟩
  rw [List.length_append, hchain.length_eq, List.length_singleton]

/-! ## The other outcomes -/

/-- The transfers of a decoded history fail only as a relation does. -/
theorem evaluateTransfers_relational {cfg : Cfg} {items : Items} (hitems : Items.Word items)
    {trs : List Transfer} (htrs : ∀ tr ∈ trs, TransferOk tr)
    (hdata : ∀ tr ∈ trs, ∀ b, tr.tx.data = some b → Short b) {owner : Item} {x : Nat × Bytes}
    (howner : predicate owner = .ok x) (state : Bytes32) (seen : List Bytes32) (out : Outcome) :
    (evaluateTransfers H K cfg items trs owner state seen out).FailsOnly Relational := by
  induction trs generalizing owner state seen out x with
  | nil => simp [evaluateTransfers]
  | cons tr rest ih =>
    have htr := htrs tr (by simp)
    obtain ⟨y, hy⟩ := htr.pred
    refine (spend_relational howner state tr seen).bind fun spent _ => ?_
    obtain ⟨leaf, seen'⟩ := spent
    refine Res.FailsOnly.bind ?_ fun out' _ => ?_
    · split
      · refine (burn_relational htr.scanned hitems (hdata tr (by simp))).bind fun _ _ => ?_
        exact (Res.failsOnly_refuse (by decide)).bind fun _ _ => by simp
      · exact (interior_relational hy).bind fun _ _ => by simp
    · exact ih (fun tr htr => htrs tr (by simp [htr])) (fun tr htr => hdata tr (by simp [htr])) hy _ _ _

/-- Once the configuration and the history have decoded, the evaluation fails only as a relation
does. -/
theorem evaluate_relational {op : Nat} (hop : op ≠ 0) {cfgItem payload : Item} (hp : Scanned payload)
    (hshort : Short payload.raw) {maxTransfers : Nat} {items : Items} (hitems : Items.Word items)
    {cfg : Cfg} (hcfg : Cfg.parse H cfgItem = .ok cfg) {hist : History}
    (hdec : decodeFields K payload maxTransfers = .ok hist) :
    (evaluate H K op cfgItem payload maxTransfers items).FailsOnly Relational := by
  have hh := decodeFields_ok hp hdec
  have hdata : ∀ b, ((hist.mint.justification = some b ∨ hist.mint.data = some b) ∨
      ∃ tr ∈ hist.transfers, tr.tx.data = some b) → Short b := by
    intro b hb
    have hlt := decodeFields_data_lt hp hdec hb
    unfold Short at hshort ⊢
    omega
  obtain ⟨x, hx⟩ := hh.mint.pred
  simp only [evaluate, hcfg, hdec, Res.bind_ok, if_neg hop]
  refine (Res.failsOnly_refuse (by decide)).bind fun _ _ => ?_
  refine (Res.failsOnly_refuse (by decide)).bind fun _ _ => ?_
  refine (verifyMint_relational hh.mint hitems fun b hb => hdata b (.inl (.inr hb))).bind
    fun minted hmint => ?_
  obtain ⟨n, amt⟩ := minted
  obtain ⟨hamt, hsome, -⟩ := verifyMint_ok hmint
  obtain ⟨nonce, rfl⟩ := Option.isSome_iff_exists.mp hsome
  refine (derive_relational hx hamt).bind fun base _ => ?_
  refine (mintLeaf_relational _ _ _ _ _ _).bind fun first _ => ?_
  obtain ⟨leaf, seen⟩ := first
  exact evaluateTransfers_relational hitems hh.transfers
    (fun tr htr b hb => hdata b (.inr ⟨tr, htr, hb⟩)) hx _ _ _

theorem derive_quiet {cfg : Cfg} {n : Nat} {amt : Bytes} {p : Item} (hp : Scanned p) (hamt : amt.length ≤ 32) :
    Quiet (derive H K cfg n amt p) := by
  refine (Res.failsOnly_refuse (by simp)).bind fun _ _ => (predicate_quiet hp).bind fun ⟨typ, params⟩ _ => ?_
  refine (Res.failsOnly_refuse (by simp)).bind fun _ _ => ?_
  refine ((key_relational _).mono fun e he => he.ne_outOfGas).bind fun _ _ => ?_
  refine (Res.failsOnly_refuse (by simp)).bind fun _ _ => ?_
  exact (failsOnly_word hamt).bind fun _ _ => by simp

/-- An evaluation never reports out of gas. -/
theorem evaluate_quiet (op : Nat) {cfgItem payload : Item} (hcfg : Scanned cfgItem) (hp : Scanned payload)
    (hshort : Short payload.raw) (maxTransfers : Nat) {items : Items} (hitems : Items.Word items) :
    Quiet (evaluate H K op cfgItem payload maxTransfers items) := by
  by_cases hop : op = 0
  · subst hop
    refine (parse_quiet hcfg).bind fun cfg _ => ?_
    rw [if_pos rfl]
    refine (hp.array_quiet 3).bind fun a ha => (Cbor.uint_quiet _ _).bind fun n _ => ?_
    refine (amount_quiet _).bind fun amt hamt => ?_
    exact derive_quiet (hp.array ha 2 (by omega)) (amount_eq_ok hamt).2.1
  · rcases (parse_quiet (H := H) hcfg).cases with ⟨cfg, hparse⟩ | ⟨e, he, hparse⟩
    · rcases (decodeFields_quiet (K := K) hp maxTransfers).cases with ⟨hist, hdec⟩ | ⟨e, he, hdec⟩
      · exact (evaluate_relational hop hp hshort hitems hparse hdec).mono fun e he => he.ne_outOfGas
      · simp only [evaluate, hparse, hdec, Res.bind_ok, if_neg hop, Res.bind_fail]
        exact Res.failsOnly_fail he
    · simp only [evaluate, hparse, Res.bind_fail]
      exact Res.failsOnly_fail he

/-- What a call of `m` leaves costs. -/
def callGas (bytes m : Nat) : Nat := 26000 + 20 * bytes + 14000 * m

theorem leafCount_le {op : Nat} {payload : Item} {max m : Nat} (h : leafCount op payload max = .ok m) :
    m ≤ 1 + max := by
  unfold leafCount at h
  split at h
  · obtain rfl := Except.ok.inj h
    omega
  · simp only [Res.bind_eq_ok, Res.u64_eq_ok, Cbor.Item.count, Res.refuse_eq_ok, exists_const,
      Res.pure_eq_ok, not_lt] at h
    obtain ⟨v, -, n, ⟨-, hmax, rfl⟩, -, rfl⟩ := h
    omega

/-- What a call is opened as: scanned items, the payload a short one. -/
theorem openCall_ok {input : Bytes} {o : Opened} (h : openCall input = .ok o) :
    Scanned o.cfg ∧ Scanned o.payload ∧ Short o.payload.raw := by
  simp only [openCall, Res.bind_eq_ok, Res.pure_eq_ok] at h
  obtain ⟨call, hcall, cfgItem, hitem, _, -, payload, hpayload, rfl⟩ := h
  refine ⟨Cbor.scanned_of_one items_default_word hitem, Cbor.scanned_of_one items_default_word hpayload, ?_⟩
  simp only [Abi.decode, Res.bind_eq_ok, Res.refuse_eq_ok, exists_const, Prod.exists, Res.pure_eq_ok, not_or, not_lt] at hcall
  obtain ⟨_, -, -, -, _, -, -, _, _, -, _, -, -, data, _, -, -, ⟨hdata, -⟩, rfl⟩ := hcall
  simp only [maxHistory] at hdata
  unfold Short
  rw [Cbor.raw_of_one items_default_word hpayload]
  dsimp only
  omega

/-- A call whose leaves are counted: out of gas below its price, and at or above it the answer to its
evaluation, at that price. -/
theorem run_of_counted {input : Bytes} (hlen : input.length ≤ maxInput) {o : Opened}
    (hopen : openCall input = .ok o) {m : Nat}
    (hm : leafCount o.call.op o.payload maxTransfers = .ok m) (gas : Nat) :
    run H K input gas =
      if gas < callGas input.length m then Res.fail .outOfGas
      else answer (callGas input.length m)
        (evaluate H K o.call.op o.cfg o.payload maxTransfers .default) := by
  have hle : m ≤ 65 := leafCount_le hm
  have hbytes : input.length ≤ 135168 := hlen
  have hbase : (Res.u64 (26000 + 20 * input.length) : Res Error Nat) =
      .ok (26000 + 20 * input.length) := Res.u64_of_lt (by omega)
  have hcharge : (Res.u64 (26000 + 20 * input.length + 14000 * m) : Res Error Nat) =
      .ok (callGas input.length m) := Res.u64_of_lt (by omega)
  have hfit : ¬ input.length > maxInput := not_lt.mpr hlen
  simp only [run, Res.refuse_of_not hfit, Res.bind_ok, hbase]
  by_cases hgas : gas < 26000 + 20 * input.length
  · have hall : gas < callGas input.length m := by
      unfold callGas
      omega
    rw [if_pos hall, Res.refuse, if_pos hgas, Res.bind_fail]
  · rw [Res.refuse_of_not hgas, Res.bind_ok, hopen, Res.bind_ok, hm, Res.bind_ok, hcharge, Res.bind_ok]
    by_cases hall : gas < callGas input.length m
    · rw [if_pos hall, Res.refuse, if_pos hall, Res.bind_fail]
    · rw [if_neg hall, Res.refuse_of_not hall, Res.bind_ok]

end Return

end Ureth.Source.B2
