import Ureth.Foundation.Collision
import Ureth.Source.B2.HistoryChain

/-!
# What a nullifier commits to

The nullifier of a return is a hash over the configuration, the state ID of the
last owner at the last source state, and the burn transaction. The source state is
itself a hash chain that starts at the token ID and takes up one mask a transfer.
Unwinding two such hashes level by level either recovers the same path or meets
two different strings with one hash; a chain start is never mistaken for a chain
step, because the one hashes a 32-byte and the other a 34-byte string first.
-/

namespace Ureth.Source.B2
open Ureth.Foundation
open Ureth.Foundation.Cbor (Value)
open Cbor (Item Items Scanned bytes uint array)
open Ureth.Source.B1.Cbor (usizeMax usizeMax_lt)

/-- Everything the nullifier of a return is computed from. -/
structure NullifierPath where
  cfg : Bytes
  id : Bytes32
  /-- The masks of the transfers before the burn, in order. -/
  masks : List Bytes
  /-- The predicate of the owner who burns. -/
  owner : Bytes
  burn : Bytes

/-! ## Hashed strings -/

section Strings

variable (H : Bytes → Bytes32)

def sourceString (id : Bytes32) : Bytes := array [bytes id.val, bytes (H (ascii "TOKENID")).val]

def stateString (source : Bytes32) (mask : Bytes) : Bytes :=
  array [bytes (0 :: 0 :: source.val), bytes mask]

/-- The source state after the masks. -/
def stateAfter (source : Bytes32) (masks : List Bytes) : Bytes32 := masks.foldl (outputState H) source

/-- The strings hashed on the way to `stateAfter`. -/
def chainStrings (source : Bytes32) : List Bytes → List Bytes
  | [] => []
  | mask :: masks => stateString source mask :: chainStrings (outputState H source mask) masks

namespace NullifierPath

variable (p : NullifierPath)

def state : Bytes32 := stateAfter H (mintSource H p.id) (p.id.val :: p.masks)

def sidString : Bytes := array [p.owner, bytes (p.state H).val]

def burnString : Bytes :=
  array [bytes (ascii "unicity-burn-transition:v1"), bytes (sidOf H p.owner (p.state H)).val,
    bytes (H p.burn).val]

def nullifierString : Bytes :=
  array [bytes (ascii "UNICITY_BR_NUL"), bytes (H p.cfg).val, bytes (H (p.burnString H)).val]

def nullifier : Bytes32 := H (p.nullifierString H)

/-- All strings hashed for the nullifier. -/
def strings : List Bytes :=
  [p.nullifierString H, p.cfg, p.burnString H, p.burn, p.sidString H, sourceString H p.id] ++
    chainStrings H (mintSource H p.id) (p.id.val :: p.masks)

/-- The owner is a scanned predicate and the masks are as long as decoding leaves them. -/
structure Valid : Prop where
  owner : ∃ u, Value.All Value.Fits u ∧ p.owner = u.encode
  masks : ∀ m ∈ p.masks, m.length = 32

end NullifierPath

end Strings

/-! ## Unwinding -/

/-- Arrays of values are told apart by their bytes. -/
theorem array_inj {ts us : List Value} (hts : Value.All Value.Fits (.array ts))
    (hus : Value.All Value.Fits (.array us))
    (h : array (ts.map Value.encode) = array (us.map Value.encode)) : ts = us := by
  rw [Cbor.array_eq_encode, Cbor.array_eq_encode] at h
  exact Value.array.inj (Value.encode_inj hts hus h)

theorem fits_bytes {b : Bytes} (h : b.length < 2 ^ 64) : Value.All Value.Fits (.bytes b) :=
  ⟨h, by simp⟩

/-- A short array of byte strings is told apart by its bytes. -/
theorem array_bytes_inj (as bs : List Bytes) (has : ∀ a ∈ as, a.length < 2 ^ 64) (hbs : ∀ b ∈ bs, b.length < 2 ^ 64)
    (hla : as.length < 2 ^ 64) (hlb : bs.length < 2 ^ 64)
    (h : array (as.map bytes) = array (bs.map bytes)) : as = bs := by
  have hmap : ∀ l : List Bytes, l.map bytes = (l.map Value.bytes).map Value.encode := by
    intro l
    rw [List.map_map]
    exact List.map_congr_left fun b _ => Cbor.bytes_eq_encode b
  have hfits : ∀ l : List Bytes, (∀ a ∈ l, a.length < 2 ^ 64) → l.length < 2 ^ 64 →
      Value.All Value.Fits (.array (l.map Value.bytes)) := by
    intro l hl hlen
    refine Value.all_fits_array (by rwa [List.length_map]) ?_
    intro t ht
    obtain ⟨a, ha, rfl⟩ := List.mem_map.mp ht
    exact fits_bytes (hl a ha)
  rw [hmap, hmap] at h
  have heq := array_inj (hfits as has hla) (hfits bs hbs hlb) h
  exact List.map_injective_iff.mpr (fun _ _ => Value.bytes.inj) heq

section Unwind

variable {H : Bytes → Bytes32}

theorem sourceString_inj {id id' : Bytes32} (h : sourceString H id = sourceString H id') : id = id' := by
  have heq := array_bytes_inj [id.val, (H (ascii "TOKENID")).val]
    [id'.val, (H (ascii "TOKENID")).val] (by simp) (by simp) (by simp) (by simp) h
  exact Subtype.ext (List.cons.inj heq).1

theorem stateString_inj {s s' : Bytes32} {m m' : Bytes} (hm : m.length < 2 ^ 64) (hm' : m'.length < 2 ^ 64)
    (h : stateString s m = stateString s' m') : s = s' ∧ m = m' := by
  have heq := array_bytes_inj [0 :: 0 :: s.val, m] [0 :: 0 :: s'.val, m']
    (by simpa using hm) (by simpa using hm') (by simp) (by simp) h
  simp only [List.cons.injEq, true_and, and_true] at heq
  exact ⟨Subtype.ext heq.1, heq.2⟩

/-- A chain starts with a string that is no chain step's. -/
theorem sourceString_ne_stateString {id s : Bytes32} {m : Bytes} (hm : m.length < 2 ^ 64) :
    sourceString H id ≠ stateString s m := by
  intro h
  have heq := array_bytes_inj [id.val, (H (ascii "TOKENID")).val] [0 :: 0 :: s.val, m]
    (by simp) (by simpa using hm) (by simp) (by simp) h
  have hlen := congrArg List.length (List.cons.inj heq).1
  simp at hlen

theorem stateAfter_concat (source : Bytes32) (masks : List Bytes) (mask : Bytes) :
    stateAfter H source (masks ++ [mask]) = H (stateString (stateAfter H source masks) mask) := by
  rw [stateAfter, List.foldl_append]
  rfl

theorem chainStrings_concat (source : Bytes32) (masks : List Bytes) (mask : Bytes) :
    chainStrings H source (masks ++ [mask]) =
      chainStrings H source masks ++ [stateString (stateAfter H source masks) mask] := by
  induction masks generalizing source with
  | nil => rfl
  | cons m ms ih => simp [chainStrings, stateAfter, ih]

/-- The last step of a chain whose strings are all listed. -/
theorem mem_of_chainStrings_concat {strings : List Bytes} {source : Bytes32} {masks : List Bytes}
    {mask : Bytes} (h : ∀ x ∈ chainStrings H source (masks ++ [mask]), x ∈ strings) :
    stateString (stateAfter H source masks) mask ∈ strings ∧
      ∀ x ∈ chainStrings H source masks, x ∈ strings := by
  rw [chainStrings_concat] at h
  exact ⟨h _ (by simp), fun x hx => h x (by simp [hx])⟩

/-- Two chains to one state are one chain, by induction on their last steps. -/
theorem chain_inj {strings : List Bytes} (hinj : Set.InjOn H {x | x ∈ strings}) {id id' : Bytes32}
    (masks masks' : List Bytes) (hmasks : ∀ m ∈ masks, m.length < 2 ^ 64)
    (hmasks' : ∀ m ∈ masks', m.length < 2 ^ 64) (hid : sourceString H id ∈ strings)
    (hid' : sourceString H id' ∈ strings)
    (hin : ∀ x ∈ chainStrings H (mintSource H id) masks, x ∈ strings)
    (hin' : ∀ x ∈ chainStrings H (mintSource H id') masks', x ∈ strings)
    (h : stateAfter H (mintSource H id) masks = stateAfter H (mintSource H id') masks') :
    id = id' ∧ masks = masks' := by
  induction masks using List.reverseRecOn generalizing masks' with
  | nil =>
    cases masks' using List.reverseRecOn with
    | nil => exact ⟨sourceString_inj (hinj hid hid' h), rfl⟩
    | append_singleton ms' m' =>
      obtain ⟨hlast', -⟩ := mem_of_chainStrings_concat hin'
      rw [stateAfter_concat] at h
      exact absurd (hinj hid hlast' h) (sourceString_ne_stateString (hmasks' m' (by simp)))
  | append_singleton ms m ih =>
    obtain ⟨hlast, hinit⟩ := mem_of_chainStrings_concat hin
    rw [stateAfter_concat] at h
    cases masks' using List.reverseRecOn with
    | nil => exact absurd (hinj hid' hlast h.symm) (sourceString_ne_stateString (hmasks m (by simp)))
    | append_singleton ms' m' =>
      obtain ⟨hlast', hinit'⟩ := mem_of_chainStrings_concat hin'
      rw [stateAfter_concat] at h
      obtain ⟨hstate, rfl⟩ := stateString_inj (hmasks m (by simp)) (hmasks' m' (by simp))
        (hinj hlast hlast' h)
      obtain ⟨rfl, rfl⟩ := ih ms' (fun x hx => hmasks x (by simp [hx])) (fun x hx => hmasks' x (by simp [hx]))
        hinit hinit' hstate
      exact ⟨rfl, rfl⟩

namespace NullifierPath

variable {p p' : NullifierPath}

/-- A nullifier determines its path, unless two of the hashed strings collide. -/
theorem eq_of_nullifier_eq (hp : p.Valid) (hp' : p'.Valid) (h : p.nullifier H = p'.nullifier H) :
    p = p' ∨ Collision H (p.strings H ++ p'.strings H) := by
  by_cases hcol : Collision H (p.strings H ++ p'.strings H)
  · exact .inr hcol
  refine .inl ?_
  have hinj := injOn_of_not_collision hcol
  have hmem : ∀ x ∈ p.strings H, x ∈ p.strings H ++ p'.strings H := fun x hx => by simp [hx]
  have hmem' : ∀ x ∈ p'.strings H, x ∈ p.strings H ++ p'.strings H := fun x hx => by simp [hx]
  -- each hash on the way down is opened by the absence of collisions
  have hnull : p.nullifierString H = p'.nullifierString H :=
    hinj (hmem _ (by simp [strings])) (hmem' _ (by simp [strings])) h
  have hnull := array_bytes_inj
    [ascii "UNICITY_BR_NUL", (H p.cfg).val, (H (p.burnString H)).val]
    [ascii "UNICITY_BR_NUL", (H p'.cfg).val, (H (p'.burnString H)).val]
    (by simp [ascii]) (by simp [ascii]) (by simp) (by simp) hnull
  simp only [List.cons.injEq, true_and, and_true] at hnull
  have hcfg : p.cfg = p'.cfg :=
    hinj (hmem _ (by simp [strings])) (hmem' _ (by simp [strings])) (Subtype.ext hnull.1)
  have hburn : p.burnString H = p'.burnString H :=
    hinj (hmem _ (by simp [strings])) (hmem' _ (by simp [strings])) (Subtype.ext hnull.2)
  have hburn := array_bytes_inj
    [ascii "unicity-burn-transition:v1", (sidOf H p.owner (p.state H)).val, (H p.burn).val]
    [ascii "unicity-burn-transition:v1", (sidOf H p'.owner (p'.state H)).val, (H p'.burn).val]
    (by simp [ascii]) (by simp [ascii]) (by simp) (by simp) hburn
  simp only [List.cons.injEq, true_and, and_true] at hburn
  have hraw : p.burn = p'.burn :=
    hinj (hmem _ (by simp [strings])) (hmem' _ (by simp [strings])) (Subtype.ext hburn.2)
  have hsid : p.sidString H = p'.sidString H :=
    hinj (hmem _ (by simp [strings])) (hmem' _ (by simp [strings])) (Subtype.ext hburn.1)
  obtain ⟨u, hu, howner⟩ := hp.owner
  obtain ⟨u', hu', howner'⟩ := hp'.owner
  have hpair : [u, .bytes (p.state H).val] = [u', .bytes (p'.state H).val] := by
    refine array_inj (Value.all_fits_array (by simp) ?_) (Value.all_fits_array (by simp) ?_) ?_
    · simpa using ⟨hu, fits_bytes (by simp)⟩
    · simpa using ⟨hu', fits_bytes (by simp)⟩
    · simpa [sidString, howner, howner', Cbor.bytes_eq_encode] using hsid
  simp only [List.cons.injEq, Value.bytes.injEq, and_true] at hpair
  obtain ⟨rfl, hstate⟩ := hpair
  obtain ⟨hid, hmasks⟩ := chain_inj hinj (p.id.val :: p.masks) (p'.id.val :: p'.masks)
    (by simpa using fun m hm => (hp.masks m hm).trans_lt (by decide))
    (by simpa using fun m hm => (hp'.masks m hm).trans_lt (by decide))
    (hmem _ (by simp [strings])) (hmem' _ (by simp [strings]))
    (fun x hx => hmem x (by simp [strings, hx])) (fun x hx => hmem' x (by simp [strings, hx]))
    (Subtype.ext hstate)
  cases p
  cases p'
  simp_all

end NullifierPath

end Unwind

/-! ## The path of an accepted return -/

/-- The predicate of the owner after some transfers. -/
def ownerAfter (owner : Item) (trs : List Transfer) : Item :=
  (trs.getLast?.map fun tr => tr.tx.pred).getD owner

/-- The path of the redeemed token's own history. -/
def NullifierPath.ofHistory (cfg : Cfg) (h : History) (id : Bytes32) : NullifierPath where
  cfg := cfg.raw
  id
  masks := h.transfers.dropLast.map fun tr => tr.tx.mask
  owner := (ownerAfter h.mint.fields[2] h.transfers.dropLast).raw
  burn := (h.transfers.getLast?.map fun tr => tr.tx.raw).getD []

/-- What both evaluations of a return establish of the redeemed token. -/
structure Redeemed (H : Bytes → Bytes32) (K : K256) (cfg : Cfg) (h : History) (id amount nullifier : Bytes32)
    (releaseTo : Fixed 20) : Prop where
  cfg_ok : ∃ it, Scanned it ∧ Cfg.parse H it = .ok cfg
  history_ok : HistoryOk h
  identity : id = hashArray H [bytes h.mint.fields[3].data, uint cfg.network]
  spent : ∃ rest leaf, Transitions H K h.mint.fields[2] (outputState H (mintSource H id) id.val)
    h.transfers rest ∧ rest.getLast? = some leaf ∧ nullifier = nullifierOf H (H cfg.raw) leaf
  burnt : ∃ last items data r, Items.Word items ∧ h.transfers.getLast? = some last ∧
    ReturnBurn H cfg amount last.tx items releaseTo data r

section Redeemed

variable {H : Bytes → Bytes32} {K : K256}

/-- The last leaf of a chain: the last owner at the last state, and the last transaction. -/
theorem Transitions.last_leaf {owner : Item} {state : Bytes32} {trs : List Transfer} {leaves : List Leaf}
    (h : Transitions H K owner state trs leaves) {tr : Transfer} (htr : trs.getLast? = some tr)
    {leaf : Leaf} (hleaf : leaves.getLast? = some leaf) :
    leaf.sid = sidOf H (ownerAfter owner trs.dropLast).raw
        (stateAfter H state (trs.dropLast.map fun tr => tr.tx.mask)) ∧
      leaf.txHash = H tr.tx.raw := by
  induction h with
  | nil => simp at htr
  | @cons owner state tr' trs leaf' leaves _ _ _ _ _ hcert hrest ih =>
    cases hrest with
    | nil =>
      simp only [List.getLast?_singleton, Option.some.injEq] at htr hleaf
      subst htr hleaf
      rw [hcert.leaf_eq]
      exact ⟨rfl, rfl⟩
    | @cons _ _ next trs leaf'' leaves _ _ _ hpred hkey hcert' hmore =>
      rw [List.getLast?_cons_cons] at htr hleaf
      obtain ⟨hsid, htx⟩ := ih htr hleaf
      refine ⟨?_, htx⟩
      have howner : ∀ l : List Transfer, ownerAfter owner (tr' :: l) = ownerAfter tr'.tx.pred l := by
        intro l
        cases l with
        | nil => rfl
        | cons x xs => rw [ownerAfter, ownerAfter, List.getLast?_cons_cons, List.getLast?_cons]; rfl
      rw [hsid, List.dropLast_cons_cons, howner]
      rfl

namespace Redeemed

variable {cfg : Cfg} {h : History} {id amount nullifier : Bytes32} {releaseTo : Fixed 20}

theorem nullifier_eq (hr : Redeemed H K cfg h id amount nullifier releaseTo) :
    nullifier = (NullifierPath.ofHistory cfg h id).nullifier H := by
  obtain ⟨rest, leaf, hchain, hleaf, rfl⟩ := hr.spent
  obtain ⟨last, items, data, r, -, hlast, -⟩ := hr.burnt
  obtain ⟨hsid, htx⟩ := hchain.last_leaf hlast hleaf
  have hstate : (NullifierPath.ofHistory cfg h id).state H =
      stateAfter H (outputState H (mintSource H id) id.val)
        (h.transfers.dropLast.map fun tr => tr.tx.mask) := rfl
  have hburn : (NullifierPath.ofHistory cfg h id).burn = last.tx.raw := by
    simp [NullifierPath.ofHistory, hlast]
  simp only [nullifierOf, NullifierPath.nullifier, NullifierPath.nullifierString,
    NullifierPath.burnString, hstate, hburn, hsid, htx]
  rfl

theorem owner_scanned (hr : Redeemed H K cfg h id amount nullifier releaseTo) :
    Scanned (ownerAfter h.mint.fields[2] h.transfers.dropLast) := by
  rw [ownerAfter]
  cases hlast : h.transfers.dropLast.getLast? with
  | none => exact hr.history_ok.mint.fields 2 (by omega)
  | some tr =>
    exact (hr.history_ok.transfers tr
      (List.dropLast_subset _ (List.mem_of_getLast? hlast))).scanned

theorem path_valid (hr : Redeemed H K cfg h id amount nullifier releaseTo) :
    (NullifierPath.ofHistory cfg h id).Valid := by
  obtain ⟨u, hu, howner⟩ := hr.owner_scanned
  refine ⟨⟨u, hu.fits, by rw [NullifierPath.ofHistory, howner]; rfl⟩, ?_⟩
  intro m hm
  obtain ⟨tr, htr, rfl⟩ := List.mem_map.mp hm
  obtain ⟨it, hit, htx⟩ := (hr.history_ok.transfers tr (List.dropLast_subset _ htr)).item
  exact (transfer_ok hit htx).mask

end Redeemed

/-- Items with one encoding are one item. -/
theorem scanned_eq_of_raw {a b : Item} (ha : Scanned a) (hb : Scanned b) (h : a.raw = b.raw) : a = b := by
  obtain ⟨t, ht, rfl⟩ := ha
  obtain ⟨u, hu, rfl⟩ := hb
  rw [Value.encode_inj ht.fits hu.fits h]

theorem parse_raw {it : Item} {cfg : Cfg} (h : Cfg.parse H it = .ok cfg) : cfg.raw = it.raw := by
  simp only [Cfg.parse, Res.bind_eq_ok, Res.pure_eq_ok] at h
  obtain ⟨_, -, _, -, _, -, _, -, _, -, _, -, _, -, _, -, _, -, _, -, _, -, _, -, _, -, _, -, _, -, _, -, _,
    -, _, -, rfl⟩ := h
  rfl

/-- A burn's recipient and amount are read from its transaction. -/
theorem ReturnBurn.unique {cfg : Cfg} {amt amt' : Bytes32} {tx : Tx} {items items' : Items}
    (hword : Items.Word items) (hword' : Items.Word items') {releaseTo releaseTo' : Fixed 20}
    {data data' : Bytes} {r r' : FieldList Item 11}
    (h : ReturnBurn H cfg amt tx items releaseTo data r)
    (h' : ReturnBurn H cfg amt' tx items' releaseTo' data' r') : releaseTo = releaseTo' ∧ amt = amt' := by
  obtain rfl : data = data' := Option.some.inj (h.data_eq.symm.trans h'.data_eq)
  obtain rfl : r = r' := by
    have hf := h.fields
    have hf' := h'.fields
    rw [Res.bind_eq_ok] at hf hf'
    obtain ⟨it, hit, hr⟩ := hf
    obtain ⟨it', hit', hr'⟩ := hf'
    have hraw : it.raw = it'.raw := (Cbor.raw_of_one hword hit).trans (Cbor.raw_of_one hword' hit').symm
    have hsame := scanned_eq_of_raw (Cbor.scanned_of_one hword hit) (Cbor.scanned_of_one hword' hit') hraw
    rw [hsame, hr', Except.ok.injEq] at hr
    exact hr.symm
  obtain ⟨a, ha, haw⟩ := h.amount
  obtain ⟨a', ha', haw'⟩ := h'.amount
  obtain rfl : a = a' := Except.ok.inj (ha.symm.trans ha')
  exact ⟨Subtype.ext (Except.ok.inj (h.recipient.symm.trans h'.recipient)),
    Except.ok.inj (haw.symm.trans haw')⟩

/-- Everything two returns with one path share. -/
theorem Redeemed.same {cfg cfg' : Cfg} {h h' : History} {id id' amount amount' nullifier nullifier' : Bytes32}
    {releaseTo releaseTo' : Fixed 20} (hr : Redeemed H K cfg h id amount nullifier releaseTo)
    (hr' : Redeemed H K cfg' h' id' amount' nullifier' releaseTo')
    (hpath : NullifierPath.ofHistory cfg h id = NullifierPath.ofHistory cfg' h' id') :
    cfg = cfg' ∧ id = id' ∧
      h.transfers.map (fun tr => tr.tx.mask) = h'.transfers.map (fun tr => tr.tx.mask) ∧
      (ownerAfter h.mint.fields[2] h.transfers.dropLast).raw =
        (ownerAfter h'.mint.fields[2] h'.transfers.dropLast).raw ∧
      h.transfers.getLast?.map (fun tr => tr.tx.raw) = h'.transfers.getLast?.map (fun tr => tr.tx.raw) ∧
      releaseTo = releaseTo' ∧ amount = amount' := by
  simp only [NullifierPath.ofHistory, NullifierPath.mk.injEq] at hpath
  obtain ⟨hraw, hid, hmasks, howner, hburn⟩ := hpath
  obtain ⟨it, hit, hparse⟩ := hr.cfg_ok
  obtain ⟨it', hit', hparse'⟩ := hr'.cfg_ok
  rw [parse_raw hparse, parse_raw hparse'] at hraw
  obtain rfl := scanned_eq_of_raw hit hit' hraw
  obtain rfl : cfg = cfg' := Except.ok.inj (hparse.symm.trans hparse')
  obtain ⟨last, items, data, r, hword, hlast, hb⟩ := hr.burnt
  obtain ⟨last', items', data', r', hword', hlast', hb'⟩ := hr'.burnt
  have htx : last.tx = last'.tx := by
    obtain ⟨x, hx, htx⟩ := (hr.history_ok.transfers last (List.mem_of_getLast? hlast)).item
    obtain ⟨x', hx', htx'⟩ := (hr'.history_ok.transfers last' (List.mem_of_getLast? hlast')).item
    simp only [hlast, hlast', Option.map_some, Option.getD_some] at hburn
    rw [(transfer_ok hx htx).raw, (transfer_ok hx' htx').raw] at hburn
    obtain rfl := scanned_eq_of_raw hx hx' hburn
    exact Except.ok.inj (htx.symm.trans htx')
  rw [← htx] at hb'
  obtain ⟨hrel, hamt⟩ := hb.unique hword hword' hb'
  refine ⟨rfl, hid, ?_, howner, by simp [hlast, hlast', htx], hrel, hamt⟩
  rw [← List.dropLast_append_getLast? last hlast, ← List.dropLast_append_getLast? last' hlast',
    List.map_append, List.map_append, hmasks, List.map_singleton, List.map_singleton, htx]

/-- The nullifier needs of a history only its first owner and salt and its transactions. -/
theorem Redeemed.nullifier_congr {cfg : Cfg} {h h' : History}
    {id id' amount amount' nullifier nullifier' : Bytes32} {releaseTo releaseTo' : Fixed 20}
    (hr : Redeemed H K cfg h id amount nullifier releaseTo)
    (hr' : Redeemed H K cfg h' id' amount' nullifier' releaseTo')
    (howner : h.mint.fields[2] = h'.mint.fields[2]) (hsalt : h.mint.fields[3] = h'.mint.fields[3])
    (htxs : h.transfers.map Transfer.tx = h'.transfers.map Transfer.tx) : nullifier = nullifier' := by
  have hid : id = id' := by rw [hr.identity, hr'.identity, hsalt]
  have hlast : ∀ {α : Type} (f : Tx → α) (trs : List Transfer),
      trs.getLast?.map (fun tr => f tr.tx) = ((trs.map Transfer.tx).getLast?).map f := by
    intro α f trs
    rw [List.getLast?_map, Option.map_map]
    rfl
  have hinit : ∀ trs : List Transfer, trs.dropLast.map Transfer.tx = (trs.map Transfer.tx).dropLast :=
    fun trs => List.map_dropLast
  have hpath : NullifierPath.ofHistory cfg h id = NullifierPath.ofHistory cfg h' id' := by
    have hmasks : ∀ trs : List Transfer, trs.dropLast.map (fun tr => tr.tx.mask) =
        ((trs.map Transfer.tx).dropLast).map Tx.mask := by
      intro trs
      rw [← hinit, List.map_map]
      rfl
    simp only [NullifierPath.ofHistory, ownerAfter, hlast, hinit, hmasks, htxs, howner, hid]
  rw [hr.nullifier_eq, hr'.nullifier_eq, hpath]

/-! ## The two evaluations -/

/-- A return accepted by the one-pass evaluation. -/
theorem evaluate_redeemed {cfgItem payload : Item} (hc : Scanned cfgItem) (hp : Scanned payload)
    {maxTransfers : Nat} {items : Items} (hitems : Items.Word items) {o : Outcome}
    (h : evaluate H K 2 cfgItem payload maxTransfers items = .ok o) :
    ∃ cfg hist, Cfg.parse H cfgItem = .ok cfg ∧ decodeFields K payload maxTransfers = .ok hist ∧
      Redeemed H K cfg hist o.tokenId o.amount o.nullifier o.releaseTo := by
  simp only [evaluate, show ¬ (2 : Nat) = 0 by decide, if_false, show ¬ (2 : Nat) = 1 by decide,
    false_and, true_and, Res.bind_eq_ok, Res.refuse_eq_ok, not_false_eq_true, exists_const,
    Res.unwrap_eq_ok, Prod.exists] at h
  obtain ⟨cfg, hcfg, hist, hdec, hcount, n, amt, hmint, nonce, rfl, base, hbase, first, seen, hfirst,
    hrun⟩ := h
  have hhist := decodeFields_ok hp hdec
  obtain ⟨rest, seen', last, leaf, releaseTo, hrest, hlast, hleaf, hburn, -, rfl⟩ :=
    (evaluateTransfers_ok _ _ _ _ _ _ (hhist.transfers_ne_nil hcount)).mp hrun
  obtain ⟨data, r, hburn⟩ := burn_ok hburn
  have hroot := mintedRoot_of hmint hbase
  refine ⟨cfg, hist, hcfg, hdec, ⟨cfgItem, hc, hcfg⟩, hhist, ?_, ?_, ⟨last, items, data, r, hitems, hlast, hburn⟩⟩
  · rw [hroot.salt]
    exact hroot.tokenId
  · refine ⟨rest, leaf, (levelTransfers_chain hrest).1, hleaf, ?_⟩
    rw [← (derive_eq_ok hbase).2.1]

section Level

variable {cfg : Cfg} {proj : Bytes} {lv : Verified} {seen seen' : List Bytes32} {items : Items}

/-- A level's token ID is the one of its salt, also at the root. -/
theorem levelIdentity_id {m : Mint} {root : Bool} {n : Option Nat} {amt : Bytes} {id : Bytes32}
    {base : Option Outcome} (hmint : verifyMint H cfg m root items = .ok (n, amt))
    (h : levelIdentity H K cfg m n amt = .ok (id, base)) :
    id = hashArray H [bytes m.fields[3].data, uint cfg.network] := by
  cases n with
  | none =>
    simp only [levelIdentity, Except.ok.injEq, Prod.mk.injEq] at h
    exact h.1.symm
  | some n =>
    obtain rfl : true = root := (verifyMint_ok hmint).2.1
    simp only [levelIdentity, Res.bind_eq_ok, Res.pure_eq_ok, Prod.mk.injEq] at h
    obtain ⟨out, hout, rfl, -⟩ := h
    have hroot := mintedRoot_of hmint hout
    rw [hroot.salt]
    exact hroot.tokenId

/-- A level that ends in the return burn. -/
theorem level_redeemed {root : Bool} {out out' : Outcome} {z : Bytes32}
    (hcfg : ∃ it, Scanned it ∧ Cfg.parse H it = .ok cfg)
    (hlevel : level H K cfg proj root seen (.perObject Items.max) = .ok (lv, seen'))
    (hterm : levelTerminal H cfg 0 lv proj out = .ok (out', z)) :
    ∃ p hist, Cbor.one proj (.perObject usizeMax) = .ok p ∧ decodeFields K p u64Max = .ok hist ∧
      Redeemed H K cfg hist out'.partTokenId out'.partAmount out'.nullifier out'.releaseTo := by
  simp only [level, Res.bind_eq_ok, Res.refuse_eq_ok, exists_const, Res.unwrap_eq_ok, Res.pure_eq_ok, Prod.mk.injEq] at hlevel
  obtain ⟨p, hp, hist, hdec, hcount, ⟨n, amt⟩, hmint, ⟨id, base⟩, hid, amount, -, ⟨first, seen1⟩, -,
    ⟨rest, seen2⟩, hrest, leaf, hleaf, salt, -, ty, -, data, -, rfl, rfl⟩ := hlevel
  have hwide := Cbor.one_mono (show Items.max ≤ usizeMax by decide) usizeMax_lt hp
  have hhist := decodeFields_ok (Cbor.scanned_of_one items_default_word hp) hdec
  have hne := hhist.transfers_ne_nil hcount
  obtain ⟨last, hlast⟩ : ∃ last, hist.transfers.getLast? = some last :=
    ⟨_, List.getLast?_eq_some_getLast hne⟩
  simp only [levelTerminal, partTerminal, terminalTx_of_decodeFields hwide hdec hlast, if_true,
    Res.bind_eq_ok, Res.bind_ok, Res.refuse_eq_ok, exists_const, Res.pure_eq_ok,
    Prod.mk.injEq] at hterm
  obtain ⟨_, ⟨releaseTo, hburn, -, rfl⟩, rfl, -⟩ := hterm
  obtain ⟨burnData, r, hburn⟩ := burn_ok hburn
  rw [getLast_of_level hrest hne] at hleaf
  exact ⟨p, hist, hwide, hdec, hcfg, hhist, levelIdentity_id hmint hid,
    ⟨rest, leaf, (levelTransfers_chain hrest).1, hleaf, rfl⟩,
    ⟨last, .default, burnData, r, items_default_word, hlast, hburn⟩⟩

end Level

variable {σ : Type} {charge : Nat → Run σ Error Unit}

/-- The last level a run verifies is level 0. -/
theorem verifyLevels_last {cfg : Cfg} {w : Walked} {d n : Nat} {st st' : VerifyState} {s s' : σ}
    (h : verifyLevels H K charge cfg w d (n + 1) st s = (.ok st', s')) :
    ∃ st0 s0, verifyLevel H K charge cfg w d 0 st0 s0 = (.ok st', s') := by
  induction n generalizing st s with
  | zero =>
    simp only [verifyLevels, Run.bind_eq_ok, Run.pure_apply, Prod.mk.injEq, Except.ok.injEq] at h
    obtain ⟨st1, s1, hlevel, rfl, rfl⟩ := h
    exact ⟨st, s, hlevel⟩
  | succ n ih =>
    rw [verifyLevels, Run.bind_eq_ok] at h
    obtain ⟨st1, s1, -, hrest⟩ := h
    exact ih hrest

/-- A return accepted by the lineage relation. -/
theorem lineage_redeemed {cfgBytes history : Bytes} {o : Outcome} {s s' : σ}
    (h : Lineage.relation H K charge cfgBytes history s = (.ok o, s')) :
    ∃ cfg p hist, parseCfg H cfgBytes = .ok cfg ∧ Cbor.one history (.perObject usizeMax) = .ok p ∧
      decodeFields K p u64Max = .ok hist ∧
      Redeemed H K cfg hist o.partTokenId o.partAmount o.nullifier o.releaseTo := by
  obtain ⟨cfg, ancestors, levels, st, hcfg, -, rfl, -, s1, s2, hrun⟩ := relation_ok h
  obtain ⟨it, hit, -, hparse⟩ := parseCfg_ok.mp hcfg
  obtain ⟨st0, s0, hlast⟩ := verifyLevels_last hrun
  have hproj : (Walked.through history ancestors).projs[0]? = some history := rfl
  simp only [verifyLevel, Run.bind_eq_ok, Run.lift_apply, Prod.mk.injEq, Run.pure_apply,
    Except.ok.injEq, Res.index_eq_ok, hproj, Option.some.injEq] at hlast
  obtain ⟨_, _, ⟨rfl, rfl⟩, ⟨lv, seen⟩, _, ⟨hlevel, rfl⟩, _, _, -, ⟨out, root⟩, _, ⟨hterm, rfl⟩, out', _,
    ⟨htake, -⟩, rfl, -⟩ := hlast
  obtain ⟨p, hist, hp, hdec, hr⟩ :=
    level_redeemed ⟨it, Cbor.scanned_of_one items_default_word hit, hparse⟩ hlevel hterm
  refine ⟨cfg, p, hist, hcfg, hp, hdec, ?_⟩
  unfold takeBase at htake
  split at htake
  · simp only [Res.bind_eq_ok, Res.pure_eq_ok] at htake
    obtain ⟨base, -, rfl⟩ := htake
    exact hr
  · obtain rfl := Except.ok.inj htake
    exact hr

/-- The returns either evaluation accepts: the configuration, the history of the redeemed token, its ID
and amount, the nullifier and the recipient. -/
inductive AcceptedReturn (H : Bytes → Bytes32) (K : K256) :
    Cfg → History → Bytes32 → Bytes32 → Bytes32 → Fixed 20 → Prop where
  | evaluated {cfgItem payload : Item} {maxTransfers : Nat} {items : Items} {cfg : Cfg} {hist : History}
      {o : Outcome} (hc : Scanned cfgItem) (hp : Scanned payload) (hitems : Items.Word items)
      (hcfg : Cfg.parse H cfgItem = .ok cfg) (hdec : decodeFields K payload maxTransfers = .ok hist)
      (h : evaluate H K 2 cfgItem payload maxTransfers items = .ok o) :
      AcceptedReturn H K cfg hist o.tokenId o.amount o.nullifier o.releaseTo
  | lineage {σ : Type} {charge : Nat → Run σ Error Unit} {cfgBytes history : Bytes} {payload : Item}
      {cfg : Cfg} {hist : History} {o : Outcome} {s s' : σ} (hcfg : parseCfg H cfgBytes = .ok cfg)
      (hp : Cbor.one history (.perObject usizeMax) = .ok payload)
      (hdec : decodeFields K payload u64Max = .ok hist)
      (h : Lineage.relation H K charge cfgBytes history s = (.ok o, s')) :
      AcceptedReturn H K cfg hist o.partTokenId o.partAmount o.nullifier o.releaseTo

theorem AcceptedReturn.redeemed {cfg : Cfg} {hist : History} {id amount nullifier : Bytes32}
    {releaseTo : Fixed 20} (h : AcceptedReturn H K cfg hist id amount nullifier releaseTo) :
    Redeemed H K cfg hist id amount nullifier releaseTo := by
  cases h with
  | evaluated hc hp hitems hcfg hdec h =>
    obtain ⟨cfg', hist', hcfg', hdec', hr⟩ := evaluate_redeemed hc hp hitems h
    obtain rfl := Except.ok.inj (hcfg.symm.trans hcfg')
    obtain rfl := Except.ok.inj (hdec.symm.trans hdec')
    exact hr
  | lineage hcfg hp hdec h =>
    obtain ⟨cfg', p', hist', hcfg', hp', hdec', hr⟩ := lineage_redeemed h
    obtain rfl := Except.ok.inj (hcfg.symm.trans hcfg')
    obtain rfl := Except.ok.inj (hp.symm.trans hp')
    obtain rfl := Except.ok.inj (hdec.symm.trans hdec')
    exact hr

end Redeemed

end Ureth.Source.B2
