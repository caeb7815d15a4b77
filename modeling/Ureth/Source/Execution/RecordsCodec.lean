import Ureth.Foundation.Metered
import Ureth.Source.Execution.Records

/-!
# The codec of the root-record import is exact

The encoder of a `RecordImport`, and every step of the walk as a move over the bytes the encoder
writes, with the entries it pushes. A walk that collects and one that does not differ in nothing
else.
-/

namespace Ureth.Source.Execution
open Ureth.Foundation

/-! ## The encoder -/

def RecordEntry.toBytes (e : RecordEntry) : Bytes :=
  array 8 ++ uint e.index ++ bytes e.recordId.val ++ bytes e.predecessor.val ++
    uint e.kind.toUInt64 ++ uint e.progress ++ uint e.ucTime ++ bytes e.data.val ++
    uint e.closedEpoch

def RecordImport.toBytes (imp : RecordImport) : Bytes :=
  array 6 ++ text importDomain ++ uint imp.progress ++ uint imp.ucTime ++ uint imp.targetCount ++
    bytes imp.targetTip.val ++ array (.ofNat imp.entries.length) ++
    imp.entries.flatMap RecordEntry.toBytes

/-! ## Sizes -/

/-- The kind is known, the payload has its width and only a closure closes an epoch. -/
def RecordEntry.Sized (e : RecordEntry) : Prop :=
  payloadWidth e.kind.toUInt64 = some e.data.val.length ∧ (e.kind ≠ 4 → e.closedEpoch = 0)

/-- The entries are few and fit the schema, and an empty target has no tip. -/
def RecordImport.Sized (imp : RecordImport) : Prop :=
  imp.entries.length ≤ maxImportEntries ∧ (∀ e ∈ imp.entries, e.Sized) ∧
    (imp.targetCount = 0 → imp.targetTip = .zero 32)

def RecordImport.header (imp : RecordImport) : ImportHeader :=
  ⟨imp.progress, imp.ucTime, imp.targetCount, imp.targetTip, imp.entries.length⟩

/-- The number of tokens of an import. -/
def RecordImport.tokens (imp : RecordImport) : ℕ := 7 + entryTokens * imp.entries.length

/-! ## The walk -/

namespace Walk

def meter (w : Walk) : Metered := ⟨w.cursor, w.tokens⟩

/-- `w'` is `w` moved over the bytes `b` with `n` more tokens and the entries `es` pushed. -/
def Advance (w : Walk) (b : Bytes) (n : ℕ) (es : List RecordEntry) (w' : Walk) : Prop :=
  w'.collect = w.collect.map (· ++ es) ∧ w.meter.Advance maxImportTokens b n w'.meter

variable {w w' : Walk} {a b : Bytes} {k n : ℕ} {p q : List RecordEntry}

/-- A move over no bytes. -/
theorem advance_still : w.Advance [] n q w' ↔
    w' = ⟨w.cursor, w.tokens + n, w.collect.map (· ++ q)⟩ ∧
      (n = 0 ∨ w.tokens + n ≤ maxImportTokens) := by
  constructor
  · rintro ⟨hcollect, hcursor, htokens, hwithin⟩
    have hsame := Cursor.advance_nil.mp hcursor
    cases w'
    simp only [meter] at *
    subst hcollect hsame htokens
    exact ⟨rfl, hwithin⟩
  · rintro ⟨rfl, hwithin⟩
    exact ⟨rfl, Cursor.advance_nil.mpr rfl, rfl, hwithin⟩

theorem collect_append_nil (collect : Option (List RecordEntry)) : collect.map (· ++ []) = collect := by
  cases collect <;> simp

theorem advance_nil : w.Advance [] 0 [] w' ↔ w' = w := by
  rw [advance_still, collect_append_nil]
  exact and_iff_left (.inl rfl)

theorem advance_append : w.Advance (a ++ b) (k + n) (p ++ q) w' ↔
    ∃ t, w.Advance a k p t ∧ t.Advance b n q w' := by
  have hpush (o : Option (List RecordEntry)) :
      (o.map (· ++ p)).map (· ++ q) = o.map (· ++ (p ++ q)) := by
    cases o <;> simp
  constructor
  · rintro ⟨hcollect, hmeter⟩
    obtain ⟨t, ha, hb⟩ := Metered.advance_append.mp hmeter
    exact ⟨⟨t.cursor, t.tokens, w.collect.map (· ++ p)⟩, ⟨rfl, ha⟩, by rw [hcollect, hpush], hb⟩
  · rintro ⟨t, ⟨hcollect, ha⟩, hcollect', hb⟩
    refine ⟨?_, Metered.advance_append.mpr ⟨t.meter, ha, hb⟩⟩
    rw [hcollect', hcollect, hpush]

theorem read_iff {α : Type} {m : Decode α} {P : Prop} {x : α} {b : Bytes}
    (hread : ∀ c d, m c = (.ok x, d) ↔ P ∧ c.Advance b d) :
    read m w = (.ok x, w') ↔ P ∧ w.Advance b 0 [] w' := by
  have hrun : read m w = (.ok x, w') ↔
      m w.cursor = (.ok x, w'.cursor) ∧ w'.tokens = w.tokens ∧ w'.collect = w.collect := by
    cases w'
    simp only [read, Prod.ext_iff, Res.mapErr_eq_ok, Walk.mk.injEq]
    tauto
  rw [hrun, hread, and_assoc]
  refine and_congr_right fun _ => ?_
  constructor
  · rintro ⟨hcursor, htokens, hcollect⟩
    exact ⟨hcollect.trans (collect_append_nil _).symm, hcursor, htokens, .inl rfl⟩
  · rintro ⟨hcollect, hcursor, htokens, -⟩
    exact ⟨hcursor, htokens, hcollect.trans (collect_append_nil _)⟩

theorem uint_iff {v : UInt64} :
    read Decoder.readUint w = (.ok v, w') ↔ w.Advance (uint v) 0 [] w' := by
  rw [read_iff (P := True) fun c d => by rw [Decoder.readUint_eq_ok, true_and], true_and]

theorem word_iff {v : Bytes32} :
    read Decoder.readWord w = (.ok v, w') ↔ w.Advance (bytes v.val) 0 [] w' := by
  rw [read_iff (P := True) fun c d => by rw [Decoder.readWord_eq_ok, true_and], true_and]

theorem text_iff {v : Text} :
    read Decoder.readText w = (.ok v, w') ↔ w.Advance (text v.val) 0 [] w' := by
  rw [read_iff (P := True) fun c d => by rw [Decoder.readText_eq_ok, true_and], true_and]

theorem array_iff {count : ℕ} :
    read Decoder.readArray w = (.ok count, w') ↔
      count < 2 ^ 64 ∧ w.Advance (Cbor.head 4 count) 0 [] w' :=
  read_iff fun _ _ => Decoder.readArray_eq_ok

theorem boundedBytes_iff {what : String} {limit : ℕ} {v : ByteVec} :
    read (Decoder.readBoundedBytes what limit) w = (.ok v, w') ↔
      v.val.length ≤ limit ∧ w.Advance (bytes v.val) 0 [] w' :=
  read_iff fun _ _ => Decoder.readBoundedBytes_eq_ok

theorem finish_iff {u : Unit} :
    read Decoder.finish w = (.ok u, w') ↔ w.cursor.rest.length = 0 ∧ w' = w := by
  have hend (c : Cursor) : c.offset = c.input.length ↔ c.rest.length = 0 := by
    have := c.inside
    rw [Cursor.length_rest]
    omega
  cases w'
  simp only [read, Decoder.finish, Cursor.finish, Prod.mk.injEq, Res.mapErr_eq_ok, Res.refuse_eq_ok,
    not_not, hend]
  exact and_congr_right fun _ => eq_comm

theorem token_iff {u : Unit} (hn : 0 < n) : token n w = (.ok u, w') ↔ w.Advance [] n [] w' := by
  rw [advance_still, collect_append_nil]
  constructor
  · intro h
    obtain ⟨total, t, hread, hrest⟩ := Run.bind_eq_ok.mp h
    obtain ⟨_, t', hset, hlast⟩ := Run.bind_eq_ok.mp hrest
    obtain ⟨hsum, rfl⟩ := Prod.mk.inj hread
    obtain ⟨-, rfl⟩ := Res.checkedAdd_eq_ok.mp hsum
    obtain ⟨hle, rfl⟩ := Run.refuse_eq_ok.mp hlast
    exact ⟨Run.modify_eq_ok.mp hset, .inr (Nat.not_lt.mp hle)⟩
  · rintro ⟨rfl, hwithin⟩
    have hle : w.tokens + n ≤ maxImportTokens := hwithin.resolve_left hn.ne'
    have hmax : maxImportTokens = 512 := rfl
    have hsum : (Res.checkedAdd .overflow w.tokens n : Res ImportError ℕ) = .ok (w.tokens + n) :=
      Res.checkedAdd_eq_ok.mpr ⟨by omega, rfl⟩
    refine Run.bind_eq_ok.mpr ⟨_, w, Prod.ext hsum rfl, Run.bind_eq_ok.mpr ⟨(), _, rfl, ?_⟩⟩
    exact Run.refuse_eq_ok.mpr ⟨Nat.not_lt.mpr hle, rfl⟩

theorem arity_iff {count : ℕ} (hcount : count < 2 ^ 64) {u : Unit} :
    arity count w = (.ok u, w') ↔ w.Advance (array (.ofNat count)) 0 [] w' := by
  have heq : array (.ofNat count) = Cbor.head 4 count := by
    rw [array_eq, UInt64.toNat_ofNat', Nat.mod_eq_of_lt hcount]
  simp only [arity, Run.bind_eq_ok, Run.refuse_eq_ok, array_iff, not_not, heq]
  constructor
  · rintro ⟨_, _, ⟨-, h⟩, rfl, rfl⟩
    exact h
  · intro h
    exact ⟨count, w', ⟨hcount, h⟩, rfl, rfl⟩

theorem push_iff {e : RecordEntry} {u : Unit} :
    push e w = (.ok u, w') ↔ w.Advance [] 0 [e] w' := by
  rw [push, Run.modify_eq_ok, advance_still]
  exact (and_iff_left (.inl rfl)).symm

/-- A known kind is a byte. -/
theorem toUInt8_toUInt64_of_payloadWidth {kind : UInt64} {width : ℕ}
    (h : payloadWidth kind = some width) : kind.toUInt8.toUInt64 = kind := by
  unfold payloadWidth at h
  split_ifs at h with h1 h2 h3 h4 h5
  · subst h1; rfl
  · subst h2; rfl
  · subst h3; rfl
  · subst h4; rfl
  · subst h5; rfl

/-- The walk passes over the encoding of an entry that fits the schema and pushes it. -/
theorem entry_iff {u : Unit} :
    entry w = (.ok u, w') ↔
      ∃ e : RecordEntry, e.Sized ∧ w.Advance e.toBytes entryTokens [e] w' := by
  simp only [entry, Run.bind_eq_ok, Run.refuse_eq_ok, Run.lift_eq_ok, Res.okOr_eq_ok,
    token_iff (by decide : 0 < entryTokens), arity_iff (by omega : 8 < 2 ^ 64), uint_iff, word_iff,
    boundedBytes_iff, push_iff, not_not, not_and, existsAndEq, ← advance_append, and_assoc, Run.exists_guard,
    exists_and_left, exists_const, true_and, le_refl, @Run.exists_swap Walk UInt64, @Run.exists_swap Walk Bytes32,
    @Run.exists_swap Walk ByteVec, List.nil_append, List.append_nil, Nat.add_zero, UInt64.reduceOfNat]
  constructor
  · rintro ⟨index, id, previous, kind, progress, time, data, hwidth, closed, hclosed, h⟩
    have hkind := toUInt8_toUInt64_of_payloadWidth hwidth
    refine ⟨⟨index, id, previous, kind.toUInt8, progress, time, data, closed⟩,
      ⟨by rw [hkind, hwidth], fun hne => hclosed fun hfour => hne ?_⟩, ?_⟩
    · rw [hfour]
      rfl
    · simpa only [RecordEntry.toBytes, List.append_assoc, hkind] using h
  · rintro ⟨e, ⟨hwidth, hclosed⟩, h⟩
    have hkind : e.kind.toUInt64.toUInt8 = e.kind := by simp
    refine ⟨e.index, e.recordId, e.predecessor, e.kind.toUInt64, e.progress, e.ucTime, e.data, hwidth, e.closedEpoch,
      fun hne => hclosed fun hfour => hne ?_, ?_⟩
    · rw [hfour]
      rfl
    · simpa only [RecordEntry.toBytes, List.append_assoc, hkind] using h

theorem entries_iff {count : ℕ} {outs : List Unit} :
    entry.times count w = (.ok outs, w') ↔
      ∃ es : List RecordEntry, es.length = count ∧ (∀ e ∈ es, e.Sized) ∧
        w.Advance (es.flatMap RecordEntry.toBytes) (entryTokens * es.length) es w' ∧
        outs = es.map fun _ => () := by
  apply Run.times_eq_ok RecordEntry.Sized (fun _ => ())
    (fun (s : Walk) e t => s.Advance e.toBytes entryTokens [e] t)
    (fun (s : Walk) es t => s.Advance (es.flatMap RecordEntry.toBytes) (entryTokens * es.length) es t)
  · intro s t out
    rw [entry_iff]
    simp
  · intro s t
    exact advance_nil
  · intro s e es u
    rw [List.flatMap_cons, List.length_cons, Nat.mul_succ, Nat.add_comm, ← List.singleton_append]
    exact advance_append

theorem importDomain_text : validUtf8 importDomain = true ∧ importDomain.length < 2 ^ 63 := by
  decide +kernel

/-- The walk passes over the encoding of an import that fits the schema, pushes its entries and then
finds nothing more. -/
theorem envelope_iff {header : ImportHeader} :
    envelope w = (.ok header, w') ↔
      ∃ imp : RecordImport, imp.Sized ∧ w.Advance imp.toBytes imp.tokens imp.entries w' ∧
        w'.cursor.rest.length = 0 ∧ header = imp.header := by
  have harray {n : ℕ} (h : n ≤ maxImportEntries) : array (.ofNat n) = Cbor.head 4 n := by
    rw [array_eq, UInt64.toNat_ofNat_of_lt' (lt_of_le_of_lt h (by decide))]
  have hsix : array 6 = Cbor.head 4 6 := array_eq 6
  have htokens (n : ℕ) : 1 + (1 + (4 + (1 + n))) = 7 + n := by omega
  simp only [envelope, Run.bind_eq_ok, Run.refuse_eq_ok, Run.pure_eq_ok, array_iff,
    token_iff (by decide : 0 < 1), token_iff (by decide : 0 < 4), text_iff, uint_iff, word_iff,
    entries_iff, finish_iff, not_not, not_and, not_lt, existsAndEq, ← advance_append, and_assoc, Run.exists_guard,
    Run.exists_last, exists_and_left, exists_const, true_and, and_true, @Run.exists_swap Walk UInt64,
    @Run.exists_swap Walk Bytes32, @Run.exists_swap Walk Text, @Run.exists_swap Walk (List RecordEntry),
    List.nil_append, Nat.zero_add, htokens]
  constructor
  · rintro ⟨-, domain, hdomain, progress, time, count, tip, htip, es, -, rfl, hsized, h, hmost, hend⟩
    refine ⟨⟨progress, time, count, tip, es⟩, ⟨hmost, hsized, htip⟩, ?_, hend, rfl⟩
    rw [hdomain] at h
    simpa only [RecordImport.toBytes, RecordImport.tokens, List.append_assoc, hsix, harray hmost] using h
  · rintro ⟨imp, ⟨hmost, hsized, htip⟩, h, hend, rfl⟩
    refine ⟨by decide, ⟨importDomain, importDomain_text⟩, rfl, imp.progress, imp.ucTime, imp.targetCount,
      imp.targetTip, htip, imp.entries, lt_of_le_of_lt hmost (by decide), rfl, hsized, ?_, hmost, hend⟩
    simpa only [RecordImport.toBytes, RecordImport.tokens, List.append_assoc, hsix, harray hmost] using h

end Walk

/-! ## The caps -/

variable {imp : RecordImport}

/-- The token cap never refuses what the schema admits. -/
theorem RecordImport.Sized.tokens_le (h : imp.Sized) : imp.tokens ≤ maxImportTokens := by
  have hcount : imp.entries.length ≤ 32 := h.1
  unfold RecordImport.tokens entryTokens maxImportTokens
  omega

theorem payloadWidth_le {kind : UInt64} {width : ℕ} (h : payloadWidth kind = some width) :
    width ≤ 288 := by
  unfold payloadWidth at h
  split_ifs at h <;> simp only [Option.some.injEq] at h <;> omega

theorem RecordEntry.Sized.length_toBytes_le {e : RecordEntry} (h : e.Sized) :
    e.toBytes.length ≤ 433 := by
  have hdata := payloadWidth_le h.1
  simp only [RecordEntry.toBytes, List.length_append]
  grind [length_array_le, length_uint_le, length_word_le, length_bytes_le]

/-- The byte cap never refuses what the schema admits. -/
theorem RecordImport.Sized.length_toBytes_le (h : imp.Sized) : imp.toBytes.length ≤ maxImportBytes := by
  have hcount : imp.entries.length ≤ 32 := h.1
  have hentries := length_flatMap_le fun e he => (h.2.1 e he).length_toBytes_le
  have hdomain : importDomain.length = 25 := by decide
  simp only [RecordImport.toBytes, List.length_append, maxImportBytes]
  grind [length_array_le, length_uint_le, length_word_le, length_text_le]

/-- A walk accepts exactly the encodings of imports that fit the schema; it reports the header and
pushes the entries. -/
theorem walkImport_eq_ok {raw : ByteVec} {collect collected : Option (List RecordEntry)}
    {header : ImportHeader} :
    walkImport raw collect = (.ok header, collected) ↔
      ∃ imp : RecordImport, imp.Sized ∧ raw.val = imp.toBytes ∧ header = imp.header ∧
        collected = collect.map (· ++ imp.entries) := by
  have hrun : walkImport raw collect = (.ok header, collected) ↔
      ∃ w', Walk.envelope ⟨Cursor.ofVec raw, 0, collect⟩ = (.ok header, w') ∧
        w'.collect = collected := by
    simp only [walkImport, Prod.ext_iff]
    constructor
    · rintro ⟨hheader, hcollected⟩
      exact ⟨_, ⟨hheader, rfl⟩, hcollected⟩
    · rintro ⟨w', ⟨hheader, rfl⟩, hcollected⟩
      exact ⟨hheader, hcollected⟩
  simp only [hrun, Walk.envelope_iff]
  constructor
  · rintro ⟨w', ⟨imp, hsized, ⟨hcollect, hmeter⟩, hend, hheader⟩, rfl⟩
    obtain ⟨hraw, -⟩ := Metered.advance_whole.mp ⟨w'.meter, hmeter, hend⟩
    exact ⟨imp, hsized, hraw, hheader, hcollect⟩
  · rintro ⟨imp, hsized, hraw, hheader, rfl⟩
    obtain ⟨m', hmeter, hend⟩ := Metered.advance_whole.mpr ⟨hraw, hsized.tokens_le⟩
    exact ⟨⟨m'.cursor, m'.tokens, _⟩, ⟨imp, hsized, ⟨rfl, hmeter⟩, hend, hheader⟩, rfl⟩

/-- What is admitted is what its bytes decode to, at the price of the bytes and the entries. -/
theorem admitImport_ok {H : Bytes → Bytes32} {raw : ByteVec} {committedHash : Bytes32}
    {budget : UInt64} {admitted : AdmittedImport}
    (h : admitImport H raw committedHash budget = .ok admitted) :
    raw.val = admitted.companion.toBytes ∧ admitted.gas.toNat =
      scanBaseGas + scanByteGas * raw.val.length + entryGas * admitted.companion.entries.length := by
  simp only [admitImport, Res.bind_eq_ok, Res.okOr_eq_ok, Res.u64_eq_ok, Res.pure_eq_ok] at h
  obtain ⟨_, -, scan, hscan, _, -, header, hheader, _, -, rest, -, _, -, decoded, hdecoded, _, -, gas,
    ⟨hlt, rfl⟩, rfl⟩ := h
  obtain ⟨imp, hsized, hraw, rfl, -⟩ := walkImport_eq_ok.mp (Prod.ext hheader rfl)
  have hagain : walkImport raw (some []) = (.ok imp.header, some imp.entries) :=
    walkImport_eq_ok.mpr ⟨imp, hsized, hraw, rfl, rfl⟩
  rw [hagain] at hdecoded ⊢
  obtain rfl := Except.ok.inj hdecoded
  refine ⟨hraw, ?_⟩
  unfold scanGas at hscan
  split_ifs at hscan
  obtain rfl := Option.some.inj hscan
  show (UInt64.ofNat _).toNat = _
  rw [UInt64.toNat_ofNat', Nat.mod_eq_of_lt hlt]
  rfl

end Ureth.Source.Execution
