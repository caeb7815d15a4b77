import Ureth.Foundation.Word64
import Ureth.Source.Crypto
import Ureth.Source.Execution.Binding

/-!
# The committed update and its admission

The canonical bytes of a B1 `Update`, the schema-directed reader that counts its members before
anything is allocated, the checks of a decoded update, and the staged admission that charges for
both. The reader is translated on its own, as the source has it beside the decoder of the root
input. Its token counter never exceeds the limit by more than one and is a natural number.
-/

namespace Ureth.Source.Execution
open Ureth.Foundation

structure Member where
  nodeId : Text
  key : Fixed 33
  weight : UInt64
  deriving DecidableEq

structure Entry where
  epoch : UInt64
  bodyKind : UInt64
  bodyId : Bytes32
  activationCommitId : Bytes32
  start : UInt64
  stop : Option UInt64
  signingScheme : UInt64
  signingConfigHash : Bytes32
  members : List Member
  deriving DecidableEq

structure Update where
  network : UInt16
  rootGenesisId : Bytes32
  executionChainId : UInt64
  profileHash : Bytes32
  parentHash : Bytes32
  blockNumber : UInt64
  originEpoch : UInt64
  originRound : UInt64
  originIdentity : Bytes32
  priorTipEpoch : UInt64
  oldTipEnd : Option UInt64
  newEntries : List Entry
  deriving DecidableEq

def updateDomain : Bytes := ascii "UNICITY_B1_UPDATE"
def maxNodeIdBytes : Nat := 128
def maxEntryBytes : Nat := 16384
def scanBaseGas : Nat := 2000
def scanByteGas : Nat := 16
def memberGas : Nat := 1000
def weightCapB : UInt64 := 65536

/-- The byte cap of an update. -/
def B1Context.maxUpdateBytes (context : B1Context) : Res UpdateError Nat := do
  let b ← context.b
  return 4096 + maxEntryBytes * b.toNat

/-- The token cap of an update. -/
def B1Context.maxTokens (context : B1Context) : Res UpdateError Nat := do
  let b ← context.b
  return 32 + 266 * b.toNat

/-! ## The reader -/

structure Reader where
  cursor : Cursor
  tokens : Nat
  limit : Nat

abbrev Read (α : Type) := Run Reader UpdateError α

namespace Reader

/-- The next `n` bytes. -/
def take (n : Nat) : Read ByteVec := fun r =>
  let taken := Cursor.take .encoding .encoding n r.cursor
  (taken.1, { r with cursor := taken.2 })

/-- One more token, within the limit. -/
def token : Read Unit := fun r =>
  (Res.refuse (r.limit < r.tokens + 1) .encoding, { r with tokens := r.tokens + 1 })

/-- The number of bytes not read yet. -/
def left : Read Nat := fun r => (.ok r.cursor.rest.length, r)

/-- The argument in the `width` bytes after an initial byte, in no shorter form. -/
def wide (width : Nat) : Read UInt64 := do
  let raw ← take width
  let value := beNat raw.val
  let minimal : Bool := match width with
    | 1 => value ≥ 24
    | 2 => value > 0xff
    | 4 => value > 0xffff
    | _ => value > 0xffffffff
  Run.refuse (minimal = false) .encoding
  return .ofNat value

def head : Read (Nat × UInt64) := do
  token
  let slice ← take 1
  let first ← Run.lift (Res.index slice.val 0)
  let major := first.toNat / 32
  let info := first.toNat % 32
  if info < 24 then return (major, .ofNat info)
  Run.refuse (27 < info) .encoding
  let value ← wide (2 ^ (info - 24))
  return (major, value)

def arity (n : UInt64) : Read Unit := do
  let item ← head
  Run.refuse (¬ (item.1 = 4 ∧ item.2 = n)) .encoding

def uint : Read UInt64 := do
  let item ← head
  Run.refuse (item.1 ≠ 0) .encoding
  return item.2

/-- A string of major type `kind` and of `least` to `most` bytes; text is UTF-8. -/
def string (kind least most : Nat) : Read ByteVec := do
  let item ← head
  let room ← left
  Run.refuse (item.1 ≠ kind ∨ item.2.toNat < least ∨ most < item.2.toNat ∨ room < item.2.toNat)
    .encoding
  let out ← take item.2.toNat
  Run.refuse (kind = 3 ∧ validUtf8 out.val = false) .encoding
  return out

def hash : Read Bytes32 := do
  let word ← string 2 32 32
  Run.lift (Res.unwrap (Fixed.ofBytes? 32 word.val))

def optional : Read (Option UInt64) := fun r =>
  if r.cursor.rest.head? = some 0xf6 then
    (do
      -- the token is counted and the byte passed before the limit is compared
      let _ ← take 1
      token
      return none) r
  else (do return some (← uint)) r

/-! ## Parsing -/

/-- A node identifier as text; the reader has checked it already. -/
def nodeIdText (id : ByteVec) : Option Text :=
  if h : validUtf8 id.val = true then some (Text.ofVec id h) else none

def member (decode : Bool) : Read (Option Member) := do
  arity 3
  let id ← string 3 1 maxNodeIdBytes
  let key ← string 2 33 33
  let weight ← uint
  if decode then
    let nodeId ← Run.lift (Res.okOr .encoding (nodeIdText id))
    let key ← Run.lift (Res.okOr .encoding (Fixed.ofBytes? 33 key.val))
    return some { nodeId, key, weight }
  else return none

/-- One entry and the number of its members. -/
def entry (decode : Bool) : Read (Option Entry × Nat) := do
  arity 9
  let epoch ← uint
  let bodyKind ← uint
  let bodyId ← hash
  let activationCommitId ← hash
  let start ← uint
  let stop ← optional
  let signingScheme ← uint
  let signingConfigHash ← hash
  let item ← head
  let room ← left
  Run.refuse (item.1 ≠ 4 ∨ item.2 = 0 ∨ maxUpdateMembers < item.2.toNat ∨ room < item.2.toNat)
    .encoding
  let members ← (member decode).times item.2.toNat
  let decoded : Entry :=
    { epoch, bodyKind, bodyId, activationCommitId, start, stop, signingScheme, signingConfigHash
      members := members.reduceOption }
  return (if decode then some decoded else none, item.2.toNat)

def update (maxEntries : Nat) (decode : Bool) : Read (Option Update × Nat) := do
  arity 13
  let domain ← string 3 updateDomain.length updateDomain.length
  Run.refuse (domain.val ≠ updateDomain) .encoding
  let network ← uint
  Run.refuse (2 ^ 16 ≤ network.toNat) .encoding
  let rootGenesisId ← hash
  let executionChainId ← uint
  let profileHash ← hash
  let parentHash ← hash
  let blockNumber ← uint
  let originEpoch ← uint
  let originRound ← uint
  let originIdentity ← hash
  let priorTipEpoch ← uint
  let oldTipEnd ← optional
  let item ← head
  let room ← left
  Run.refuse (item.1 ≠ 4 ∨ maxEntries < item.2.toNat ∨ room < item.2.toNat) .encoding
  let entries ← (entry decode).times item.2.toNat
  let room ← left
  Run.refuse (room ≠ 0) .encoding
  let decoded : Update :=
    { network := network.toUInt16, rootGenesisId, executionChainId, profileHash, parentHash
      blockNumber, originEpoch, originRound, originIdentity, priorTipEpoch, oldTipEnd
      newEntries := (entries.map Prod.fst).reduceOption }
  return (if decode then some decoded else none, (entries.map Prod.snd).sum)

end Reader

/-- The update, if it is to be decoded, and the number of its members. -/
def parse (raw : ByteVec) (maxEntries tokenLimit : Nat) (decode : Bool) :
    Res UpdateError (Option Update × Nat) :=
  (Reader.update maxEntries decode ⟨Cursor.ofVec raw, 0, tokenLimit⟩).1

/-! ## The checks of a decoded update -/

section Checks

variable (S : Secp256k1)

/-- The member loop after the members `before`, whose weights sum to `total`. -/
def checkMembersFrom (before : List Member) (total : UInt64) :
    List Member → Res UpdateError UInt64
  | [] => .ok total
  | member :: rest => do
    Res.refuse (∃ previous ∈ before.getLast?, member.nodeId.val ≤ previous.nodeId.val)
      .membersNotSorted
    Res.refuse (member.weight = 0) .zeroWeight
    Res.refuse ((S.fromSlice member.key.val).isNone = true) .invalidKey
    Res.refuse (∃ previous ∈ before, previous.key = member.key) .duplicateKey
    let total ← Res.okOr .weightOverflow (addWithin total member.weight)
    checkMembersFrom (before ++ [member]) total rest

def Entry.checkMembers (entry : Entry) : Res UpdateError Unit := do
  let total ← checkMembersFrom S [] 0 entry.members
  Res.refuse (weightCapB < total) .weightCap

def Entry.validate (entry : Entry) : Res UpdateError Unit := do
  Res.refuse (¬ (1 ≤ entry.bodyKind ∧ entry.bodyKind ≤ 3) ∨ entry.bodyId = .zero 32 ∨
      entry.signingConfigHash = .zero 32 ∨ ¬ (entry.signingScheme = 1 ∨ entry.signingScheme = 2) ∨
      ¬ (entry.bodyKind = 1 ↔ entry.activationCommitId = .zero 32))
    .entryIdentity
  Res.refuse (∃ stop ∈ entry.stop, stop ≤ entry.start) .emptyInterval
  entry.checkMembers S

/-- The entry loop after the entry `previous`. -/
def Update.checkEntriesFrom (u : Update) (previous : Option Entry) :
    List Entry → Res UpdateError Unit
  | [] => .ok ()
  | e :: rest => do
    e.validate S
    Res.refuse (e.bodyKind = 1) .genesisKindInUpdate
    Res.refuse (e.epoch ≤ u.priorTipEpoch) .epochNotNewer
    Res.refuse (u.originRound < e.start) .startAfterOrigin
    Res.refuse (∃ stop ∈ e.stop, u.originRound < stop) .endAfterOrigin
    Res.refuse (∃ prev ∈ previous, addWithin prev.epoch 1 ≠ some e.epoch ∨ prev.stop ≠ some e.start)
      .notContiguous
    u.checkEntriesFrom (some e) rest

def checkEntries (u : Update) : Res UpdateError Unit := do
  u.checkEntriesFrom S none u.newEntries
  match u.newEntries.head?, u.newEntries.getLast? with
  | some first, some tail => do
    let stop ← Res.okOr .oldTipEndMismatch u.oldTipEnd
    Res.refuse (first.start < stop ∨
      (addWithin u.priorTipEpoch 1 = some first.epoch ∧ stop ≠ first.start)) .oldTipEndMismatch
    Res.refuse (tail.stop.isSome = true ∨ tail.epoch ≠ u.originEpoch) .tailNotOrigin
  | _, _ =>
    Res.refuse (u.oldTipEnd.isSome = true ∨ u.priorTipEpoch ≠ u.originEpoch) .emptyUpdateMismatch

end Checks

/-! ## Admission -/

structure UpdateBinding where
  committedHash : Bytes32
  parentHash : Bytes32
  parentNumber : UInt64
  originEpoch : UInt64
  originRound : UInt64
  originIdentity : Bytes32
  deriving DecidableEq

def checkBindings (u : Update) (c : B1Context) (b : UpdateBinding) : Res UpdateError Unit := do
  Res.refuse (u.network ≠ c.network) .networkMismatch
  Res.refuse (u.rootGenesisId ≠ c.rootGenesisId) .rootGenesisMismatch
  Res.refuse (u.executionChainId ≠ c.executionChainId) .chainMismatch
  Res.refuse (u.profileHash ≠ c.profileHash) .profileMismatch
  Res.refuse (u.parentHash = .zero 32 ∨ u.parentHash ≠ b.parentHash) .parentMismatch
  Res.refuse (addWithin b.parentNumber 1 ≠ some u.blockNumber) .blockNumberMismatch
  Res.refuse (u.originEpoch ≠ b.originEpoch) .originEpochMismatch
  Res.refuse (u.originRound ≠ b.originRound) .originRoundMismatch
  Res.refuse (u.originIdentity = .zero 32 ∨ u.originIdentity ≠ b.originIdentity)
    .originIdentityMismatch

/-- An admitted update and the gas its admission debits. -/
structure Admitted where
  update : Update
  gas : UInt64

/-- The staged admission: the bytes are charged before they are scanned, the members before they
are decoded. -/
def admitUpdate (H : Bytes → Bytes32) (S : Secp256k1) (raw : ByteVec) (context : B1Context)
    (binding : UpdateBinding) (budget : UInt64) : Res UpdateError Admitted := do
  let k ← context.b
  let cap ← context.maxUpdateBytes
  Res.refuse (cap < raw.val.length) (.tooLarge raw.val.length cap)
  let scan ← Res.u64 (scanBaseGas + scanByteGas * raw.val.length)
  Res.refuse (budget.toNat < scan) .scanBudget
  let tokens ← context.maxTokens
  let scanned ← parse raw k.toNat tokens false
  let rest ← Res.sub budget.toNat scan
  Res.refuse (rest / memberGas < scanned.2) .memberBudget
  let gas ← Res.u64 (scan + memberGas * scanned.2)
  let decoded ← parse raw k.toNat tokens true
  let update ← Res.okOr .encoding decoded.1
  Res.refuse (H raw.val ≠ binding.committedHash) .updateHashMismatch
  checkBindings update context binding
  checkEntries S update
  return { update, gas := .ofNat gas }

/-! ## A read fails only by refusing the encoding -/

namespace Reader

theorem take_eq_ok {n : Nat} {r r' : Reader} {s : ByteVec} (h : take n r = (.ok s, r')) :
    s.val.length = n := by
  obtain ⟨hslice, -⟩ := Prod.mk.inj h
  exact (Cursor.take_eq_ok.mp (Prod.ext hslice rfl)).1

theorem raises_unless (c : Prop) [Decidable c] :
    Run.Raises (· = .encoding) (Run.refuse c .encoding : Read Unit) := Run.raises_refuse rfl

theorem raises_present {α : Type} (o : Option α) :
    Run.Raises (· = .encoding) (Run.lift (Res.okOr .encoding o) : Read α) :=
  Run.raises_lift (Res.failsOnly_okOr rfl)

theorem raises_take (n : Nat) : Run.Raises (· = .encoding) (take n) := by
  intro r
  simp only [take, Cursor.take]
  split
  · trivial
  · split <;> trivial

theorem raises_token : Run.Raises (· = .encoding) token := fun _ => Res.failsOnly_refuse rfl

theorem raises_left : Run.Raises (· = .encoding) left := fun _ => trivial

theorem raises_wide (width : Nat) : Run.Raises (· = .encoding) (wide width) :=
  (raises_take _).andThen fun _ => (raises_unless _).andThen fun _ => Run.raises_pure _

theorem raises_head : Run.Raises (· = .encoding) head := by
  refine raises_token.andThen fun _ => (raises_take 1).bind fun s _ t hs => ?_
  have hfirst : (Res.index s.val 0 : Res UpdateError UInt8).FailsOnly (· = .encoding) :=
    Res.failsOnly_index (by rw [take_eq_ok hs]; decide)
  refine (Run.raises_lift hfirst).andThen (fun first => ?_) t
  dsimp only
  split
  · exact Run.raises_pure _
  · exact (raises_unless _).andThen fun _ => (raises_wide _).andThen fun _ => Run.raises_pure _

theorem raises_arity (n : UInt64) : Run.Raises (· = .encoding) (arity n) :=
  raises_head.andThen fun _ => raises_unless _

theorem raises_uint : Run.Raises (· = .encoding) uint :=
  raises_head.andThen fun _ => (raises_unless _).andThen fun _ => Run.raises_pure _

theorem raises_string (kind least most : Nat) : Run.Raises (· = .encoding) (string kind least most) :=
  raises_head.andThen fun _ => raises_left.andThen fun _ => (raises_unless _).andThen fun _ =>
    (raises_take _).andThen fun _ => (raises_unless _).andThen fun _ => Run.raises_pure _

/-- A string between two equal bounds has that length. -/
theorem length_of_string {kind n : Nat} {r r' : Reader} {s : ByteVec}
    (h : string kind n n r = (.ok s, r')) : s.val.length = n := by
  simp only [string, Run.bind_eq_ok, Run.refuse_eq_ok, Run.pure_eq_ok, not_or, not_not, not_lt] at h
  obtain ⟨item, _, -, room, _, -, _, _, ⟨⟨-, hlow, hhigh, -⟩, -⟩, out, _, hout, _, _, -, rfl, -⟩ := h
  rw [take_eq_ok hout]
  exact Nat.le_antisymm hhigh hlow

theorem raises_hash : Run.Raises (· = .encoding) hash := by
  refine (raises_string 2 32 32).bind fun s r t hs => ?_
  have hlen := length_of_string hs
  have hword : Fixed.ofBytes? 32 s.val = some ⟨s.val, hlen⟩ := Fixed.ofBytes?_eq_some.mpr rfl
  exact Res.failsOnly_unwrap hword

theorem raises_optional : Run.Raises (· = .encoding) optional := by
  intro r
  unfold optional
  split
  · exact ((raises_take 1).andThen fun _ => raises_token.andThen fun _ => Run.raises_pure _) r
  · exact (raises_uint.andThen fun _ => Run.raises_pure _) r

theorem raises_member (decode : Bool) : Run.Raises (· = .encoding) (member decode) := by
  refine (raises_arity 3).andThen fun _ => (raises_string _ _ _).andThen fun _ =>
    (raises_string _ _ _).andThen fun _ => raises_uint.andThen fun _ => ?_
  split
  · exact (raises_present _).andThen fun _ =>
      (raises_present _).andThen fun _ => Run.raises_pure _
  · exact Run.raises_pure _

theorem raises_entry (decode : Bool) : Run.Raises (· = .encoding) (entry decode) :=
  (raises_arity 9).andThen fun _ => raises_uint.andThen fun _ => raises_uint.andThen fun _ =>
    raises_hash.andThen fun _ => raises_hash.andThen fun _ => raises_uint.andThen fun _ =>
    raises_optional.andThen fun _ => raises_uint.andThen fun _ => raises_hash.andThen fun _ =>
    raises_head.andThen fun _ => raises_left.andThen fun _ => (raises_unless _).andThen fun _ =>
    ((raises_member decode).times _).andThen fun _ => Run.raises_pure _

theorem raises_update (maxEntries : Nat) (decode : Bool) : Run.Raises (· = .encoding) (update maxEntries decode) :=
  (raises_arity 13).andThen fun _ => (raises_string _ _ _).andThen fun _ =>
    (raises_unless _).andThen fun _ => raises_uint.andThen fun _ =>
    (raises_unless _).andThen fun _ => raises_hash.andThen fun _ => raises_uint.andThen fun _ =>
    raises_hash.andThen fun _ => raises_hash.andThen fun _ => raises_uint.andThen fun _ =>
    raises_uint.andThen fun _ => raises_uint.andThen fun _ => raises_hash.andThen fun _ =>
    raises_uint.andThen fun _ => raises_optional.andThen fun _ => raises_head.andThen fun _ =>
    raises_left.andThen fun _ => (raises_unless _).andThen fun _ =>
    ((raises_entry decode).times _).andThen fun _ => raises_left.andThen fun _ =>
    (raises_unless _).andThen fun _ => Run.raises_pure _

end Reader

theorem failsOnly_parse (raw : ByteVec) (maxEntries tokenLimit : Nat) (decode : Bool) :
    (parse raw maxEntries tokenLimit decode).FailsOnly (· = .encoding) := Reader.raises_update maxEntries decode _

theorem noPanic_parse (raw : ByteVec) (maxEntries tokenLimit : Nat) (decode : Bool) :
    (parse raw maxEntries tokenLimit decode).NoPanic := (failsOnly_parse _ _ _ _).noPanic

variable {H : Bytes → Bytes32} {S : Secp256k1} {raw : ByteVec} {context : B1Context}
  {binding : UpdateBinding} {budget : UInt64} {admitted : Admitted}

/-- The refusal is not one for lack of budget. -/
def UpdateError.NotBudget (e : UpdateError) : Prop := e ≠ .scanBudget ∧ e ≠ .memberBudget

theorem failsOnly_checkMembersFrom (members before : List Member) (total : UInt64) :
    (checkMembersFrom S before total members).FailsOnly UpdateError.NotBudget := by
  induction members generalizing before total with
  | nil => trivial
  | cons member rest ih =>
    exact (Res.failsOnly_refuse ⟨nofun, nofun⟩).bind fun _ _ => (Res.failsOnly_refuse ⟨nofun, nofun⟩).bind fun _ _ =>
      (Res.failsOnly_refuse ⟨nofun, nofun⟩).bind fun _ _ => (Res.failsOnly_refuse ⟨nofun, nofun⟩).bind fun _ _ =>
      (Res.failsOnly_okOr ⟨nofun, nofun⟩).bind fun _ _ => ih _ _

theorem Entry.failsOnly_validate (entry : Entry) : (entry.validate S).FailsOnly UpdateError.NotBudget :=
  (Res.failsOnly_refuse ⟨nofun, nofun⟩).bind fun _ _ => (Res.failsOnly_refuse ⟨nofun, nofun⟩).bind fun _ _ =>
    (failsOnly_checkMembersFrom _ _ _).bind fun _ _ => Res.failsOnly_refuse ⟨nofun, nofun⟩

theorem Update.failsOnly_checkEntriesFrom (u : Update) (entries : List Entry) (previous : Option Entry) :
    (u.checkEntriesFrom S previous entries).FailsOnly UpdateError.NotBudget := by
  induction entries generalizing previous with
  | nil => trivial
  | cons entry rest ih =>
    exact (entry.failsOnly_validate).bind fun _ _ => (Res.failsOnly_refuse ⟨nofun, nofun⟩).bind fun _ _ =>
      (Res.failsOnly_refuse ⟨nofun, nofun⟩).bind fun _ _ => (Res.failsOnly_refuse ⟨nofun, nofun⟩).bind fun _ _ =>
      (Res.failsOnly_refuse ⟨nofun, nofun⟩).bind fun _ _ => (Res.failsOnly_refuse ⟨nofun, nofun⟩).bind fun _ _ => ih _

theorem failsOnly_checkEntries (u : Update) : (checkEntries S u).FailsOnly UpdateError.NotBudget := by
  refine (u.failsOnly_checkEntriesFrom _ _).bind fun _ _ => ?_
  split
  · exact (Res.failsOnly_okOr ⟨nofun, nofun⟩).bind fun _ _ => (Res.failsOnly_refuse ⟨nofun, nofun⟩).bind fun _ _ =>
      Res.failsOnly_refuse ⟨nofun, nofun⟩
  · exact Res.failsOnly_refuse ⟨nofun, nofun⟩

theorem failsOnly_checkBindings (u : Update) : (checkBindings u context binding).FailsOnly UpdateError.NotBudget :=
  (Res.failsOnly_refuse ⟨nofun, nofun⟩).bind fun _ _ => (Res.failsOnly_refuse ⟨nofun, nofun⟩).bind fun _ _ =>
    (Res.failsOnly_refuse ⟨nofun, nofun⟩).bind fun _ _ => (Res.failsOnly_refuse ⟨nofun, nofun⟩).bind fun _ _ =>
    (Res.failsOnly_refuse ⟨nofun, nofun⟩).bind fun _ _ => (Res.failsOnly_refuse ⟨nofun, nofun⟩).bind fun _ _ =>
    (Res.failsOnly_refuse ⟨nofun, nofun⟩).bind fun _ _ => (Res.failsOnly_refuse ⟨nofun, nofun⟩).bind fun _ _ =>
    Res.failsOnly_refuse ⟨nofun, nofun⟩

theorem failsOnly_b : context.b.FailsOnly UpdateError.NotBudget :=
  (Res.failsOnly_refuse ⟨nofun, nofun⟩).bind fun _ _ => (Res.failsOnly_refuse ⟨nofun, nofun⟩).bind fun _ _ => trivial

theorem failsOnly_maxUpdateBytes : context.maxUpdateBytes.FailsOnly UpdateError.NotBudget := failsOnly_b.bind fun _ _ => trivial

theorem failsOnly_maxTokens : context.maxTokens.FailsOnly UpdateError.NotBudget := failsOnly_b.bind fun _ _ => trivial

/-- The measured envelope bounds the byte cap. -/
theorem maxUpdateBytes_le {cap : Nat} (h : context.maxUpdateBytes = .ok cap) : cap ≤ 36864 := by
  simp only [B1Context.maxUpdateBytes, B1Context.b, Res.bind_eq_ok, Res.refuse_eq_ok, Res.pure_eq_ok, gt_iff_lt, UInt64.not_lt, UInt64.le_iff_toNat_le] at h
  obtain ⟨_, ⟨_, -, _, hmax, rfl⟩, rfl⟩ := h
  have htwo : maxMeasuredB.toNat = 2 := rfl
  unfold maxEntryBytes
  omega

/-- The charge of a member count that fits what the scan left of the budget. -/
theorem charge_le {budget scan members : Nat} (hscan : scan ≤ budget)
    (hmembers : members ≤ (budget - scan) / memberGas) : scan + memberGas * members ≤ budget := by
  have hfit := Nat.mul_le_of_le_div _ _ _ hmembers
  rw [Nat.mul_comm] at hfit
  omega

/-- No sum overflows and no difference underflows on any path of the admission. -/
theorem noPanic_admitUpdate : (admitUpdate H S raw context binding budget).NoPanic := by
  have hbudget := budget.toNat_lt
  refine failsOnly_b.noPanic.bind fun k _ => failsOnly_maxUpdateBytes.noPanic.bind fun cap hcap => ?_
  refine (Res.noPanic_refuse _ _).bind fun _ hlen => ?_
  rw [Res.refuse_eq_ok, not_lt] at hlen
  have hscan : scanBaseGas + scanByteGas * raw.val.length < 2 ^ 64 := by
    have := maxUpdateBytes_le hcap
    unfold scanBaseGas scanByteGas
    omega
  refine (Res.noPanic_u64 hscan).bind fun scan _ => (Res.noPanic_refuse _ _).bind fun _ hle =>
    failsOnly_maxTokens.noPanic.bind fun tokens _ => (noPanic_parse _ _ _ _).bind fun scanned _ => ?_
  rw [Res.refuse_eq_ok, not_lt] at hle
  refine (Res.noPanic_sub hle).bind fun rest hrest => (Res.noPanic_refuse _ _).bind fun _ hfit => ?_
  rw [Res.refuse_eq_ok, not_lt, ← (Res.sub_eq_ok.mp hrest).2] at hfit
  refine (Res.noPanic_u64 (lt_of_le_of_lt (charge_le hle hfit) hbudget)).bind fun gas _ => ?_
  exact (noPanic_parse _ _ _ _).bind fun _ _ => (Res.noPanic_okOr _ _).bind fun _ _ =>
    (Res.noPanic_refuse _ _).bind fun _ _ => (failsOnly_checkBindings _).noPanic.bind fun _ _ =>
    (failsOnly_checkEntries _).noPanic.bind fun _ _ => trivial

/-- The debit of an admission is within the budget it was admitted against. -/
theorem gas_le_of_admitUpdate (h : admitUpdate H S raw context binding budget = .ok admitted) :
    admitted.gas.toNat ≤ budget.toNat := by
  simp only [admitUpdate, Res.bind_eq_ok, Res.refuse_eq_ok, Res.u64_eq_ok, Res.sub_eq_ok,
    Res.okOr_eq_ok, Res.pure_eq_ok, not_lt] at h
  obtain ⟨k, -, cap, -, _, -, scan, -, _, hscan, tokens, -, scanned, -, rest, ⟨-, rfl⟩, _,
    hmembers, gas, ⟨hlt, rfl⟩, _, -, update, -, _, -, _, -, _, -, rfl⟩ := h
  show (UInt64.ofNat (scan + memberGas * scanned.2)).toNat ≤ budget.toNat
  rw [UInt64.toNat_ofNat', Nat.mod_eq_of_lt hlt]
  exact charge_le hscan hmembers

end Ureth.Source.Execution
